import Mathlib.Data.List.TakeWhile

/-!
# Partition points of sorted slices

`partitionPoint p slice` is the index where a slice stops satisfying `p`.  A binary
search finds it in a slice whose satisfying elements all come first; on such slices
the two parts it cuts are exactly the elements that satisfy `p` and those that do not.
-/

/-- Where a slice partitioned by `p` stops satisfying it. -/
def partitionPoint {α : Type*} (p : α → Bool) (slice : List α) : Nat :=
  (slice.takeWhile p).length

variable {α : Type*} {p : α → Bool} {slice : List α}

theorem take_partitionPoint (p : α → Bool) (slice : List α) :
    slice.take (partitionPoint p slice) = slice.takeWhile p := by
  induction slice with
  | nil => rfl
  | cons a slice ih =>
    unfold partitionPoint at ih ⊢
    by_cases h : p a <;> simp [h, ih]

theorem drop_partitionPoint (p : α → Bool) (slice : List α) :
    slice.drop (partitionPoint p slice) = slice.dropWhile p := by
  induction slice with
  | nil => rfl
  | cons a slice ih =>
    unfold partitionPoint at ih ⊢
    by_cases h : p a <;> simp [h, ih]

theorem not_of_mem_dropWhile (hpart : slice.Pairwise fun a b => p b = true → p a = true)
    {a : α} (ha : a ∈ slice.dropWhile p) : p a = false := by
  induction slice with
  | nil => simp at ha
  | cons b slice ih =>
    obtain ⟨hhead, htail⟩ := List.pairwise_cons.mp hpart
    by_cases hb : p b
    · rw [List.dropWhile_cons_of_pos hb] at ha
      exact ih htail ha
    · rw [List.dropWhile_cons_of_neg hb] at ha
      rcases List.mem_cons.mp ha with rfl | hmem
      · simpa using hb
      · by_contra hne
        exact hb (hhead a hmem (by simpa using hne))

/-- A weaker predicate stops later. -/
theorem partitionPoint_le {q : α → Bool} (h : ∀ a, p a = true → q a = true) :
    partitionPoint p slice ≤ partitionPoint q slice := by
  induction slice with
  | nil => exact Nat.le_refl _
  | cons a slice ih =>
    unfold partitionPoint at ih ⊢
    by_cases hp : p a
    · simp [hp, h a hp, ih]
    · simp [hp]

theorem partitionPoint_eq_length (h : ∀ a ∈ slice, p a = true) :
    partitionPoint p slice = slice.length := by
  rw [partitionPoint, List.takeWhile_eq_self_iff.mpr h]

/-- Binary search in a slice sorted by a key: where the key stands, if it does. -/
def binarySearchByKey {β : Type*} [DecidableEq β] [LT β] [DecidableLT β] (key : α → β) (target : β)
    (slice : List α) : Option Nat :=
  let index := partitionPoint (fun a => decide (key a < target)) slice
  if slice[index]?.map key = some target then some index else none

theorem binarySearchByKey_eq_some {β : Type*} [DecidableEq β] [LT β] [DecidableLT β]
    (hirrefl : ∀ b : β, ¬b < b) {key : α → β} {target : β} {a : α} {slice : List α}
    (hsorted : slice.Pairwise fun a b => key a < key b) :
    (∃ index, binarySearchByKey key target slice = some index ∧ slice[index]? = some a) ↔
      a ∈ slice ∧ key a = target := by
  constructor
  · rintro ⟨index, hfind, hat⟩
    simp only [binarySearchByKey] at hfind
    split at hfind
    · rename_i htarget
      rw [Option.some.inj hfind, hat, Option.map_some, Option.some.injEq] at htarget
      exact ⟨List.mem_of_getElem? hat, htarget⟩
    · cases hfind
  · rintro ⟨hmem, rfl⟩
    obtain ⟨left, right, rfl⟩ := List.append_of_mem hmem
    -- Everything before the element has a smaller key, so the partition ends there.
    have hleft : ∀ b ∈ left, key b < key a := fun b hb =>
      (List.pairwise_append.mp hsorted).2.2 b hb a List.mem_cons_self
    have hindex : partitionPoint (fun b => decide (key b < key a)) (left ++ a :: right)
        = left.length := by
      rw [partitionPoint, List.takeWhile_append_of_pos (by simpa using hleft),
        List.takeWhile_cons_of_neg (by simpa using hirrefl (key a)), List.append_nil]
    refine ⟨left.length, ?_, by simp⟩
    simp [binarySearchByKey, hindex]
