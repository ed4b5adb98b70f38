import Mathlib.Data.Finset.Card
import Arbor.Lib.OrdMap

/-!
# Tallies

The keys of a map fall into classes.  A second map may hold, for every class that has keys,
how many: a tally.  It follows the map if one key comes in with one added to its class, and
keys of one class go with their number taken off; a class whose count is used up is left
out.
-/

namespace Tally

open Std

section Keys

variable {K V : Type} [Ord K] [Std.TransOrd K] [Std.LawfulEqOrd K] [DecidableEq K]

def keySet (t : Std.ExtTreeMap K V compare) : Finset K := t.keys.toFinset

@[simp] theorem mem_keySet {t : ExtTreeMap K V compare} {k : K} : k ∈ keySet t ↔ k ∈ t := by
  rw [keySet, List.mem_toFinset, ExtTreeMap.mem_keys]

variable (t : ExtTreeMap K V compare)

omit [DecidableEq K] in
theorem nodup_keys : t.keys.Nodup := by
  rw [← ExtTreeMap.map_fst_toList_eq_keys]
  exact OrdMap.nodup_keys t

theorem card_keySet : (keySet t).card = t.size := by
  rw [keySet, List.toFinset_card_of_nodup (nodup_keys t), ExtTreeMap.length_keys]

@[simp] theorem keySet_empty : keySet (∅ : ExtTreeMap K V compare) = ∅ := by
  ext k
  simp

theorem keySet_insert (k : K) (v : V) : keySet (t.insert k v) = insert k (keySet t) := by
  ext a
  rw [mem_keySet, ExtTreeMap.mem_insert, Finset.mem_insert, mem_keySet,
    LawfulEqCmp.compare_eq_iff_eq, eq_comm]

theorem keySet_erase (k : K) : keySet (t.erase k) = (keySet t).erase k := by
  ext a
  rw [mem_keySet, ExtTreeMap.mem_erase, Finset.mem_erase, mem_keySet, ne_eq,
    LawfulEqCmp.compare_eq_iff_eq, eq_comm]

theorem keySet_eraseAll (ks : List K) : ∀ t : ExtTreeMap K V compare,
    keySet (ks.foldl (fun t k => t.erase k) t) = keySet t \ ks.toFinset := by
  induction ks with
  | nil => simp
  | cons k ks ih =>
    intro t
    rw [List.foldl_cons, ih, keySet_erase, List.toFinset_cons]
    ext a
    simp only [Finset.mem_sdiff, Finset.mem_erase, Finset.mem_insert]
    tauto

theorem getElem?_eraseAll (ks : List K) (a : K) : ∀ t : ExtTreeMap K V compare,
    (ks.foldl (fun t k => t.erase k) t)[a]? = if a ∈ ks then none else t[a]? := by
  induction ks with
  | nil => simp
  | cons k ks ih =>
    intro t
    rw [List.foldl_cons, ih, OrdMap.getElem?_erase]
    by_cases hrest : a ∈ ks
    · rw [if_pos hrest, if_pos (List.mem_cons_of_mem _ hrest)]
    · by_cases hk : k = a
      · rw [if_neg hrest, if_pos hk, if_pos (hk ▸ List.mem_cons_self)]
      · rw [if_neg hrest, if_neg hk, if_neg (by simp [hrest, Ne.symm hk])]

end Keys

section Classes

variable {K C : Type} [DecidableEq C]

def members (f : K → C) (keys : Finset K) (c : C) : Finset K := keys.filter fun k => f k = c

variable [DecidableEq K] {f : K → C} {keys : Finset K}

theorem members_insert_self {k : K} :
    members f (insert k keys) (f k) = insert k (members f keys (f k)) := by
  rw [members, Finset.filter_insert, if_pos rfl, members]

theorem members_insert_of_ne {k : K} {c : C} (h : f k ≠ c) :
    members f (insert k keys) c = members f keys c := by
  rw [members, Finset.filter_insert, if_neg h, members]

theorem card_members_insert {k : K} (hk : k ∉ keys) (c : C) : (members f (insert k keys) c).card
      = (members f keys c).card + if f k = c then 1 else 0 := by
  by_cases h : f k = c
  · have hnot : k ∉ members f keys (f k) := fun hmem => hk (Finset.mem_filter.mp hmem).1
    rw [← h, members_insert_self, Finset.card_insert_of_notMem hnot, if_pos rfl]
  · rw [members_insert_of_ne h, if_neg h, Nat.add_zero]

theorem members_sdiff {gone : Finset K} (c : C) :
    members f (keys \ gone) c = members f keys c \ gone := by
  ext k
  simp only [members, Finset.mem_filter, Finset.mem_sdiff]
  tauto

end Classes

section Counts

variable {C : Type} [Ord C] [Std.TransOrd C]

/-- A count, if there is anything to count. -/
def positive (n : Nat) : Option Nat := if n = 0 then none else some n

theorem getD_positive (n : Nat) : (positive n).getD 0 = n := by
  unfold positive
  split
  · rename_i h
    exact h.symm
  · rfl

def decrement (counts : Std.ExtTreeMap C Nat compare) (c : C) (removed : Nat) :
    Std.ExtTreeMap C Nat compare :=
  match counts[c]? with
  | none => counts
  | some count =>
    if count - removed = 0 then counts.erase c else counts.insert c (count - removed)

variable [DecidableEq C]

/-- The classes that have keys, with the number of their keys. -/
def Tallies {K : Type} (f : K → C) (counts : Std.ExtTreeMap C Nat compare) (keys : Finset K) :
    Prop :=
  ∀ c, counts[c]? = positive (members f keys c).card

variable {K : Type} {f : K → C} {counts : Std.ExtTreeMap C Nat compare} {keys : Finset K}

theorem Tallies.count (h : Tallies f counts keys) (c : C) :
    (counts[c]?).getD 0 = (members f keys c).card := by
  rw [h c, getD_positive]

theorem tallies_empty : Tallies f ∅ ∅ := by
  intro c
  simp [members, positive]

variable [Std.LawfulEqOrd C]

theorem getElem?_decrement (counts : ExtTreeMap C Nat compare) (c a : C) {n : Nat}
    (removed : Nat) (hc : counts[c]? = positive n) :
    (decrement counts c removed)[a]? = if c = a then positive (n - removed) else counts[a]? := by
  unfold decrement
  by_cases hn : n = 0
  · -- nothing was counted, and nothing changes
    rw [hn, positive, if_pos rfl] at hc
    rw [hc, hn, Nat.zero_sub]
    by_cases heq : c = a
    · rw [if_pos heq, ← heq, hc]
      rfl
    · rw [if_neg heq]
  · rw [positive, if_neg hn] at hc
    rw [hc]
    simp only
    by_cases hleft : n - removed = 0
    · rw [if_pos hleft, OrdMap.getElem?_erase, positive, if_pos hleft]
    · rw [if_neg hleft, OrdMap.getElem?_insert, positive, if_neg hleft]

variable [DecidableEq K]

/-- One more key. -/
theorem Tallies.insert (h : Tallies f counts keys) {k : K} (hk : k ∉ keys) :
    Tallies f (counts.insert (f k) ((counts[f k]?).getD 0 + 1)) (Insert.insert k keys) := by
  intro c
  rw [OrdMap.getElem?_insert, h.count, card_members_insert hk]
  by_cases heq : f k = c
  · rw [if_pos heq, if_pos heq, heq, positive, if_neg (Nat.succ_ne_zero _)]
  · rw [if_neg heq, if_neg heq, h c, Nat.add_zero]

/-- Keys of one class go. -/
theorem Tallies.sdiff (h : Tallies f counts keys) {gone : Finset K} {c : C} (hgone : gone ⊆ keys)
    (hclass : ∀ k ∈ gone, f k = c) : Tallies f (decrement counts c gone.card) (keys \ gone) := by
  intro a
  rw [getElem?_decrement counts c a gone.card (h c), members_sdiff]
  by_cases heq : c = a
  · have hsub : gone ⊆ members f keys c := fun k hk =>
      Finset.mem_filter.mpr ⟨hgone hk, hclass k hk⟩
    rw [if_pos heq, ← heq, Finset.card_sdiff_of_subset hsub]
  · have hdisjoint : Disjoint (members f keys a) gone := by
      rw [Finset.disjoint_left]
      intro k hk hmem
      exact heq ((hclass k hmem).symm.trans (Finset.mem_filter.mp hk).2)
    rw [if_neg heq, h a, Finset.sdiff_eq_self_of_disjoint hdisjoint]

end Counts

end Tally
