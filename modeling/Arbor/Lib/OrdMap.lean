import Mathlib.Data.List.Nodup
import Std.Data.ExtTreeMap

/-!
# Ordered maps with decidable keys

Facts about extensional tree maps whose order tells keys apart, stated with equality of
keys.
-/

namespace OrdMap

open Std List

variable {K V : Type} [Ord K] [Std.TransOrd K]

theorem mem_iff_exists {t : ExtTreeMap K V compare} {k : K} : k ∈ t ↔ ∃ v, t[k]? = some v := by
  rw [ExtTreeMap.mem_iff_isSome_getElem?, Option.isSome_iff_exists]

variable [Std.LawfulEqOrd K] (t : ExtTreeMap K V compare)

theorem getElem?_insert [DecidableEq K] (k a : K) (v : V) :
    (t.insert k v)[a]? = if k = a then some v else t[a]? := by
  rw [ExtTreeMap.getElem?_insert]
  by_cases h : k = a
  · rw [if_pos h, if_pos (LawfulEqCmp.compare_eq_iff_eq.mpr h)]
  · rw [if_neg h, if_neg (fun hc => h (LawfulEqCmp.compare_eq_iff_eq.mp hc))]

theorem getElem?_erase [DecidableEq K] (k a : K) :
    (t.erase k)[a]? = if k = a then none else t[a]? := by
  rw [ExtTreeMap.getElem?_erase]
  by_cases h : k = a
  · rw [if_pos h, if_pos (LawfulEqCmp.compare_eq_iff_eq.mpr h)]
  · rw [if_neg h, if_neg (fun hc => h (LawfulEqCmp.compare_eq_iff_eq.mp hc))]

theorem nodup_keys : (t.toList.map Prod.fst).Nodup := by
  rw [Nodup, pairwise_map]
  refine ExtTreeMap.distinct_keys_toList.imp fun h heq => h ?_
  exact LawfulEqCmp.compare_eq_iff_eq.mpr heq

theorem toList_insert_empty [DecidableEq K] (k : K) (v : V) :
    ((∅ : ExtTreeMap K V compare).insert k v).toList = [(k, v)] := by
  have hlength : ((∅ : ExtTreeMap K V compare).insert k v).toList.length = 1 := by
    simp [ExtTreeMap.size_insert]
  obtain ⟨entry, hentry⟩ := length_eq_one_iff.mp hlength
  have hmem : (k, v) ∈ ((∅ : ExtTreeMap K V compare).insert k v).toList := by
    rw [ExtTreeMap.mem_toList_iff_getElem?_eq_some, getElem?_insert, if_pos rfl]
  rw [hentry, mem_singleton] at hmem
  rw [hentry, hmem]

/-- A value written under a key; `none` takes the key out. -/
def write (t : Std.ExtTreeMap K V compare) (k : K) : Option V → Std.ExtTreeMap K V compare
  | some v => t.insert k v
  | none => t.erase k

theorem getElem?_write [DecidableEq K] (k a : K) (w : Option V) :
    (write t k w)[a]? = if k = a then w else t[a]? := by
  cases w with
  | some v => exact getElem?_insert t k a v
  | none => exact getElem?_erase t k a

section Writes

variable {ι : Type} (key : ι → K) (value : ι → Option V)

theorem getElem?_writes_of_not_mem [DecidableEq K] {l : List ι} {a : K} (h : a ∉ l.map key) :
    ∀ t : ExtTreeMap K V compare,
      (l.foldl (fun t i => write t (key i) (value i)) t)[a]? = t[a]? := by
  induction l with
  | nil => exact fun _ => rfl
  | cons i l ih =>
    intro t
    rw [map_cons, mem_cons, not_or] at h
    rw [foldl_cons, ih h.2, getElem?_write, if_neg (Ne.symm h.1)]

/-- Writes under distinct keys all stand. -/
theorem getElem?_writes_of_mem [DecidableEq K] {l : List ι} (hl : (l.map key).Nodup) {i : ι}
    (h : i ∈ l) : ∀ t : ExtTreeMap K V compare,
      (l.foldl (fun t i => write t (key i) (value i)) t)[key i]? = value i := by
  induction l with
  | nil => cases h
  | cons j l ih =>
    intro t
    rw [map_cons, nodup_cons] at hl
    rw [foldl_cons]
    rcases mem_cons.mp h with rfl | hmem
    · rw [getElem?_writes_of_not_mem key value hl.1, getElem?_write, if_pos rfl]
    · exact ih hl.2 hmem _

theorem of_getElem?_writes [DecidableEq K] {l : List ι} {a : K} {v : V} :
    ∀ {t : ExtTreeMap K V compare},
      (l.foldl (fun t i => write t (key i) (value i)) t)[a]? = some v →
      t[a]? = some v ∨ ∃ i ∈ l, value i = some v := by
  induction l with
  | nil => exact .inl
  | cons i l ih =>
    intro t h
    rcases ih h with h | ⟨j, hj, hvalue⟩
    · rw [getElem?_write] at h
      split at h
      · exact .inr ⟨i, mem_cons_self, h⟩
      · exact .inl h
    · exact .inr ⟨j, mem_cons_of_mem _ hj, hvalue⟩

end Writes

/-- Inserting pairs with distinct keys. -/
theorem getElem?_insertMany_of_mem [DecidableEq K] {l : List (K × V)}
    (hl : (l.map Prod.fst).Nodup) {k : K} {v : V} (h : (k, v) ∈ l) :
    (t.insertMany l)[k]? = some v := by
  refine ExtTreeMap.getElem?_insertMany_list_of_mem ReflCmp.compare_self ?_ h
  rw [Nodup, pairwise_map] at hl
  exact hl.imp fun hne heq => hne (LawfulEqCmp.compare_eq_iff_eq.mp heq)

theorem getElem?_insertMany_of_not_mem [DecidableEq K]
    {l : List (K × V)} {k : K} (h : k ∉ l.map Prod.fst) : (t.insertMany l)[k]? = t[k]? := by
  refine ExtTreeMap.getElem?_insertMany_list_of_contains_eq_false ?_
  rw [Bool.eq_false_iff, ne_eq, contains_iff_mem]
  exact h

theorem mem_of_getElem?_insertMany [DecidableEq K] {l : List (K × V)} {k : K} {v : V}
    (h : (t.insertMany l)[k]? = some v) : (k, v) ∈ l ∨ t[k]? = some v := by
  induction l generalizing t with
  | nil => exact .inr (by simpa using h)
  | cons pair l ih =>
    rw [ExtTreeMap.insertMany_cons] at h
    rcases ih _ h with hmem | hfound
    · exact .inl (mem_cons_of_mem _ hmem)
    · rw [getElem?_insert] at hfound
      split at hfound
      · rename_i heq
        cases hfound
        exact .inl (heq ▸ mem_cons_self)
      · exact .inr hfound

/-- A new pair is one more of the list. -/
theorem toList_insert_perm [DecidableEq K] {k : K} (h : t[k]? = none) (v : V) :
    (t.insert k v).toList.Perm ((k, v) :: t.toList) := by
  have hnodup (t : ExtTreeMap K V compare) : t.toList.Nodup := (nodup_keys t).of_map
  refine (perm_ext_iff_of_nodup (hnodup _) (nodup_cons.mpr ⟨?_, hnodup t⟩)).mpr ?_
  · rw [ExtTreeMap.mem_toList_iff_getElem?_eq_some, h]
    exact (Option.some_ne_none v).symm
  · rintro ⟨a, w⟩
    rw [mem_cons, ExtTreeMap.mem_toList_iff_getElem?_eq_some, getElem?_insert,
      ExtTreeMap.mem_toList_iff_getElem?_eq_some, Prod.mk.injEq]
    by_cases heq : k = a
    · subst heq
      simp [h, eq_comm]
    · simp [heq, Ne.symm heq]

/-- A map is what inserting its pairs gives. -/
theorem insertMany_toList [DecidableEq K] :
    (∅ : ExtTreeMap K V compare).insertMany t.toList = t := by
  apply ExtTreeMap.ext_getElem?
  intro k
  by_cases h : k ∈ t.toList.map Prod.fst
  · obtain ⟨⟨a, v⟩, hmem, rfl⟩ := mem_map.mp h
    rw [getElem?_insertMany_of_mem _ (nodup_keys t) hmem,
      ExtTreeMap.mem_toList_iff_getElem?_eq_some.mp hmem]
  · rw [getElem?_insertMany_of_not_mem _ h, eq_comm]
    refine ExtTreeMap.getElem?_eq_none fun hk => ?_
    obtain ⟨v, hv⟩ := mem_iff_exists.mp hk
    exact h (mem_map.mpr
      ⟨(k, v), ExtTreeMap.mem_toList_iff_getElem?_eq_some.mpr hv, rfl⟩)

theorem write_comm [DecidableEq K] {k k' : K} {w w' : Option V}
    (h : k = k' → w = w') : write (write t k w) k' w' = write (write t k' w') k w := by
  apply ExtTreeMap.ext_getElem?
  intro a
  simp only [getElem?_write]
  by_cases hk : k = a
  · by_cases hk' : k' = a
    · rw [if_pos hk', if_pos hk, h (hk.trans hk'.symm)]
    · rw [if_neg hk', if_pos hk, if_pos hk]
  · rw [if_neg hk, if_neg hk]

theorem insert_comm [DecidableEq K] {k k' : K} {v v' : V}
    (h : k = k' → v = v') : (t.insert k v).insert k' v' = (t.insert k' v').insert k v :=
  write_comm t fun hk => congrArg some (h hk)

theorem union_right_comm {a b : ExtTreeMap K V compare}
    (h : ∀ (k : K) (v v' : V), a[k]? = some v → b[k]? = some v' → v = v') :
    (t ∪ a) ∪ b = (t ∪ b) ∪ a := by
  apply ExtTreeMap.ext_getElem?
  intro k
  simp only [ExtTreeMap.getElem?_union]
  cases ha : a[k]? with
  | none => rfl
  | some v =>
    cases hb : b[k]? with
    | none => rfl
    | some v' => rw [h k v v' ha hb]

theorem union_empty : t ∪ (∅ : ExtTreeMap K V compare) = t := by
  apply ExtTreeMap.ext_getElem?
  intro k
  rw [ExtTreeMap.getElem?_union]
  rfl

/-- How many entries a map has after writes of different keys, each of which leaves an entry
or none. -/
def sizeAfter (t : ExtTreeMap K V compare) (writes : List (K × Bool)) : Nat :=
  t.size + (writes.countP fun write => write.2 && !t.contains write.1)
    - writes.countP fun write => !write.2 && t.contains write.1

omit [Std.LawfulEqOrd K] in
theorem sizeAfter_le (writes : List (K × Bool)) : sizeAfter t writes ≤ t.size + writes.length :=
  Nat.le_trans (Nat.sub_le _ _) (Nat.add_le_add_left countP_le_length _)

omit [Std.LawfulEqOrd K] in
theorem size_write (k : K) (w : Option V) :
    (write t k w).size + (if (!w.isSome && t.contains k) = true then 1 else 0)
      = t.size + if (w.isSome && !t.contains k) = true then 1 else 0 := by
  cases w with
  | none =>
    rw [write, ExtTreeMap.size_erase]
    cases hin : t.contains k with
    | false => rfl
    | true =>
      have hsome : t.size ≠ 0 := by
        intro hzero
        rw [ExtTreeMap.eq_empty_iff_size_eq_zero.mpr hzero] at hin
        cases hin
      change t.size - 1 + 1 = t.size
      omega
  | some v =>
    rw [write, ExtTreeMap.size_insert]
    cases hin : t.contains k <;> simp

theorem size_writes [DecidableEq K] {ι : Type} (key : ι → K) (value : ι → Option V) {l : List ι}
    (hnodup : (l.map key).Nodup) (t : ExtTreeMap K V compare) :
    (l.foldl (fun t i => write t (key i) (value i)) t).size
      = sizeAfter t (l.map fun i => (key i, (value i).isSome)) := by
  -- the balance, from which the difference follows
  suffices hbalance : (l.foldl (fun t i => write t (key i) (value i)) t).size
          + l.countP (fun i => !(value i).isSome && t.contains (key i))
        = t.size + l.countP fun i => (value i).isSome && !t.contains (key i) by
    rw [sizeAfter, countP_map, countP_map]
    change _ = t.size + l.countP (fun i => (value i).isSome && !t.contains (key i))
      - l.countP fun i => !(value i).isSome && t.contains (key i)
    omega
  induction l generalizing t with
  | nil => rfl
  | cons i l ih =>
    rw [map_cons, nodup_cons] at hnodup
    have hother : ∀ j ∈ l, (write t (key i) (value i)).contains (key j) = t.contains (key j) := by
      intro j hj
      have hne : key i ≠ key j := fun heq => hnodup.1 (heq ▸ mem_map_of_mem hj)
      rw [ExtTreeMap.contains_eq_isSome_getElem?, ExtTreeMap.contains_eq_isSome_getElem?,
        getElem?_write, if_neg hne]
    have hrest := ih hnodup.2 (write t (key i) (value i))
    rw [countP_congr fun j hj => by rw [hother j hj], countP_congr (p := fun j =>
      (value j).isSome && !(write t (key i) (value i)).contains (key j))
      fun j hj => by rw [hother j hj]] at hrest
    have hfirst := size_write t (key i) (value i)
    rw [foldl_cons, countP_cons, countP_cons]
    omega

end OrdMap
