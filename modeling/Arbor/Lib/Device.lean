import Arbor.Lib.BigEndian
import Arbor.Lib.OrdMap
import Arbor.Lib.Result
import Arbor.Lib.Slice

/-!
# Tables on a device that may fail

A key-value store of several columns: each column is a table of byte strings in the order
of their keys.  Programs read single keys, scan the keys that start with given bytes, and
submit transactions, which apply as a whole or not at all.  Any of these operations may
fail; the coming failures are part of the device, so that a statement about every device
is one about every pattern of failures.

* `apply_untouched`, `apply_settled`: what a transaction leaves and what it writes;
* `mem_scan`: a scan that seeks and stops at the first foreign key misses nothing;
* `ReadOnly`: a program that leaves the tables as they are and returns what it would on a
  device that never fails, or else a failure of the device (`ReadOnly.bind`, `value_bind`).
-/

namespace Device

open Result List

/-- Byte strings under their keys, in the order of the keys. -/
abbrev Table := Std.ExtTreeMap Bytes Bytes compare

abbrev Tables (Col : Type) := Col → Table

/-- One line of a transaction: a value for a key, or `none` to take the key out. -/
structure Change (Col : Type) where
  column : Col
  key : Bytes
  value : Option Bytes

/-! ## Transactions -/

section Transactions

variable {Col : Type} [DecidableEq Col]

def put (tables : Tables Col) (change : Change Col) : Tables Col :=
  Function.update tables change.column
    (OrdMap.write (tables change.column) change.key change.value)

def apply (tables : Tables Col) (changes : List (Change Col)) : Tables Col :=
  changes.foldl put tables

/-- What stands under a key of a column. -/
def look (tables : Tables Col) (column : Col) (key : Bytes) : Option Bytes := (tables column)[key]?

variable {tables : Tables Col} {column : Col} {key : Bytes}

theorem look_put (change : Change Col) : look (put tables change) column key
      = if change.column = column ∧ change.key = key then change.value
        else look tables column key := by
  by_cases hcol : change.column = column
  · subst hcol
    simp [look, put, OrdMap.getElem?_write]
  · simp [look, put, Function.update_of_ne (Ne.symm hcol), hcol]

/-- A key no line names keeps what stood there. -/
theorem apply_untouched {changes : List (Change Col)}
    (h : ∀ change ∈ changes, ¬(change.column = column ∧ change.key = key)) :
    look (apply tables changes) column key = look tables column key := by
  induction changes generalizing tables with
  | nil => rfl
  | cons change changes ih =>
    have htail := fun other hother => h other (mem_cons_of_mem change hother)
    have hstep := @ih (put tables change) htail
    rw [look_put, if_neg (h change mem_cons_self)] at hstep
    exact hstep

theorem apply_settled {changes : List (Change Col)} {value : Option Bytes}
    (hsome : ∃ change ∈ changes, change.column = column ∧ change.key = key)
    (hall : ∀ change ∈ changes, change.column = column → change.key = key →
      change.value = value) : look (apply tables changes) column key = value := by
  induction changes generalizing tables with
  | nil =>
    obtain ⟨change, hmem, _⟩ := hsome
    cases hmem
  | cons change changes ih =>
    have htail := fun other hother => hall other (mem_cons_of_mem change hother)
    by_cases hlater : ∃ other ∈ changes, other.column = column ∧ other.key = key
    · exact @ih (put tables change) hlater htail
    · -- The first line is then the last one that names the key.
      obtain ⟨named, hnamed, hcol, hkey⟩ := hsome
      rcases mem_cons.mp hnamed with rfl | hmem
      · have hkeep : look (apply (put tables named) changes) column key
            = look (put tables named) column key :=
          apply_untouched fun other hother hat => hlater ⟨other, hother, hat⟩
        rw [look_put, if_pos ⟨hcol, hkey⟩, hall named mem_cons_self hcol hkey] at hkeep
        exact hkeep
      · exact absurd ⟨named, hmem, hcol, hkey⟩ hlater

end Transactions

/-! ## Scans -/

section Scans

variable {pre : Bytes}

theorem compare_cons (a b : Byte) (x y : Bytes) :
    compare (a :: x) (b :: y) = (compare a b).then (compare x y) := by
  show List.compareLex compare (a :: x) (b :: y) = _
  rw [List.compareLex_cons_cons]
  rfl

/-- A key that starts with `pre` does not come before it. -/
theorem not_lt_of_isPrefix {key : Bytes} (h : pre <+: key) : compare key pre ≠ .lt := by
  induction pre generalizing key with
  | nil =>
    cases key <;> simp [compare, List.compareLex]
  | cons a pre ih =>
    obtain ⟨rest, rfl⟩ := h
    have heq : compare a a = .eq := Std.ReflCmp.compare_self
    rw [List.cons_append, compare_cons, heq]
    exact ih ⟨rest, rfl⟩

theorem isPrefix_of_between {first second : Bytes} (hle : compare first pre ≠ .lt)
    (hlt : compare first second = .lt) (h : pre <+: second) : pre <+: first := by
  induction pre generalizing first second with
  | nil => exact List.nil_prefix
  | cons a pre ih =>
    obtain ⟨rest, rfl⟩ := h
    cases first with
    | nil => simp [compare, List.compareLex] at hle
    | cons b first =>
      rw [List.cons_append, compare_cons] at hlt
      rw [compare_cons] at hle
      rcases hab : compare b a with _ | _ | _
      · rw [hab] at hle
        exact absurd rfl hle
      · obtain rfl := Std.LawfulEqCmp.compare_eq_iff_eq.mp hab
        rw [hab] at hlt hle
        exact List.cons_prefix_cons.mpr ⟨rfl, ih hle hlt ⟨rest, rfl⟩⟩
      · rw [hab] at hlt
        cases hlt

/-- Seek to `pre`, then take entries while their keys start with it. -/
def scan (table : Table) (pre : Bytes) : List (Bytes × Bytes) :=
  (table.toList.dropWhile fun entry => compare entry.1 pre = .lt).takeWhile
    fun entry => pre.isPrefixOf entry.1

theorem mem_scan {table : Table} {key value : Bytes} :
    (key, value) ∈ scan table pre ↔ table[key]? = some value ∧ pre <+: key := by
  rw [← Std.ExtTreeMap.mem_toList_iff_getElem?_eq_some, scan]
  have hsorted := Std.ExtTreeMap.ordered_keys_toList (t := table)
  generalize table.toList = entries at hsorted
  set before : Bytes × Bytes → Bool := fun entry => compare entry.1 pre = .lt
  have hfrom : ∀ entry ∈ entries.dropWhile before, compare entry.1 pre ≠ .lt := by
    intro entry hentry
    have hpart : entries.Pairwise fun a b => before b = true → before a = true := by
      refine hsorted.imp fun hlt hb => ?_
      exact decide_eq_true (Std.TransCmp.lt_trans hlt (of_decide_eq_true hb))
    simpa [before] using not_of_mem_dropWhile hpart hentry
  set starts : Bytes × Bytes → Bool := fun entry => pre.isPrefixOf entry.1
  have hpart : (entries.dropWhile before).Pairwise fun a b =>
      starts b = true → starts a = true := by
    refine Pairwise.imp_of_mem (fun {a b} ha _ hlt hb => ?_)
      (hsorted.sublist (dropWhile_sublist before))
    rw [ isPrefixOf_iff_prefix] at hb ⊢
    exact isPrefix_of_between (hfrom a ha) hlt hb
  constructor
  · intro hmem
    have hstarts := mem_takeWhile_imp hmem
    exact ⟨(dropWhile_sublist before).subset ((takeWhile_sublist starts).subset hmem),
      isPrefixOf_iff_prefix.mp hstarts⟩
  · rintro ⟨hmem, hstarts⟩
    rw [← takeWhile_append_dropWhile (p := before) (l := entries), mem_append] at hmem
    rcases hmem with hbefore | hmem
    · have hlt : before (key, value) = true := mem_takeWhile_imp hbefore
      exact absurd (of_decide_eq_true hlt) (not_lt_of_isPrefix hstarts)
    · rw [← takeWhile_append_dropWhile (p := starts) (l := entries.dropWhile before),
        mem_append] at hmem
      refine hmem.resolve_right fun hafter => ?_
      have hnot : starts (key, value) = false := not_of_mem_dropWhile hpart hafter
      exact Bool.false_ne_true (hnot.symm.trans ( isPrefixOf_iff_prefix.mpr hstarts))

end Scans

/-! ## Programs -/

/-- The tables, and how each coming operation will end: `none` if it goes through. -/
structure Disk (Col : Type) where
  tables : Tables Col
  faults : Nat → Option String

/-- A program over a disk.  What it has done to the disk stands also where it fails. -/
abbrev Program (Col ε α : Type) := EStateM ε (Disk Col) α

def never : Nat → Option String := fun _ => none

section Programs

variable {Col ε α β : Type} (fault : String → ε)

variable {a : α} {ε' : Type} {b : β} {e : ε}

def operate (act : Tables Col → α × Tables Col) : Program Col ε α := fun disk =>
  let later := fun n => disk.faults (n + 1)
  match disk.faults 0 with
  | some what => .error (fault what) ⟨disk.tables, later⟩
  | none => .ok (act disk.tables).1 ⟨(act disk.tables).2, later⟩

def get (column : Col) (key : Bytes) : Program Col ε (Option Bytes) :=
  operate fault fun tables => (look tables column key, tables)

/-- The entries whose keys start with `pre`. -/
def entries (column : Col) (pre : Bytes) : Program Col ε (List (Bytes × Bytes)) :=
  operate fault fun tables => (scan (tables column) pre, tables)

/-- Several reads taken as one operation: all of them go through, or one fails. -/
def query (act : Tables Col → α) : Program Col ε α :=
  operate fault fun tables => (act tables, tables)

def commit [DecidableEq Col] (changes : List (Change Col)) : Program Col ε Unit :=
  operate fault fun tables => ((), apply tables changes)

/-- The end of a program with a given result. -/
def settle (result : Except ε α) (disk : Disk Col) : EStateM.Result ε (Disk Col) α :=
  match result with
  | .ok a => .ok a disk
  | .error e => .error e disk

/-- A computation without the device, as a program. -/
def give (result : Except ε α) : Program Col ε α := settle result

/-- Runs a program for its result; what it has done stands. -/
def attempt {ε' : Type} (x : Program Col ε α) : Program Col ε' (Except ε α) := fun disk =>
  match x disk with
  | .ok a disk => .ok (.ok a) disk
  | .error e disk => .ok (.error e) disk

/-- A program with its errors renamed. -/
def adapt {ε' : Type} (rename : ε → ε') (x : Program Col ε α) : Program Col ε' α := fun disk =>
  match x disk with
  | .ok a disk => .ok a disk
  | .error e disk => .error (rename e) disk

/-- What a program returns where nothing fails. -/
def value (x : Program Col ε α) (tables : Tables Col) : Except ε α :=
  match x ⟨tables, never⟩ with
  | .ok a _ => .ok a
  | .error e _ => .error e

/-- A program that leaves the tables as they are.  It returns its value, or else a failure
of the device. -/
def ReadOnly (x : Program Col ε α) : Prop :=
  ∀ disk, ∃ faults,
    (x disk = settle (value x disk.tables) ⟨disk.tables, faults⟩
      ∧ (disk.faults = never → faults = never))
    ∨ (disk.faults ≠ never ∧ ∃ what, x disk = .error (fault what) ⟨disk.tables, faults⟩)

variable {fault}

variable {disk : Disk Col} {act : Tables Col → α × Tables Col}

theorem operate_ok (h : disk.faults 0 = none) : operate fault act disk
      = .ok (act disk.tables).1 ⟨(act disk.tables).2, fun n => disk.faults (n + 1)⟩ := by
  rw [operate, h]

theorem operate_error {what : String} (h : disk.faults 0 = some what) : operate fault act disk
      = .error (fault what) ⟨disk.tables, fun n => disk.faults (n + 1)⟩ := by
  rw [operate, h]

theorem value_operate (act : Tables Col → α × Tables Col) (tables : Tables Col) :
    value (operate fault act) tables = .ok (act tables).1 := by
  rw [value, operate_ok rfl]

@[simp] theorem value_get (column : Col) (key : Bytes) (tables : Tables Col) :
    value (get fault column key) tables = .ok (look tables column key) :=
  value_operate _ tables

@[simp] theorem value_entries (column : Col) (pre : Bytes) (tables : Tables Col) :
    value (entries fault column pre) tables = .ok (scan (tables column) pre) :=
  value_operate _ tables

variable (result : Except ε α)

@[simp] theorem value_give (tables : Tables Col) : value (give result) tables = result := by
  cases result <;> rfl

theorem readOnly_operate (look : Tables Col → α) :
    ReadOnly fault (operate fault fun tables => (look tables, tables)) := by
  intro disk
  refine ⟨fun n => disk.faults (n + 1), ?_⟩
  rcases h : disk.faults 0 with _ | what
  · refine .inl ⟨?_, fun hnever => by rw [hnever]; rfl⟩
    rw [operate_ok h]
    rfl
  · refine .inr ⟨fun hnever => ?_, what, operate_error h⟩
    rw [hnever] at h
    cases h

theorem readOnly_get (column : Col) (key : Bytes) : ReadOnly fault (get fault column key) :=
  readOnly_operate _

theorem readOnly_entries (column : Col) (pre : Bytes) : ReadOnly fault (entries fault column pre) :=
  readOnly_operate _

theorem readOnly_give : ReadOnly fault (give result : Program Col ε α) := by
  intro disk
  refine ⟨disk.faults, .inl ⟨?_, id⟩⟩
  rw [value_give]
  rfl

theorem readOnly_pure (a : α) : ReadOnly fault (pure a : Program Col ε α) :=
  readOnly_give (.ok a)

variable {x : Program Col ε α}

theorem ReadOnly.quiet (h : ReadOnly fault x) (tables : Tables Col) :
    x ⟨tables, never⟩ = settle (value x tables) ⟨tables, never⟩ := by
  obtain ⟨faults, ⟨hrun, hfaults⟩ | ⟨hne, _⟩⟩ := h ⟨tables, never⟩
  · rw [hfaults rfl] at hrun
    exact hrun
  · exact absurd rfl hne

theorem value_bind (h : ReadOnly fault x) (y : α → Program Col ε β) (tables : Tables Col) :
    value (x >>= y) tables = value x tables >>= fun a => value (y a) tables := by
  rw [value, run_bind, h.quiet]
  cases value x tables <;> rfl

variable {y : α → Program Col ε β}

/-- Reading and then reading is reading. -/
theorem ReadOnly.bind (hx : ReadOnly fault x) (hy : ∀ a, ReadOnly fault (y a)) :
    ReadOnly fault (x >>= y) := by
  intro disk
  obtain ⟨faults, ⟨hrun, hfaults⟩ | ⟨hne, what, hrun⟩⟩ := hx disk
  · rw [run_bind, hrun, value_bind hx]
    rcases value x disk.tables with e | a
    · exact ⟨faults, .inl ⟨rfl, hfaults⟩⟩
    · obtain ⟨faults', ⟨hrun', hfaults'⟩ | ⟨hne, hwhat⟩⟩ := hy a ⟨disk.tables, faults⟩
      · exact ⟨faults', .inl ⟨hrun', fun hnever => hfaults' (hfaults hnever)⟩⟩
      · exact ⟨faults', .inr ⟨fun hnever => hne (hfaults hnever), hwhat⟩⟩
  · rw [run_bind, hrun]
    exact ⟨faults, .inr ⟨hne, what, rfl⟩⟩

/-- **Peeling a read.**  After a reading program the rest runs on the same tables; if the
program fails, nothing has changed. -/
theorem ReadOnly.cases (h : ReadOnly fault x) (y : α → Program Col ε β) (disk : Disk Col) :
    (∃ a faults, value x disk.tables = .ok a ∧ (disk.faults = never → faults = never)
      ∧ (x >>= y) disk = y a ⟨disk.tables, faults⟩)
    ∨ ∃ e faults, (x >>= y) disk = .error e ⟨disk.tables, faults⟩
      ∧ (disk.faults = never → value x disk.tables = .error e ∧ faults = never) := by
  obtain ⟨faults, ⟨hrun, hfaults⟩ | ⟨hne, what, hrun⟩⟩ := h disk
  · rw [run_bind, hrun]
    rcases hvalue : value x disk.tables with e | a
    · exact .inr ⟨e, faults, rfl, fun hnever => ⟨rfl, hfaults hnever⟩⟩
    · exact .inl ⟨a, faults, rfl, hfaults, rfl⟩
  · rw [run_bind, hrun]
    exact .inr ⟨_, faults, rfl, fun hnever => absurd hnever hne⟩

variable {step : β → α → Program Col ε β}

/-- A loop of reading steps. -/
theorem ReadOnly.foldlM (h : ∀ b a, ReadOnly fault (step b a)) (l : List α) (b : β) :
    ReadOnly fault (l.foldlM step b) := by
  induction l generalizing b with
  | nil => exact readOnly_pure b
  | cons a l ih =>
    exact (h b a).bind ih

variable {disk' : Disk Col}

theorem ReadOnly.of_ok (h : ReadOnly fault x) (hrun : x disk = .ok a disk') :
    value x disk.tables = .ok a ∧ disk'.tables = disk.tables := by
  obtain ⟨faults, ⟨hvalue, _⟩ | ⟨_, what, herror⟩⟩ := h disk
  · rw [hrun] at hvalue
    rcases hresult : value x disk.tables with e | b
    · rw [hresult] at hvalue
      cases hvalue
    · rw [hresult] at hvalue
      cases hvalue
      exact ⟨rfl, rfl⟩
  · rw [hrun] at herror
    cases herror

theorem value_adapt (rename : ε → ε') (x : Program Col ε α) (tables : Tables Col) :
    value (adapt rename x) tables = (value x tables).mapError rename := by
  rw [value, value, adapt]
  cases x ⟨tables, never⟩ <;> rfl

/-- Renaming errors. -/
theorem ReadOnly.adapt (h : ReadOnly fault x) (rename : ε → ε') :
    ReadOnly (fun what => rename (fault what)) (Device.adapt rename x) := by
  intro disk
  obtain ⟨faults, ⟨hrun, hfaults⟩ | ⟨hne, what, hrun⟩⟩ := h disk
  · refine ⟨faults, .inl ⟨?_, hfaults⟩⟩
    rw [value_adapt, Device.adapt, hrun]
    cases value x disk.tables <;> rfl
  · refine ⟨faults, .inr ⟨hne, what, ?_⟩⟩
    rw [Device.adapt, hrun]

variable {check : α → Program Col ε PUnit}

/-- A loop of checks. -/
theorem ReadOnly.forM (h : ∀ a, ReadOnly fault (check a))
    (l : List α) : ReadOnly fault (l.forM check) := by
  induction l with
  | nil => exact readOnly_pure _
  | cons a l ih => exact (h a).bind fun _ => ih

variable {tables : Tables Col}

theorem value_forM_eq_ok (h : ∀ a, ReadOnly fault (check a)) {l : List α} {u : PUnit} :
    value (l.forM check) tables = .ok u ↔ ∀ a ∈ l, value (check a) tables = .ok ⟨⟩ := by
  induction l with
  | nil => exact ⟨fun _ _ hmem => absurd hmem not_mem_nil, fun _ => rfl⟩
  | cons a l ih =>
    rw [show (a :: l).forM check = check a >>= fun _ => l.forM check from rfl,
      value_bind (h a), check_bind_eq_ok, ih, forall_mem_cons]

theorem value_foldlM (h : ∀ b a, ReadOnly fault (step b a)) (l : List α) (b : β)
    (tables : Tables Col) : value (l.foldlM step b) tables
      = l.foldlM (fun b a => value (step b a) tables) b := by
  induction l generalizing b with
  | nil => rfl
  | cons a l ih =>
    rw [foldlM_cons, value_bind (h b a)]
    exact bind_congr fun b => ih b

/-! ### What a program does to the tables -/

def after (x : Program Col ε α) (disk : Disk Col) : Disk Col :=
  match x disk with
  | .ok _ disk => disk
  | .error _ disk => disk

/-- From these tables the program moves along `R`, whatever fails. -/
def MovesFrom (R : Tables Col → Tables Col → Prop) (tables : Tables Col)
    (x : Program Col ε α) : Prop :=
  ∀ faults, R tables (after x ⟨tables, faults⟩).tables

/-- From all tables the program moves along `R`. -/
def Moves (R : Tables Col → Tables Col → Prop) (x : Program Col ε α) : Prop :=
  ∀ tables, MovesFrom R tables x

/-- What a program returns on a disk. -/
def returned (x : Program Col ε α) (disk : Disk Col) : Except ε α :=
  match x disk with
  | .ok a _ => .ok a
  | .error e _ => .error e

theorem run_of_returned (h : returned x disk = .ok a) : x disk = .ok a (after x disk) := by
  rw [returned] at h
  rw [after]
  rcases hrun : x disk with ⟨b, disk'⟩ | ⟨e, disk'⟩
  · rw [hrun] at h
    cases h
    rfl
  · rw [hrun] at h
    cases h

variable {R : Tables Col → Tables Col → Prop}

theorem after_bind (x : Program Col ε α) (y : α → Program Col ε β) (disk : Disk Col) :
    after (x >>= y) disk = match x disk with
      | .ok a disk => after (y a) disk
      | .error _ disk => disk := by
  rw [after, run_bind]
  cases x disk <;> rfl

variable {changes : List (Change Col)}

theorem tables_of_commit [DecidableEq Col] {u : Unit}
    (h : commit fault changes disk = .ok u disk') : disk'.tables = apply disk.tables changes := by
  rw [commit] at h
  rcases hfault : disk.faults 0 with _ | what
  · rw [operate_ok hfault] at h
    cases h
    rfl
  · rw [operate_error hfault] at h
    cases h

theorem movesFrom_commit [DecidableEq Col] (hstay : R tables tables)
    (hmove : R tables (apply tables changes)) : MovesFrom R tables (commit fault changes) := by
  intro faults
  rcases h : faults 0 with _ | what
  · rw [after, commit, operate_ok h]
    exact hmove
  · rw [after, commit, operate_error h]
    exact hstay

theorem movesFrom_commit_bind [DecidableEq Col] {y : Unit → Program Col ε β}
    (hstay : R tables tables)
    (hrest : MovesFrom (fun _ tables' => R tables tables') (apply tables changes) (y ())) :
    MovesFrom R tables (commit fault changes >>= y) := by
  intro faults
  rw [after_bind]
  rcases h : faults 0 with _ | what
  · rw [commit, operate_ok h]
    exact hrest _
  · rw [commit, operate_error h]
    exact hstay

theorem Moves.attempt (h : Moves R x) : Moves R (attempt x : Program Col ε' (Except ε α)) := by
  intro tables faults
  have hx := h tables faults
  rw [after] at hx
  rw [after, Device.attempt]
  rcases hrun : x ⟨tables, faults⟩ with ⟨a, disk⟩ | ⟨e, disk⟩
  · rw [hrun] at hx
    exact hx
  · rw [hrun] at hx
    exact hx

/-- Returning something else moves nothing. -/
theorem MovesFrom.map (h : MovesFrom R tables x) (f : α → β) :
    MovesFrom R tables (x >>= fun a => pure (f a)) := by
  intro faults
  have hx := h faults
  rw [after] at hx
  rw [after_bind]
  rcases hrun : x ⟨tables, faults⟩ with ⟨a, disk⟩ | ⟨e, disk⟩
  · rw [hrun] at hx
    exact hx
  · rw [hrun] at hx
    exact hx

theorem ReadOnly.movesFrom (hx : ReadOnly fault x) (hstay : R tables tables)
    (hy : ∀ a, value x tables = .ok a → MovesFrom R tables (y a)) :
    MovesFrom R tables (x >>= y) := by
  intro faults
  rcases hx.cases y ⟨tables, faults⟩ with ⟨a, faults', hvalue, _, hrun⟩ | ⟨e, faults', hrun, _⟩
  · rw [after, hrun]
    exact hy a hvalue faults'
  · rw [after, hrun]
    exact hstay

theorem ReadOnly.stays (hx : ReadOnly fault x) (hstay : R tables tables) :
    MovesFrom R tables x := by
  intro faults
  obtain ⟨faults', ⟨hrun, _⟩ | ⟨_, what, hrun⟩⟩ := hx ⟨tables, faults⟩
  · rw [after, hrun]
    rcases value x tables with e | a
    · exact hstay
    · exact hstay
  · rw [after, hrun]
    exact hstay

theorem Moves.bind (hx : Moves R x) (htrans : ∀ a b c, R a b → R b c → R a c)
    (hy : ∀ a, Moves R (y a)) : Moves R (x >>= y) := by
  intro tables faults
  have hfirst := hx tables faults
  rw [after] at hfirst
  rw [after_bind]
  rcases h : x ⟨tables, faults⟩ with ⟨a, disk⟩ | ⟨e, disk⟩
  · rw [h] at hfirst
    exact htrans _ _ _ hfirst (hy a disk.tables disk.faults)
  · rw [h] at hfirst
    exact hfirst

theorem moves_pure (hrefl : ∀ a, R a a) (a : α) : Moves R (pure a : Program Col ε α) :=
  fun tables _ => hrefl tables

theorem Moves.foldlM (hrefl : ∀ a, R a a) (htrans : ∀ a b c, R a b → R b c → R a c)
    (h : ∀ b a, Moves R (step b a)) (l : List α) (b : β) : Moves R (l.foldlM step b) := by
  induction l generalizing b with
  | nil => exact moves_pure hrefl b
  | cons a l ih =>
    exact (h b a).bind htrans ih

/-- Whatever fails and however, the tables stay. -/
def Reading (x : Program Col ε α) : Prop := Moves Eq x

theorem ReadOnly.reading (h : ReadOnly fault x) : Reading x :=
  fun _ => h.stays rfl

theorem reading_give : Reading (give result : Program Col ε α) := by
  intro tables faults
  cases result <;> rfl

theorem reading_query (act : Tables Col → α) : Reading (query fault act) :=
  (readOnly_operate act).reading

theorem Reading.bind (hx : Reading x) (hy : ∀ a, Reading (y a)) : Reading (x >>= y) :=
  Moves.bind hx (fun _ _ _ => Eq.trans) hy

theorem Reading.foldlM (h : ∀ b a, Reading (step b a)) (l : List α) (b : β) :
    Reading (l.foldlM step b) :=
  Moves.foldlM (fun _ => rfl) (fun _ _ _ => Eq.trans) h l b

theorem Reading.of_ok (h : Reading x) (hrun : x disk = .ok a disk') :
    disk'.tables = disk.tables := by
  have hstay := h disk.tables disk.faults
  rw [after, hrun] at hstay
  exact hstay.symm

theorem run_give_eq_ok {result : Except ε α} :
    (give result >>= y) disk = .ok b disk' ↔ ∃ a, result = .ok a ∧ y a disk = .ok b disk' := by
  rw [run_bind]
  cases result with
  | error e => simp [give, settle]
  | ok a => simp [give, settle]

/-! ### Runs in which nothing fails -/

/-- Where nothing fails, the program returns `a` and leaves the given tables. -/
def Runs (x : Program Col ε α) (tables : Tables Col) (a : α) (tables' : Tables Col) : Prop :=
  x ⟨tables, never⟩ = .ok a ⟨tables', never⟩

variable {tables' : Tables Col}

theorem Runs.bind {tables'' : Tables Col} (hx : Runs x tables a tables')
    (hy : Runs (y a) tables' b tables'') : Runs (x >>= y) tables b tables'' := by
  rw [Runs, run_bind, hx]
  exact hy

theorem ReadOnly.runs (hx : ReadOnly fault x) (h : value x tables = .ok a) :
    Runs x tables a tables := by
  rw [Runs, hx.quiet, h]
  rfl

theorem runs_pure (a : α) (tables : Tables Col) : Runs (pure a : Program Col ε α) tables a tables :=
  rfl

theorem runs_commit [DecidableEq Col] (changes : List (Change Col)) (tables : Tables Col) :
    Runs (commit fault changes) tables () (apply tables changes) :=
  rfl

/-- The program returns `a` and leaves the given tables, if nothing fails in it. -/
def Returns (x : Program Col ε α) (tables : Tables Col) (a : α) (tables' : Tables Col) : Prop :=
  ∃ faults, x ⟨tables, never⟩ = .ok a ⟨tables', faults⟩

theorem Runs.returns_unique {tables₁ tables₂ : Tables Col} {b : α} (h : Runs x tables a tables₁)
    (h' : Returns x tables b tables₂) : a = b ∧ tables₁ = tables₂ := by
  obtain ⟨faults, h'⟩ := h'
  rw [h] at h'
  cases h'
  exact ⟨rfl, rfl⟩

theorem ReadOnly.returns_bind (hx : ReadOnly fault x) : Returns (x >>= y) tables b tables' ↔
      ∃ a, value x tables = .ok a ∧ Returns (y a) tables b tables' := by
  rw [Returns, run_bind, hx.quiet]
  rcases value x tables with e | a
  · simp [settle]
  · simp [settle, Returns]

theorem returns_commit_bind [DecidableEq Col] {y : Unit → Program Col ε β} :
    Returns (commit fault changes >>= y) tables b tables' ↔
      Returns (y ()) (apply tables changes) b tables' :=
  Iff.rfl

/-- Where nothing fails, the program still ends with an error. -/
def Fails (x : Program Col ε α) (tables : Tables Col) (e : ε) : Prop :=
  ∃ disk, x ⟨tables, never⟩ = .error e disk

theorem ReadOnly.fails (hx : ReadOnly fault x) (h : value x tables = .error e) :
    Fails x tables e := by
  refine ⟨⟨tables, never⟩, ?_⟩
  rw [hx.quiet, h]
  rfl

theorem Fails.bind (h : Fails x tables e) (y : α → Program Col ε β) : Fails (x >>= y) tables e := by
  obtain ⟨disk, hrun⟩ := h
  refine ⟨disk, ?_⟩
  rw [run_bind, hrun]

theorem Runs.bind_fails (hx : Runs x tables a tables') (hy : Fails (y a) tables' e) :
    Fails (x >>= y) tables e := by
  obtain ⟨disk, hrun⟩ := hy
  refine ⟨disk, ?_⟩
  rw [run_bind, hx]
  exact hrun

theorem Runs.attempt (h : Runs x tables a tables') :
    Runs (attempt x : Program Col ε' (Except ε α)) tables (.ok a) tables' := by
  rw [Runs, Device.attempt, h]

theorem Fails.attempt (h : Fails x tables e) :
    ∃ disk, (attempt x : Program Col ε' (Except ε α)) ⟨tables, never⟩ = .ok (.error e) disk := by
  obtain ⟨disk, hrun⟩ := h
  refine ⟨disk, ?_⟩
  rw [Device.attempt, hrun]

end Programs

end Device
