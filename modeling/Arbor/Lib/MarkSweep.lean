import Mathlib.Logic.Basic

/-!
# Archives of content-addressed snapshots

Owners keep snapshots under stamps, and each owner's newest commit is its head.  The nodes
of all snapshots share one store, so that a snapshot can be dropped only together with
nodes that no other kept snapshot lists.  An `Archive` carries the two facts this has to
maintain: what a kept snapshot lists is in the store with the bytes it listed, and heads
are kept.

* `Archive.add`: new snapshots come with their nodes;
* `Archive.sweep`: one snapshot that is not a head goes, with any nodes no other one lists.
-/

namespace MarkSweep

variable {Owner Stamp Snap Hash Node : Type}

section Kept

variable (kept : Owner → Stamp → Option Snap) (head : Owner → Option Stamp)
  (new : Owner → Option (Stamp × Snap))

/-- What is kept after the owners that commit have added their snapshots. -/
def keptWith [DecidableEq Stamp] (owner : Owner) (stamp : Stamp) : Option Snap :=
  match new owner with
  | some (height, snap) => if height = stamp then some snap else kept owner stamp
  | none => kept owner stamp

/-- The heads after the owners that commit have moved theirs. -/
def headWith (owner : Owner) : Option Stamp :=
  match new owner with
  | some (stamp, _) => some stamp
  | none => head owner

/-- What is kept without one snapshot. -/
def without [DecidableEq Owner] [DecidableEq Stamp] (owner : Owner) (stamp : Stamp)
    (owner' : Owner) (stamp' : Stamp) : Option Snap :=
  if owner' = owner ∧ stamp' = stamp then none else kept owner' stamp'

variable {kept head new} {owner owner' : Owner} {stamp stamp' : Stamp} {snap : Snap}

theorem keptWith_eq_some [DecidableEq Stamp] : keptWith kept new owner stamp = some snap ↔
    new owner = some (stamp, snap)
      ∨ (∀ height other, new owner = some (height, other) → height ≠ stamp)
        ∧ kept owner stamp = some snap := by
  rw [keptWith]
  rcases new owner with _ | ⟨height, other⟩
  · simp
  · dsimp only
    split
    · rename_i hstamp
      simp [hstamp]
    · rename_i hstamp
      simp [hstamp]

theorem without_eq_some [DecidableEq Owner] [DecidableEq Stamp] :
    without kept owner stamp owner' stamp' = some snap ↔
      ¬(owner' = owner ∧ stamp' = stamp) ∧ kept owner' stamp' = some snap := by
  rw [without]
  split
  · rename_i hsame
    simp [hsame]
  · rename_i hother
    simp [hother]

theorem headWith_kept [DecidableEq Stamp]
    (h : ∀ owner stamp, head owner = some stamp → ∃ snap, kept owner stamp = some snap)
    (hstamp : headWith head new owner = some stamp) :
    ∃ snap, keptWith kept new owner stamp = some snap := by
  rw [headWith] at hstamp
  rw [keptWith]
  rcases hnew : new owner with _ | ⟨height, snap⟩
  · rw [hnew] at hstamp
    exact h owner stamp hstamp
  · rw [hnew] at hstamp
    cases hstamp
    exact ⟨snap, if_pos rfl⟩

end Kept

/-- Snapshots kept by their owners over one store of nodes. -/
structure Archive (Owner Stamp Snap Hash Node : Type) (listed : Snap → Hash → Option Node) where
  nodes : Hash → Option Node
  kept : Owner → Stamp → Option Snap
  head : Owner → Option Stamp
  /-- What a kept snapshot lists is in the store. -/
  present : ∀ owner stamp snap, kept owner stamp = some snap →
    ∀ hash node, listed snap hash = some node → nodes hash = some node
  /-- Heads are kept. -/
  headKept : ∀ owner stamp, head owner = some stamp → ∃ snap, kept owner stamp = some snap

namespace Archive

variable {listed : Snap → Hash → Option Node}

def empty : Archive Owner Stamp Snap Hash Node listed where
  nodes _ := none
  kept _ _ := none
  head _ := none
  present _ _ _ h := by cases h
  headKept _ _ h := by cases h

variable (A : Archive Owner Stamp Snap Hash Node listed)

/-- **Adding.**  At most one new snapshot an owner, which becomes its head.  The store keeps
what it had and has what the new snapshots list. -/
def add [DecidableEq Stamp] (new : Owner → Option (Stamp × Snap)) (nodes : Hash → Option Node)
    (hold : ∀ hash node, A.nodes hash = some node → nodes hash = some node)
    (hnew : ∀ owner stamp snap, new owner = some (stamp, snap) →
      ∀ hash node, listed snap hash = some node → nodes hash = some node) :
    Archive Owner Stamp Snap Hash Node listed where
  nodes := nodes
  kept := keptWith A.kept new
  head := headWith A.head new
  present := by
    intro owner stamp snap hkept hash node hlisted
    rcases keptWith_eq_some.mp hkept with hcommit | ⟨_, hkept⟩
    · exact hnew owner stamp snap hcommit hash node hlisted
    · exact hold hash node (A.present owner stamp snap hkept hash node hlisted)
  headKept := fun _ _ => headWith_kept A.headKept

/-- **Sweeping.**  One kept snapshot that is not its owner's head goes, and with it nodes
that no other kept snapshot lists. -/
def sweep [DecidableEq Owner] [DecidableEq Stamp] (owner : Owner) (stamp : Stamp)
    (dead : Hash → Prop) [DecidablePred dead] (hhead : A.head owner ≠ some stamp)
    (hdead : ∀ hash, dead hash → ∀ owner' stamp' snap, ¬(owner' = owner ∧ stamp' = stamp) →
      A.kept owner' stamp' = some snap → listed snap hash = none) :
    Archive Owner Stamp Snap Hash Node listed where
  nodes hash := if dead hash then none else A.nodes hash
  kept := without A.kept owner stamp
  head := A.head
  present := by
    intro owner' stamp' snap hkept hash node hlisted
    obtain ⟨hother, hkept⟩ := without_eq_some.mp hkept
    have halive : ¬dead hash := fun h => by
      rw [hdead hash h owner' stamp' snap hother hkept] at hlisted
      cases hlisted
    rw [if_neg halive]
    exact A.present owner' stamp' snap hkept hash node hlisted
  headKept := by
    intro owner' stamp' hhead'
    obtain ⟨snap, hkept⟩ := A.headKept owner' stamp' hhead'
    refine ⟨snap, without_eq_some.mpr ⟨?_, hkept⟩⟩
    rintro ⟨rfl, rfl⟩
    exact hhead hhead'

/-- A later archive of the same heads that keeps nothing new. -/
structure Thinned (A B : Archive Owner Stamp Snap Hash Node listed) : Prop where
  head : B.head = A.head
  kept : ∀ owner stamp snap, B.kept owner stamp = some snap → A.kept owner stamp = some snap

theorem Thinned.refl : Thinned A A := ⟨rfl, fun _ _ _ h => h⟩

variable {A} {B C : Archive Owner Stamp Snap Hash Node listed}

theorem Thinned.trans (hab : Thinned A B) (hbc : Thinned B C) : Thinned A C :=
  ⟨hbc.head.trans hab.head, fun owner stamp snap h =>
    hab.kept owner stamp snap (hbc.kept owner stamp snap h)⟩

end Archive

end MarkSweep
