import Mathlib.Algebra.GroupWithZero.Nat
import Mathlib.Data.Set.Function
import Mathlib.Data.Nat.Log

/-!
# Merkle trees over lists

The digests of a list are joined in pairs, level by level, until one is left; a last
digest without a partner is joined with a padding digest of its level.  A *path* lists
the partners met on the way up from position `k`; climbing it from a claimed digest
rebuilds the digest above `k`.

* `climb_partners`: the partners read off a list rebuild the digest above `k`;
* `climb_sound`: a path that rebuilds the digest above `k` started from the digest at `k`;
* `rise_inj`: levels that rise to the same digests are the same;
* `length_rise_clog`: the number of levels is the binary logarithm of the length.

Soundness compares an arbitrary path with the list's own levels, so it holds for paths
chosen by an adversary.  It needs the hash to be injective on the preimages hashed in the
list's levels (`risePreimages`) and along the path (`climbPreimages`) only.
-/

namespace MerkleList

variable {D P : Type*} (hash : P → D) (preimage : Nat → D → D → P) (pad : Nat → D)

variable {d k : Nat} {level : List D} {digest : D}

/-- The preimages of one level: neighbours together, a last digest with the padding. -/
def pairs (d : Nat) : List D → List P
  | left :: right :: rest => preimage d left right :: pairs d rest
  | [left] => [preimage d left (pad d)]
  | [] => []

def above (d : Nat) (level : List D) : List D :=
  (pairs preimage pad d level).map hash

/-- The level `h` levels above a level of depth `d`. -/
def rise : (h d : Nat) → List D → List D
  | 0, _, level => level
  | h + 1, d, level => rise h (d + 1) (above hash preimage pad d level)

/-- Everything hashed while rising `h` levels. -/
def risePreimages : (h d : Nat) → List D → List P
  | 0, _, _ => []
  | h + 1, d, level =>
    pairs preimage pad d level ++ risePreimages h (d + 1) (above hash preimage pad d level)

/-- The digest joined with the one at position `k`. -/
def partner (d k : Nat) (level : List D) : D :=
  if k % 2 = 0 then level[k + 1]?.getD (pad d) else level[k - 1]?.getD (pad d)

/-- The partners met on the way up from position `k`, lowest first. -/
def partners : (h d k : Nat) → List D → List D
  | 0, _, _, _ => []
  | h + 1, d, k, level =>
    partner pad d k level :: partners h (d + 1) (k / 2) (above hash preimage pad d level)

/-- What is hashed when the digest at position `k` meets a partner. -/
def joint (d k : Nat) (digest other : D) : P :=
  if k % 2 = 0 then preimage d digest other else preimage d other digest

/-- The digest a path from position `k` rebuilds. -/
def climb : (d k : Nat) → D → List D → D
  | _, _, digest, [] => digest
  | d, k, digest, other :: path =>
    climb (d + 1) (k / 2) (hash (joint preimage d k digest other)) path

/-- The preimages hashed when a path is climbed. -/
def climbPreimages : (d k : Nat) → D → List D → List P
  | _, _, _, [] => []
  | d, k, digest, other :: path =>
    joint preimage d k digest other ::
      climbPreimages (d + 1) (k / 2) (hash (joint preimage d k digest other)) path

theorem length_pairs (d : Nat) (level : List D) :
    (pairs preimage pad d level).length = (level.length + 1) / 2 := by
  induction level using pairs.induct with
  | case1 left right rest ih =>
    simp only [pairs, List.length_cons, ih]
    omega
  | case2 => simp [pairs]
  | case3 => simp [pairs]

@[simp] theorem length_above (d : Nat) (level : List D) :
    (above hash preimage pad d level).length = (level.length + 1) / 2 := by
  rw [above, List.length_map, length_pairs]

/-- The pair a position belongs to. -/
theorem getElem?_pairs (hk : level[k]? = some digest) :
    (pairs preimage pad d level)[k / 2]?
      = some (joint preimage d k digest (partner pad d k level)) := by
  -- Two positions are dropped at a time, so the parity of `k` and the partner stay.
  induction level using pairs.induct generalizing k with
  | case1 left right rest ih =>
    match k with
    | 0 =>
      cases hk
      rfl
    | 1 =>
      cases hk
      rfl
    | k + 2 =>
      have hrest := ih (k := k) (by simpa using hk)
      have hpartner : partner pad d (k + 2) (left :: right :: rest) = partner pad d k rest := by
        unfold partner
        rcases Nat.mod_two_eq_zero_or_one k with hpar | hpar
        · simp [hpar]
        · obtain ⟨j, rfl⟩ : ∃ j, k = j + 1 := ⟨k - 1, by omega⟩
          simp [show (j + 1 + 2) % 2 = 1 by omega, hpar]
      rw [show (k + 2) / 2 = k / 2 + 1 by omega, pairs, List.getElem?_cons_succ, hrest, hpartner]
      simp [joint]
  | case2 left =>
    match k with
    | 0 =>
      cases hk
      rfl
    | k + 1 => simp at hk
  | case3 => simp at hk

/-- The digest above a position. -/
theorem getElem?_above (hk : level[k]? = some digest) : (above hash preimage pad d level)[k / 2]?
      = some (hash (joint preimage d k digest (partner pad d k level))) := by
  rw [above, List.getElem?_map, getElem?_pairs preimage pad hk, Option.map_some]

@[simp] theorem length_partners (h d k : Nat) (level : List D) :
    (partners hash preimage pad h d k level).length = h := by
  induction h generalizing d k level with
  | zero => rfl
  | succ h ih => simp [partners, ih]

/-- **Completeness.**  The partners read off a list rebuild the digest above `k`. -/
theorem climb_partners {h : Nat} (hk : level[k]? = some digest) :
    (rise hash preimage pad h d level)[k / 2 ^ h]?
      = some (climb hash preimage d k digest (partners hash preimage pad h d k level)) := by
  induction h generalizing d k level digest with
  | zero => simpa [rise, partners, climb] using hk
  | succ h ih =>
    have hup := ih (d := d + 1) (getElem?_above hash preimage pad (d := d) hk)
    rw [Nat.div_div_eq_div_mul, ← Nat.pow_succ'] at hup
    exact hup

/-- **Soundness.**  A path that rebuilds the digest above `k` started from the digest at `k`. -/
theorem climb_sound (hpre : ∀ d l r l' r', preimage d l r = preimage d l' r' → l = l' ∧ r = r')
    (d : Nat) (level : List D) (digest : D) (path : List D) (hk : k < level.length)
    (hinj : Set.InjOn hash {p | p ∈ risePreimages hash preimage pad path.length d level ∨ p ∈
      climbPreimages hash preimage d k digest path})
    (hroot : (rise hash preimage pad path.length d level)[k / 2 ^ path.length]? = some (climb hash
      preimage d k digest path)) : level[k]? = some digest := by
  induction path generalizing d k level digest with
  | nil => simpa [rise, climb] using hroot
  | cons other path ih =>
    have hlevel : level[k]? = some level[k] := List.getElem?_eq_getElem hk
    have habove := getElem?_above hash preimage pad (d := d) hlevel
    -- The rest of the path starts from the joined digest, one level up.
    have hjoined : (above hash preimage pad d level)[k / 2]?
        = some (hash (joint preimage d k digest other)) := by
      refine ih (d + 1) _ _ ?_ (hinj.mono ?_) ?_
      · rw [length_above]
        omega
      · rintro p (hp | hp)
        · exact .inl (List.mem_append_right _ hp)
        · exact .inr (List.mem_cons_of_mem _ hp)
      · rw [Nat.div_div_eq_div_mul, ← Nat.pow_succ']
        exact hroot
    rw [habove] at hjoined
    have hmem : joint preimage d k level[k] (partner pad d k level) ∈ pairs preimage pad d level :=
      List.mem_of_getElem? (getElem?_pairs preimage pad hlevel)
    have hsame := hinj (.inl (List.mem_append_left _ hmem)) (.inr List.mem_cons_self)
      (Option.some.inj hjoined)
    rw [hlevel]
    unfold joint at hsame
    by_cases hpar : k % 2 = 0
    · rw [if_pos hpar, if_pos hpar] at hsame
      rw [(hpre _ _ _ _ _ hsame).1]
    · rw [if_neg hpar, if_neg hpar] at hsame
      rw [(hpre _ _ _ _ _ hsame).2]

theorem climbPreimages_subset {h : Nat} (hk : level[k]? = some digest) :
    climbPreimages hash preimage d k digest (partners hash preimage pad h d k level)
      ⊆ risePreimages hash preimage pad h d level := by
  induction h generalizing d k level digest with
  | zero => exact List.nil_subset _
  | succ h ih =>
    intro p hp
    rcases List.mem_cons.mp hp with rfl | hp
    · exact List.mem_append_left _ (List.mem_of_getElem? (getElem?_pairs preimage pad hk))
    · exact List.mem_append_right _ (ih (getElem?_above hash preimage pad hk) hp)

/-- **Binding.**  Two levels of one length that rise to the same digests are the same. -/
theorem rise_inj (hpre : ∀ d l r l' r', preimage d l r = preimage d l' r' → l = l' ∧ r = r')
    {level' : List D} {h : Nat} (hlength : level.length = level'.length)
    (hinj : Set.InjOn hash {p | p ∈ risePreimages hash preimage pad h d level ∨
      p ∈ risePreimages hash preimage pad h d level'})
    (hrise : rise hash preimage pad h d level = rise hash preimage pad h d level') :
    level = level' := by
  refine List.ext_getElem hlength fun k hk hk' => ?_
  -- The partners read off the second level are a path of the first.
  have hother : level'[k]? = some level'[k] := List.getElem?_eq_getElem hk'
  have hpath := climb_partners hash preimage pad (d := d) (h := h) hother
  have hsame := climb_sound hash preimage pad hpre d level level'[k]
    (partners hash preimage pad h d k level') hk ?_ ?_
  · rwa [List.getElem?_eq_getElem hk, Option.some.injEq] at hsame
  · rw [length_partners]
    refine hinj.mono ?_
    intro p hp
    exact hp.imp_right fun hp => climbPreimages_subset hash preimage pad hother hp
  · rw [length_partners, hrise]
    exact hpath

/-- One level up, the number of levels left is one less. -/
theorem clog_half {n : Nat} (hn : 1 < n) : Nat.clog 2 n = Nat.clog 2 ((n + 1) / 2) + 1 :=
  Nat.clog_of_two_le (by omega) hn

theorem length_rise_clog (d : Nat) (hlevel : level ≠ []) :
    (rise hash preimage pad (Nat.clog 2 level.length) d level).length = 1 := by
  generalize hh : Nat.clog 2 level.length = h
  induction h generalizing d level with
  | zero =>
    have hpos := List.length_pos_iff.mpr hlevel
    have hsmall : ¬1 < level.length := fun hlt => by
      rw [clog_half hlt] at hh
      omega
    simp only [rise]
    omega
  | succ h ih =>
    have hlt : 1 < level.length := by
      by_contra hle
      rw [Nat.clog_of_right_le_one (by omega)] at hh
      omega
    refine ih (d + 1) (fun hnil => ?_) ?_
    · have := congrArg List.length hnil
      simp only [length_above, List.length_nil] at this
      omega
    · rw [clog_half hlt] at hh
      rw [length_above]
      omega

end MerkleList
