import Arbor.Lib.Result

/-!
# Postconditions of programs that may fail

`Ensures x s Q` says that where the program `x`, started in the state `s`, returns, its value
and its state satisfy `Q`; of a run that fails it says nothing.  A postcondition is shown
from the front: `ensures_bind` asks for one of the first part under which the rest ensures
what is wanted, and reading or writing the state is passed by `ensures_get` and
`ensures_set_bind`.
-/

namespace Result

variable {ε σ α β : Type}

/-- A run that returns, returns a value and a state that satisfy `Q`. -/
def Ensures (x : EStateM ε σ α) (s : σ) (Q : α → σ → Prop) : Prop :=
  ∀ a s', x s = .ok a s' → Q a s'

variable {s : σ}

theorem Ensures.mono {x : EStateM ε σ α} {Q Q' : α → σ → Prop}
    (h : Ensures x s Q) (himp : ∀ a s', Q a s' → Q' a s') : Ensures x s Q' :=
  fun a s' hrun => himp a s' (h a s' hrun)

theorem ensures_pure {Q : α → σ → Prop} {a : α} (h : Q a s) :
    Ensures (pure a : EStateM ε σ α) s Q := by
  intro b s' hrun
  cases hrun
  exact h

theorem ensures_throw {Q : α → σ → Prop} (e : ε) (s : σ) :
    Ensures (throw e : EStateM ε σ α) s Q := by
  intro a s' hrun
  cases hrun

theorem ensures_modify {Q : Unit → σ → Prop} {f : σ → σ} (h : Q () (f s)) :
    Ensures (modify f : EStateM ε σ Unit) s Q := by
  intro b s' hrun
  cases hrun
  exact h

theorem ensures_set {Q : PUnit → σ → Prop} {s' : σ} (h : Q ⟨⟩ s') :
    Ensures (set s' : EStateM ε σ PUnit) s Q := by
  intro b t hrun
  cases hrun
  exact h

variable {Q : β → σ → Prop}

theorem ensures_bind {x : EStateM ε σ α} {f : α → EStateM ε σ β}
    (h : Ensures x s fun a s' => Ensures (f a) s' Q) : Ensures (x >>= f) s Q := by
  intro b s' hrun
  obtain ⟨a, mid, ha, hb⟩ := run_bind_eq_ok.mp hrun
  exact h a mid ha b s' hb

theorem ensures_get {f : σ → EStateM ε σ β} (h : Ensures (f s) s Q) : Ensures (get >>= f) s Q := h

theorem ensures_set_bind {f : PUnit → EStateM ε σ β} {s' : σ}
    (h : Ensures (f ⟨⟩) s' Q) : Ensures (set s' >>= f) s Q :=
  ensures_bind (ensures_set h)

/-- A loop keeps what its body keeps. -/
theorem ensures_forM {f : α → EStateM ε σ PUnit} {I : σ → Prop}
    (hstep : ∀ a s, I s → Ensures (f a) s fun _ s' => I s') (l : List α) (h : I s) :
    Ensures (l.forM f) s fun _ s' => I s' := by
  induction l generalizing s with
  | nil => exact ensures_pure h
  | cons a l ih => exact ensures_bind ((hstep a s h).mono fun _ s' hs' => ih hs')

end Result
