import Arbor.Lib.Result

/-!
# Computations that may panic

Fallible code that also indexes slices and adds machine integers has a third outcome
besides a value and an error: a panic.  Such code is written in `ExceptT ε Option`, with
`panicUnless` in front of every operation that panics or overflows where its condition
fails.  It is safe if it agrees with the same code in `Except` (`Agrees`), and that is
shown step by step.
-/

namespace Panic

open Result

variable {ε α β : Type}

/-- An operation that panics unless `c`. -/
def panicUnless (c : Prop) [Decidable c] : ExceptT ε Option Unit :=
  ExceptT.mk (if c then some (.ok ()) else none)

/-- A step that fails at most with an error. -/
def step (x : Except ε α) : ExceptT ε Option α := ExceptT.mk (some x)

/-- The run does not panic and ends as `x`. -/
def Agrees (m : ExceptT ε Option α) (x : Except ε α) : Prop := m.run = some x

theorem Agrees.pure (a : α) : Agrees (Pure.pure a : ExceptT ε Option α) (Pure.pure a) := rfl

variable {g : α → Except ε β}

theorem Agrees.bind {m : ExceptT ε Option α} {x : Except ε α} {f : α → ExceptT ε Option β}
    (hm : Agrees m x) (hf : ∀ a, x = .ok a → Agrees (f a) (g a)) : Agrees (m >>= f) (x >>= g) := by
  have hrun : (m >>= f).run = m.run >>= ExceptT.bindCont f := rfl
  rw [Agrees, hrun, hm]
  cases x with
  | error e => rfl
  | ok a => exact hf a rfl

theorem Agrees.step {x : Except ε α} {f : α → ExceptT ε Option β}
    (hf : ∀ a, x = .ok a → Agrees (f a) (g a)) : Agrees (Panic.step x >>= f) (x >>= g) :=
  Agrees.bind rfl hf

variable {f : Unit → ExceptT ε Option β}

theorem Agrees.guard {c : Prop} [Decidable c] {y : Except ε β}
    (hc : c) (hf : Agrees (f ()) y) : Agrees (panicUnless c >>= f) y := by
  have hpass : Agrees (panicUnless c : ExceptT ε Option Unit) (.ok ()) := by
    rw [panicUnless, if_pos hc]
    rfl
  exact Agrees.bind hpass fun _ _ => hf

/-- A check that always passes. -/
theorem Agrees.passed {c : Prop} [Decidable c] {e : ε}
    {y : Except ε β} (hc : ¬c) (hf : Agrees (f ()) y) :
    Agrees (Panic.step (rejectIf c e) >>= f) y := by
  rw [rejectIf_neg hc]
  exact hf

/-- The first of two checks that fail alike. -/
theorem Agrees.either {a b : Prop} [Decidable a] [Decidable b] {e : ε} {g : Unit → Except ε β}
    (hf : ¬a → Agrees (f ()) (rejectIf b e >>= g)) :
    Agrees (Panic.step (rejectIf a e) >>= f) (rejectIf (a ∨ b) e >>= g) := by
  by_cases ha : a
  · rw [rejectIf, rejectIf, if_pos ha, if_pos (Or.inl ha)]
    rfl
  · have hsame : rejectIf (a ∨ b) e = rejectIf b e := by
      simp only [rejectIf, ha, false_or]
    rw [hsame]
    exact Agrees.passed ha (hf ha)

end Panic
