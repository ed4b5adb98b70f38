import Mathlib.Tactic.Basic

/-!
# Computations that may fail

The `Except` monad stands for fallible code.  A computation written as a sequence of
checks and steps is taken apart from the front: `bind_eq_ok` gives the value of a
successful first step, `rejectIf_eq_ok` the condition a passed check guarantees.
-/

namespace Result

universe u

variable {ε : Type u} {α β : Type}

@[simp] theorem ok_bind (a : α) (f : α → Except ε β) : (Except.ok a >>= f) = f a := rfl

@[simp] theorem error_bind (e : ε) (f : α → Except ε β) :
    ((Except.error e : Except ε α) >>= f) = .error e := rfl

@[simp] theorem throw_eq (e : ε) : (throw e : Except ε α) = .error e := rfl

@[simp] theorem pure_eq (a : α) : (pure a : Except ε α) = .ok a := rfl

variable {f : α → Except ε β} {x : Except ε α}

/-- A sequence succeeds exactly when its steps do. -/
theorem bind_eq_ok {b : β} : (x >>= f) = .ok b ↔ ∃ a, x = .ok a ∧ f a = .ok b := by
  cases x with
  | ok a => simp
  | error e => simp

theorem check_bind_eq_ok {x : Except ε Unit} {f : Unit → Except ε β} {b : β} :
    (x >>= f) = .ok b ↔ x = .ok () ∧ f () = .ok b := by
  cases x with
  | ok a => simp
  | error e => simp

variable {e : ε}

theorem bind_eq_error : (x >>= f) = .error e ↔ x = .error e ∨ ∃ a, x = .ok a ∧ f a = .error e := by
  cases x with
  | ok a => simp
  | error e' => simp

variable {ε' : Type*}

@[simp] theorem mapError_ok (f : ε → ε') (a : α) :
    (Except.ok a : Except ε α).mapError f = .ok a := rfl

@[simp] theorem mapError_error (f : ε → ε') (e : ε) :
    (Except.error e : Except ε α).mapError f = .error (f e) := rfl

theorem mapError_eq_ok {f : ε → ε'} {a : α} : x.mapError f = .ok a ↔ x = .ok a := by
  cases x <;> simp

/-- A result that is there. -/
theorem eq_ok_of_isOk (h : x.isOk = true) (default : α) : x = .ok (x.toOption.getD default) := by
  cases x with
  | ok a => rfl
  | error e => cases h

theorem eq_error_of_isOk (h : x.isOk = false) : ∃ e, x = .error e := by
  cases x with
  | ok a => cases h
  | error e => exact ⟨e, rfl⟩

theorem toOption_eq_some {a : α} : x.toOption = some a ↔ x = .ok a := by
  cases x <;> simp [Except.toOption]

/-- The check `if c { return Err(e) }`. -/
def rejectIf (c : Prop) [Decidable c] (e : ε) : Except ε Unit :=
  if c then .error e else .ok ()

variable {c : Prop}

theorem rejectIf_neg [Decidable c] (h : ¬c) : rejectIf c e = .ok () :=
  if_neg h

@[simp] theorem rejectIf_false : rejectIf False e = .ok () := rfl

@[simp] theorem rejectIf_true : rejectIf True e = .error e := rfl

@[simp] theorem rejectIf_eq_ok [Decidable c] {u : Unit} : rejectIf c e = .ok u ↔ ¬c := by
  by_cases h : c <;> simp [rejectIf, h]

@[simp] theorem rejectIf_eq_error [Decidable c] {e' : ε} :
    rejectIf c e = .error e' ↔ c ∧ e = e' := by
  by_cases h : c <;> simp [rejectIf, h]

/-- A loop of checks: the first failure ends it. -/
def checkAll (f : α → Except ε Unit) : List α → Except ε Unit
  | [] => .ok ()
  | a :: as => do
    f a
    checkAll f as

variable {as : List α}

theorem checkAll_eq_ok {f : α → Except ε Unit} {u : Unit} :
    checkAll f as = .ok u ↔ ∀ a ∈ as, f a = .ok () := by
  induction as with
  | nil => simp [checkAll]
  | cons a as ih => simp [checkAll, check_bind_eq_ok, ih]

/-- A loop that transforms each element: the first failure ends it. -/
def mapAll (f : α → Except ε β) : List α → Except ε (List β)
  | [] => .ok []
  | a :: as => do
    let b ← f a
    let bs ← mapAll f as
    return b :: bs

theorem mapAll_congr {f' : α → Except ε β} (h : ∀ a ∈ as, f a = f' a) :
    mapAll f as = mapAll f' as := by
  induction as with
  | nil => rfl
  | cons a as ih =>
    rw [mapAll, mapAll, h a List.mem_cons_self, ih fun b hb => h b (List.mem_cons_of_mem _ hb)]

theorem mapAll_map {γ : Type*} {g : γ → α} {h : γ → β} {l : List γ}
    (hf : ∀ c ∈ l, f (g c) = .ok (h c)) : mapAll f (l.map g) = .ok (l.map h) := by
  induction l with
  | nil => rfl
  | cons c l ih =>
    have hrest := ih fun d hd => hf d (List.mem_cons_of_mem _ hd)
    rw [List.map_cons, mapAll, hf c List.mem_cons_self, hrest]
    rfl

variable {g : α → β}

theorem mapAll_of_ok {l : List α} (hf : ∀ a ∈ l, f a = .ok (g a)) : mapAll f l = .ok (l.map g) := by
  have h : mapAll f (l.map id) = .ok (l.map g) := mapAll_map hf
  rwa [List.map_id] at h

variable {bs : List β}

/-- Where every success is a known value, the loop maps. -/
theorem mapAll_eq_map (hf : ∀ a b, f a = .ok b → b = g a) (h : mapAll f as = .ok bs) :
    bs = as.map g := by
  induction as generalizing bs with
  | nil =>
    cases h
    rfl
  | cons a as ih =>
    obtain ⟨b, hb, h⟩ := bind_eq_ok.mp h
    obtain ⟨rest, hrest, h⟩ := bind_eq_ok.mp h
    cases h
    rw [List.map_cons, hf a b hb, ih hrest]

/-- Such a loop succeeds exactly if all its steps do. -/
theorem mapAll_eq_ok_iff (hf : ∀ a b, f a = .ok b → b = g a) :
    mapAll f as = .ok bs ↔ (∀ a ∈ as, f a = .ok (g a)) ∧ bs = as.map g := by
  constructor
  · intro h
    refine ⟨?_, mapAll_eq_map hf h⟩
    induction as generalizing bs with
    | nil => simp
    | cons a as ih =>
      obtain ⟨b, hb, h⟩ := bind_eq_ok.mp h
      obtain ⟨rest, hrest, h⟩ := bind_eq_ok.mp h
      rw [List.forall_mem_cons]
      exact ⟨hf a b hb ▸ hb, ih hrest⟩
  · rintro ⟨h, rfl⟩
    exact mapAll_of_ok h

/-- One result for each element, in order. -/
theorem mapAll_getElem (h : mapAll f as = .ok bs) :
    bs.length = as.length ∧ ∀ (i : Nat) (b : β), bs[i]? = some b →
      ∃ a, as[i]? = some a ∧ f a = .ok b := by
  induction as generalizing bs with
  | nil =>
    cases h
    exact ⟨rfl, by simp⟩
  | cons a as ih =>
    obtain ⟨first, hfirst, h⟩ := bind_eq_ok.mp h
    obtain ⟨rest, hrest, h⟩ := bind_eq_ok.mp h
    cases h
    obtain ⟨hlength, hitems⟩ := ih hrest
    refine ⟨by simp [hlength], ?_⟩
    intro i b hb
    cases i with
    | zero =>
      cases hb
      exact ⟨a, rfl, hfirst⟩
    | succ i => exact hitems i b hb

theorem mapAll_inverse {ε' : Type} {f' : β → Except ε' α} (hf : ∀ a b, f a = .ok b → f' b = .ok a)
    (h : mapAll f as = .ok bs) : mapAll f' bs = .ok as := by
  induction as generalizing bs with
  | nil =>
    cases h
    rfl
  | cons a as ih =>
    obtain ⟨b, hb, h⟩ := bind_eq_ok.mp h
    obtain ⟨rest, hrest, h⟩ := bind_eq_ok.mp h
    cases h
    rw [mapAll, hf a b hb, ih hrest]
    rfl

theorem mem_mapAll (h : mapAll f as = .ok bs) {b : β} (hb : b ∈ bs) : ∃ a ∈ as, f a = .ok b := by
  obtain ⟨i, hi⟩ := List.mem_iff_getElem?.mp hb
  obtain ⟨a, ha, hf⟩ := (mapAll_getElem h).2 i b hi
  exact ⟨a, List.mem_of_getElem? ha, hf⟩

/-- The results of a loop follow the order of its elements. -/
theorem mapAll_perm {as' : List α} (hperm : as.Perm as')
    (h : mapAll f as = .ok bs) : ∃ bs', mapAll f as' = .ok bs' ∧ bs.Perm bs' := by
  induction hperm generalizing bs with
  | nil => exact ⟨bs, h, .refl _⟩
  | cons a _ ih =>
    obtain ⟨b, hb, h⟩ := bind_eq_ok.mp h
    obtain ⟨rest, hrest, h⟩ := bind_eq_ok.mp h
    cases h
    obtain ⟨rest', hrest', hperm⟩ := ih hrest
    exact ⟨b :: rest', bind_eq_ok.mpr ⟨b, hb, bind_eq_ok.mpr ⟨rest', hrest', rfl⟩⟩, hperm.cons b⟩
  | swap a a' as =>
    obtain ⟨b, hb, h⟩ := bind_eq_ok.mp h
    obtain ⟨rest, hrest, h⟩ := bind_eq_ok.mp h
    obtain ⟨b', hb', hrest⟩ := bind_eq_ok.mp hrest
    obtain ⟨rest', hrest', hrest⟩ := bind_eq_ok.mp hrest
    cases hrest
    cases h
    refine ⟨b' :: b :: rest', ?_, .swap _ _ _⟩
    exact bind_eq_ok.mpr ⟨b', hb', bind_eq_ok.mpr ⟨b :: rest',
      bind_eq_ok.mpr ⟨b, hb, bind_eq_ok.mpr ⟨rest', hrest', rfl⟩⟩, rfl⟩⟩
  | trans _ _ ih ih' =>
    obtain ⟨middle, hmiddle, hfirst⟩ := ih h
    obtain ⟨bs', hbs', hsecond⟩ := ih' hmiddle
    exact ⟨bs', hbs', hfirst.trans hsecond⟩

theorem foldlM_invariant {f : β → α → Except ε β} {I : List α → β → Prop}
    (hstep : ∀ done a b b', I done b → f b a = .ok b' → I (done ++ [a]) b') {l : List α} :
    ∀ (done : List α) {b b' : β}, I done b → l.foldlM f b = .ok b' → I (done ++ l) b' := by
  induction l with
  | nil =>
    intro done b b' hI h
    cases h
    rwa [List.append_nil]
  | cons a l ih =>
    intro done b b' hI h
    rw [List.foldlM_cons, bind_eq_ok] at h
    obtain ⟨mid, hmid, hrest⟩ := h
    have hall := ih (done ++ [a]) (hstep done a b mid hI hmid) hrest
    rwa [List.append_assoc, List.singleton_append] at hall

/-! ## Computations with a state

Where such a computation fails, what it has done to the state stands. -/

section Stateful

variable {ε σ : Type}

theorem run_bind (x : EStateM ε σ α) (y : α → EStateM ε σ β) (s : σ) : (x >>= y) s = match x s with
      | .ok a s => y a s
      | .error e s => .error e s := by
  show EStateM.bind x y s = _
  rw [EStateM.bind]
  cases x s <;> rfl

theorem run_bind_eq_ok {x : EStateM ε σ α} {y : α → EStateM ε σ β} {s s' : σ} {b : β} :
    (x >>= y) s = .ok b s' ↔ ∃ a mid, x s = .ok a mid ∧ y a mid = .ok b s' := by
  rw [run_bind]
  rcases x s with ⟨a, mid⟩ | ⟨e, mid⟩
  · constructor
    · exact fun h => ⟨a, mid, rfl, h⟩
    · rintro ⟨_, _, heq, h⟩
      cases heq
      exact h
  · simp

end Stateful

/-! ## Relations between computations -/

/-- Two computations agree if they return the same wherever both return. -/
def Agree (x y : Except ε α) : Prop := ∀ a b, x = .ok a → y = .ok b → a = b

/-- The second computation returns what the first does, wherever that returns. -/
def Carries (x y : Except ε α) : Prop := ∀ a, x = .ok a → y = .ok a

/-- A relation that holds of a failure and anything, and that sequences keep. -/
structure Sequential (ρ : ∀ ⦃α : Type⦄, Except ε α → Except ε α → Prop) : Prop where
  error : ∀ {α : Type} (e : ε) (y : Except ε α), ρ (.error e) y
  refl : ∀ {α : Type} (x : Except ε α), ρ x x
  bind : ∀ {α β : Type} {x y : Except ε α} {f g : α → Except ε β}, ρ x y →
    (∀ a, ρ (f a) (g a)) → ρ (x >>= f) (y >>= g)

theorem agree_refl (x : Except ε α) : Agree x x := by
  intro a b ha hb
  rw [ha] at hb
  exact Except.ok.inj hb

variable {y : Except ε α}

theorem Agree.symm (h : Agree x y) : Agree y x := fun a b ha hb => (h b a hb ha).symm

/-- Sequences agree if their steps do. -/
theorem Agree.bind {g : α → Except ε β} (h : Agree x y) (hrest : ∀ a, Agree (f a) (g a)) :
    Agree (x >>= f) (y >>= g) := by
  intro b c hb hc
  obtain ⟨a, ha, hfa⟩ := bind_eq_ok.mp hb
  obtain ⟨a', ha', hga⟩ := bind_eq_ok.mp hc
  obtain rfl := h a a' ha ha'
  exact hrest a b c hfa hga

theorem Agree.mapError {f : ε → ε'} (h : Agree x y) : Agree (x.mapError f) (y.mapError f) := by
  intro a b ha hb
  exact h a b (mapError_eq_ok.mp ha) (mapError_eq_ok.mp hb)

theorem sequential_agree : Sequential (fun _ => Agree (ε := ε)) where
  error e y a b ha := by cases ha
  refl := agree_refl
  bind := Agree.bind

theorem sequential_carries : Sequential (fun _ => Carries (ε := ε)) where
  error e y a ha := by cases ha
  refl x a ha := ha
  bind h hrest b hb := by
    obtain ⟨a, ha, hfa⟩ := bind_eq_ok.mp hb
    exact bind_eq_ok.mpr ⟨a, h a ha, hrest a b hfa⟩

/-! ## What a computation can fail with -/

/-- Every error the computation may return is one of these. -/
def Throws (x : Except ε α) (Q : ε → Prop) : Prop := ∀ e, x = .error e → Q e

variable {Q : ε → Prop}

theorem throws_ok (a : α) : Throws (.ok a) Q := fun _ h => nomatch h

theorem throws_error (h : Q e) : Throws (.error e : Except ε α) Q := by
  intro e' he
  cases he
  exact h

theorem throws_rejectIf [Decidable c] (h : c → Q e) : Throws (rejectIf c e) Q := by
  intro e' he
  obtain ⟨hc, rfl⟩ := rejectIf_eq_error.mp he
  exact h hc

theorem Throws.bind (h : Throws x Q)
    (hrest : ∀ a, x = .ok a → Throws (f a) Q) : Throws (x >>= f) Q := by
  intro e he
  rcases bind_eq_error.mp he with hfirst | ⟨a, ha, hlater⟩
  · exact h e hfirst
  · exact hrest a ha e hlater

theorem throws_mapError {f : ε → ε'} {Q : ε' → Prop}
    (h : Throws x fun e => Q (f e)) : Throws (x.mapError f) Q := by
  cases x with
  | ok a => exact throws_ok a
  | error e => exact throws_error (h e rfl)

theorem Throws.mono {R : ε → Prop} (h : Throws x Q) (himp : ∀ e, Q e → R e) :
    Throws x R := fun e he => himp e (h e he)

end Result
