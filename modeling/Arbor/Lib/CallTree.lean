import Arbor.Lib.Result

/-!
# Journaled call trees

A frame acts on a shared state and calls other frames.  A call whose frame fails is
undone as a whole: the caller goes on from the state before the callee was entered.
Some frames are native: a function computes their effect.

`Machine.run_preserves` is the rule for invariants: what every single act keeps, a whole
tree keeps, and it holds whenever a native frame starts, in reverted frames too.
`Machine.run_relates` is the one for changes, where which calls a frame may make depends on
the frame: how single acts change the state, a whole tree does.
-/

open Result

/-- What a frame does, in order, and whether it succeeds. -/
inductive CallTree (Step Call : Type)
  | done (ok : Bool)
  | step (step : Step) (next : CallTree Step Call)
  | call (call : Call) (callee next : CallTree Step Call)

/-- Every call a tree makes, at any depth, has a property. -/
def CallTree.Calls {Step Call : Type} (p : Call → Prop) : CallTree Step Call → Prop
  | .done _ => True
  | .step _ next => next.Calls p
  | .call c callee next => p c ∧ callee.Calls p ∧ next.Calls p

theorem CallTree.calls_of_forall {Step Call : Type} {p : Call → Prop} (h : ∀ c, p c)
    (tree : CallTree Step Call) : tree.Calls p := by
  induction tree with
  | done ok => trivial
  | step a next ih => exact ih
  | call c callee next ihcallee ihnext => exact ⟨h c, ihcallee, ihnext⟩

/-- The effect of single acts on a state `σ`. -/
structure Machine (Frame Step Call σ ε : Type) where
  /-- A step of a frame; `none` when the frame halts. -/
  step : Frame → Step → σ → Option σ
  /-- What a call does to the caller before the callee is entered, which no failure of the
  callee undoes; `none` when the call is not made. -/
  charge : Frame → Call → σ → Option σ
  /-- The callee's frame and the state it starts in; `none` when it is not entered. -/
  enter : Frame → Call → σ → Option (Frame × σ)
  /-- The function of a native frame: its state and success. -/
  native : Frame → Option (σ → Except ε (σ × Bool))
  /-- What a successful return adds. -/
  leave : Frame → Call → σ → σ

namespace Machine

variable {Frame Step Call σ ε : Type}

variable {frame : Frame} {c : Call} {s : σ}

/-- How a frame ended, and the native frames that started in it with their states. -/
structure Outcome (Frame σ : Type) where
  state : σ
  ok : Bool
  natives : List (Frame × σ)

/-- The outcome of a frame that has been entered, `body` being what it does. -/
def runFrame (m : Machine Frame Step Call σ ε)
    (body : Frame → σ → Except ε (Outcome Frame σ)) (frame : Frame) (s : σ) :
    Except ε (Outcome Frame σ) :=
  match m.native frame with
  | some effect => do
    let (state, ok) ← effect s
    return ⟨state, ok, [(frame, s)]⟩
  | none => body frame s

/-- A call made in a frame, `body` being what the callee does.  A failed call leaves the
state from before it was entered. -/
def invoke (m : Machine Frame Step Call σ ε) (body : Frame → σ → Except ε (Outcome Frame σ))
    (frame : Frame) (c : Call) (s : σ) : Except ε (Outcome Frame σ) :=
  match m.charge frame c s with
  | none => .ok ⟨s, false, []⟩
  | some charged =>
    match m.enter frame c charged with
    | none => .ok ⟨charged, false, []⟩
    | some (inner, entered) => do
      let result ← m.runFrame body inner entered
      return { result with
        state := if result.ok then m.leave inner c result.state else charged }

def run (m : Machine Frame Step Call σ ε) :
    CallTree Step Call → Frame → σ → Except ε (Outcome Frame σ)
  | .done ok, _, s => .ok ⟨s, ok, []⟩
  | .step a next, frame, s =>
    match m.step frame a s with
    | none => .ok ⟨s, false, []⟩
    | some s => run m next frame s
  | .call c callee next, frame, s => do
    let result ← m.invoke (run m callee) frame c s
    let outcome ← run m next frame result.state
    return { outcome with natives := result.natives ++ outcome.natives }

/-- How a call may end: not made, not entered, or with the callee's outcome. -/
inductive Invoked (m : Machine Frame Step Call σ ε) (body : Frame → σ → Except ε (Outcome Frame σ))
    (frame : Frame) (c : Call) (s : σ) : Outcome Frame σ → Prop
  | refused : m.charge frame c s = none → Invoked m body frame c s ⟨s, false, []⟩
  | unentered {charged : σ} : m.charge frame c s = some charged →
      m.enter frame c charged = none → Invoked m body frame c s ⟨charged, false, []⟩
  | returned {charged entered : σ} {inner : Frame} {result : Outcome Frame σ} :
      m.charge frame c s = some charged → m.enter frame c charged = some (inner, entered) →
      m.runFrame body inner entered = .ok result →
      Invoked m body frame c s { result with
        state := if result.ok then m.leave inner c result.state else charged }

variable {body : Frame → σ → Except ε (Outcome Frame σ)} {outcome : Outcome Frame σ}

theorem invoke_eq_ok {m : Machine Frame Step Call σ ε} (h : m.invoke body frame c s = .ok outcome) :
    Invoked m body frame c s outcome := by
  unfold invoke at h
  cases hmade : m.charge frame c s with
  | none =>
    rw [hmade] at h
    cases h
    exact .refused hmade
  | some charged =>
    rw [hmade] at h
    cases henter : m.enter frame c charged with
    | none =>
      simp only [henter] at h
      cases h
      exact .unentered hmade henter
    | some entered =>
      simp only [henter] at h
      obtain ⟨result, hresult, hout⟩ := bind_eq_ok.mp h
      cases hout
      exact .returned hmade henter hresult

/-- What single acts keep: `Inv` of states and `Legal` of frames, the calls being `Allowed`.
A native frame has to keep the invariant only if it succeeds. -/
structure Preserves (m : Machine Frame Step Call σ ε) (Allowed : Call → Prop)
    (Legal : Frame → Prop) (Inv : σ → Prop) : Prop where
  step : ∀ {frame a s s'}, Legal frame → m.native frame = none → Inv s →
    m.step frame a s = some s' → Inv s'
  charge : ∀ {frame c s s'}, Legal frame → m.native frame = none → Inv s →
    m.charge frame c s = some s' → Inv s'
  enter : ∀ {frame c s inner s'}, Allowed c → Legal frame → m.native frame = none → Inv s →
    m.enter frame c s = some (inner, s') → Legal inner ∧ Inv s'
  native : ∀ {frame effect s s'}, Legal frame → m.native frame = some effect → Inv s →
    effect s = .ok (s', true) → Inv s'
  leave : ∀ {frame c s}, Legal frame → Inv s → Inv (m.leave frame c s)

/-- What is known of an outcome: the invariant after success, and at every native start. -/
def Sound (m : Machine Frame Step Call σ ε) (Legal : Frame → Prop) (Inv : σ → Prop)
    (outcome : Outcome Frame σ) : Prop :=
  (outcome.ok = true → Inv outcome.state) ∧
    ∀ start ∈ outcome.natives, Legal start.1 ∧ m.native start.1 ≠ none ∧ Inv start.2

variable {m : Machine Frame Step Call σ ε} {Allowed : Call → Prop} {Legal : Frame → Prop}
  {Inv : σ → Prop}

section

variable (h : Preserves m Allowed Legal Inv)
include h

theorem runFrame_sound
    (hbody : m.native frame = none → body frame s = .ok outcome → Sound m Legal Inv outcome)
    (hlegal : Legal frame) (hinv : Inv s) (hrun : m.runFrame body frame s = .ok outcome) :
    Sound m Legal Inv outcome := by
  unfold runFrame at hrun
  cases hnative : m.native frame with
  | none =>
    rw [hnative] at hrun
    exact hbody hnative hrun
  | some effect =>
    rw [hnative] at hrun
    obtain ⟨⟨state, ok⟩, heffect, hout⟩ := bind_eq_ok.mp hrun
    cases hout
    constructor
    · intro hok
      change ok = true at hok
      rw [hok] at heffect
      exact h.native hlegal hnative hinv heffect
    · intro start hstart
      rw [List.mem_singleton] at hstart
      rw [hstart]
      exact ⟨hlegal, by simp [hnative], hinv⟩

/-- **Calls keep what acts keep**, whether they succeed or fail. -/
theorem invoke_preserves
    (hbody : ∀ {inner entered result}, Legal inner → m.native inner = none → Inv entered → body
      inner entered = .ok result → Sound m Legal Inv result) (hallowed : Allowed c)
    (hlegal : Legal frame) (hnot : m.native frame = none) (hinv : Inv s)
    (hrun : m.invoke body frame c s = .ok outcome) :
    Inv outcome.state ∧ Sound m Legal Inv outcome := by
  have hnone : ∀ t : σ, Inv t → Inv t ∧ Sound m Legal Inv (⟨t, false, []⟩ : Outcome Frame σ) :=
    fun t ht => ⟨ht, fun _ => ht, fun start hstart => by cases hstart⟩
  cases invoke_eq_ok hrun with
  | refused => exact hnone s hinv
  | unentered hmade => exact hnone _ (h.charge hlegal hnot hinv hmade)
  | @returned charged entered inner result hmade henter hresult =>
    have hcharge := h.charge hlegal hnot hinv hmade
    obtain ⟨hinner, hstate⟩ := h.enter hallowed hlegal hnot hcharge henter
    have hsound : Sound m Legal Inv result :=
      runFrame_sound h (fun hnative hran => hbody hinner hnative hstate hran)
        hinner hstate hresult
    have hafter : Inv (if result.ok then m.leave inner c result.state else charged) := by
      split
      · rename_i hok
        exact h.leave hinner (hsound.1 hok)
      · exact hcharge
    exact ⟨hafter, fun _ => hafter, hsound.2⟩

/-- **Trees keep what acts keep.** -/
theorem run_preserves (tree : CallTree Step Call) :
    ∀ {frame : Frame} {s : σ} {outcome : Outcome Frame σ}, tree.Calls Allowed → Legal frame →
      m.native frame = none → Inv s → m.run tree frame s = .ok outcome →
      Inv outcome.state ∧ Sound m Legal Inv outcome := by
  induction tree with
  | done ok =>
    intro frame s outcome hcalls hlegal hnot hinv hrun
    cases hrun
    exact ⟨hinv, fun _ => hinv, fun start hstart => by cases hstart⟩
  | step a next ih =>
    intro frame s outcome hcalls hlegal hnot hinv hrun
    unfold run at hrun
    cases hstep : m.step frame a s with
    | none =>
      rw [hstep] at hrun
      cases hrun
      exact ⟨hinv, fun _ => hinv, fun start hstart => by cases hstart⟩
    | some s' =>
      rw [hstep] at hrun
      exact ih hcalls hlegal hnot (h.step hlegal hnot hinv hstep) hrun
  | call c callee next ihcallee ihnext =>
    intro frame s outcome hcalls hlegal hnot hinv hrun
    obtain ⟨result, hresult, hrun⟩ := bind_eq_ok.mp hrun
    obtain ⟨rest, hrest, hout⟩ := bind_eq_ok.mp hrun
    obtain ⟨hafter, hsound⟩ := invoke_preserves h
      (fun hinner hnative hentered hbody => (ihcallee hcalls.2.1 hinner hnative hentered hbody).2)
      hcalls.1 hlegal hnot hinv hresult
    obtain ⟨hend, hstarts⟩ := ihnext hcalls.2.2 hlegal hnot hafter hrest
    cases hout
    refine ⟨hend, hstarts.1, ?_⟩
    intro start hstart
    rcases List.mem_append.mp hstart with hfirst | hsecond
    · exact hsound.2 start hfirst
    · exact hstarts.2 start hsecond

theorem invoke_run_preserves {tree : CallTree Step Call}
    (hcalls : tree.Calls Allowed) (hallowed : Allowed c) (hlegal : Legal frame)
    (hnot : m.native frame = none) (hinv : Inv s)
    (hrun : m.invoke (m.run tree) frame c s = .ok outcome) :
    Inv outcome.state ∧ Sound m Legal Inv outcome :=
  invoke_preserves h
    (fun hinner hnative hentered hbody =>
      (run_preserves h tree hcalls hinner hnative hentered hbody).2)
    hallowed hlegal hnot hinv hrun

end

/-! ## What a tree changes -/

/-- Every call a tree makes when run in a frame has a property, the frames of calls being
given by `inner`. -/
def CallsFrom (inner : Frame → Call → Frame) (p : Frame → Call → Prop) :
    CallTree Step Call → Frame → Prop
  | .done _, _ => True
  | .step _ next, frame => CallsFrom inner p next frame
  | .call c callee next, frame =>
    p frame c ∧ CallsFrom inner p callee (inner frame c) ∧ CallsFrom inner p next frame

/-- A change that every single act makes, if frames make only calls they are `Allowed`. -/
structure Relates (m : Machine Frame Step Call σ ε) (inner : Frame → Call → Frame)
    (Allowed : Frame → Call → Prop) (R : σ → σ → Prop) : Prop where
  refl : ∀ s, R s s
  trans : ∀ {s t u}, R s t → R t u → R s u
  step : ∀ {frame a s s'}, m.step frame a s = some s' → R s s'
  charge : ∀ {frame c s s'}, Allowed frame c → m.charge frame c s = some s' → R s s'
  enter : ∀ {frame c s entered s'}, Allowed frame c → m.enter frame c s = some (entered, s') →
    entered = inner frame c ∧ R s s'
  native : ∀ {frame effect s s'}, m.native frame = some effect → effect s = .ok (s', true) → R s s'
  leave : ∀ {frame c s}, Allowed frame c → R s (m.leave (inner frame c) c s)

section Relates

variable {inner : Frame → Call → Frame} {Within : Frame → Call → Prop} {R : σ → σ → Prop}

theorem runFrame_relates (h : Relates m inner Within R)
    {body : Frame → σ → Except ε (Outcome Frame σ)} {frame : Frame} {s : σ}
    {outcome : Outcome Frame σ} (hbody : ∀ {result}, body frame s = .ok result → R s result.state)
    (hrun : m.runFrame body frame s = .ok outcome) (hok : outcome.ok = true) :
    R s outcome.state := by
  unfold runFrame at hrun
  cases hnative : m.native frame with
  | none =>
    rw [hnative] at hrun
    exact hbody hrun
  | some effect =>
    rw [hnative] at hrun
    obtain ⟨⟨state, ok⟩, heffect, hout⟩ := bind_eq_ok.mp hrun
    cases hout
    change ok = true at hok
    rw [hok] at heffect
    exact h.native hnative heffect

/-- **Trees change what acts change.** -/
theorem run_relates (h : Relates m inner Within R) (tree : CallTree Step Call) :
    ∀ {frame : Frame} {s : σ} {outcome : Outcome Frame σ}, CallsFrom inner Within tree frame →
      m.run tree frame s = .ok outcome → R s outcome.state := by
  induction tree with
  | done ok =>
    intro frame s outcome _ hrun
    cases hrun
    exact h.refl s
  | step a next ih =>
    intro frame s outcome hcalls hrun
    unfold run at hrun
    cases hstep : m.step frame a s with
    | none =>
      rw [hstep] at hrun
      cases hrun
      exact h.refl s
    | some s' =>
      rw [hstep] at hrun
      exact h.trans (h.step hstep) (ih hcalls hrun)
  | call c callee next ihcallee ihnext =>
    intro frame s outcome hcalls hrun
    obtain ⟨hallowed, hcallee, hnext⟩ := hcalls
    obtain ⟨result, hresult, hrun⟩ := bind_eq_ok.mp hrun
    obtain ⟨rest, hrest, hout⟩ := bind_eq_ok.mp hrun
    have hafter := ihnext hnext hrest
    cases hout
    refine h.trans ?_ hafter
    cases invoke_eq_ok hresult with
    | refused => exact h.refl s
    | unentered hmade => exact h.charge hallowed hmade
    | @returned charged entered inner' result hmade henter hran =>
      obtain ⟨rfl, hentered⟩ := h.enter hallowed henter
      have hcharged := h.charge hallowed hmade
      split
      · rename_i hok
        have hbody := runFrame_relates h (fun hinner => ihcallee hcallee hinner) hran hok
        exact h.trans (h.trans (h.trans hcharged hentered) hbody) (h.leave hallowed)
      · exact hcharged

end Relates

end Machine
