import Arbor.Lib.BigEndian
import Arbor.Lib.Result

/-!
# Readers of byte strings

A reader takes a value off the front of a byte string and leaves the rest, or fails.
`Reads r bytes a` says that `r` reads exactly `bytes` as the value `a`, whatever
follows.  Reading is compositional: what two readers read, their sequence reads off
the concatenation (`Reads.bind`), and repeating a reader reads a concatenation of
encodings (`Reads.times`).

`Consumes r Q` is the converse: whenever `r` accepts an input, the bytes it took and the
value it made of them satisfy `Q`.  Its rules follow the reader from the front, so a
reader that accepts nothing but encodings is shown to do so field by field.
-/

open Result List

abbrev Reader (ε α : Type) := StateT Bytes (Except ε) α

namespace Reader

variable {ε α β : Type}

variable {x input rest : Bytes} {a : α} {b : β} {c : Prop} {e : ε} {Q : Bytes → α → Prop}

/-- The first `n` bytes; `eof` when there are fewer. -/
def take (eof : ε) (n : Nat) : Reader ε Bytes := fun input =>
  if n ≤ input.length then .ok (input.take n, input.drop n) else .error eof

def word (eof : ε) (w : Nat) : Reader ε (BitVec w) := do
  return ofBytes w (← take eof (w / 8))

def failIf (c : Prop) [Decidable c] (e : ε) : Reader ε Unit :=
  StateT.lift (Result.rejectIf c e)

/-- A reader run `n` times. -/
def times (r : Reader ε α) : Nat → Reader ε (List α)
  | 0 => pure []
  | n + 1 => do
    let a ← r
    let as ← times r n
    return a :: as

/-- `r` reads `bytes` as `a`, whatever follows. -/
def Reads (r : Reader ε α) (bytes : Bytes) (a : α) : Prop :=
  ∀ rest, r.run (bytes ++ rest) = .ok (a, rest)

theorem run_take {bytes : Bytes} {n : Nat} (hlen : bytes.length = n) (eof : ε) (rest : Bytes) :
    (take eof n).run (bytes ++ rest) = .ok (bytes, rest) := by
  subst hlen
  simp [take, StateT.run]

theorem reads_take {bytes : Bytes} {n : Nat} (hlen : bytes.length = n) (eof : ε) :
    Reads (take eof n) bytes bytes :=
  run_take hlen eof

theorem reads_pure (a : α) : Reads (pure a : Reader ε α) [] a := fun _ => rfl

variable {r : Reader ε α} {f : α → Reader ε β}

/-- What a sequence reads. -/
theorem Reads.bind {y : Bytes} (hr : Reads r x a) (hf : Reads (f a) y b) :
    Reads (r >>= f) (x ++ y) b := by
  intro rest
  rw [StateT.run_bind, append_assoc, hr, ok_bind, hf]

theorem Reads.after {y : Bytes} (hr : Reads r [] a) (hf : Reads (f a) y b) : Reads (r >>= f) y b :=
  hr.bind hf

theorem Reads.finally (hr : Reads r x a) (hf : Reads (f a) [] b) : Reads (r >>= f) x b := by
  have h := hr.bind hf
  rwa [append_nil] at h

theorem Reads.map (hr : Reads r x a) (f : α → β) : Reads (f <$> r) x (f a) := by
  intro rest
  rw [StateT.run_map, hr]
  rfl

theorem reads_word {w : Nat} (hw : 8 ∣ w) (eof : ε) (x : BitVec w) :
    Reads (word eof w) (toBytes x) x := by
  have h := (reads_take (length_toBytes x) eof).map (ofBytes w)
  rw [ofBytes_toBytes hw] at h
  exact h

theorem reads_lift {x : Except ε α} (hx : x = .ok a) : Reads (StateT.lift x : Reader ε α) [] a := by
  intro rest
  simp [StateT.run, StateT.lift, hx]

theorem reads_failIf [Decidable c] (hc : ¬c) : Reads (failIf c e) [] () :=
  reads_lift (rejectIf_neg hc)

/-- Repeating a reader reads a concatenation of encodings. -/
theorem Reads.times {r : Reader ε α} {encode : α → Bytes} :
    ∀ as : List α, (∀ a ∈ as, Reads r (encode a) a) →
      Reads (times r as.length) (as.flatMap encode) as := by
  intro as
  induction as with
  | nil => intro _; exact reads_pure []
  | cons a as ih =>
    intro hread
    have hhead := hread a (by simp)
    have htail := ih fun b hb => hread b (by simp [hb])
    exact hhead.bind (htail.map (a :: ·))

theorem Reads.times_mapAll {ε' : Type} {encode : α → Except ε' Bytes} :
    ∀ {as : List α} {parts : List Bytes},
      (∀ a ∈ as, ∀ bytes, encode a = .ok bytes → Reads r bytes a) →
      mapAll encode as = .ok parts → Reads (Reader.times r as.length) parts.flatten as := by
  intro as
  induction as with
  | nil =>
    intro parts _ hparts
    cases hparts
    exact reads_pure []
  | cons a as ih =>
    intro parts hread hparts
    obtain ⟨bytes, hbytes, hparts⟩ := bind_eq_ok.mp hparts
    obtain ⟨rest, hrest, hparts⟩ := bind_eq_ok.mp hparts
    cases hparts
    have hhead := hread a mem_cons_self bytes hbytes
    have htail := ih (fun b hb => hread b (mem_cons_of_mem _ hb)) hrest
    exact hhead.bind (htail.map (a :: ·))

/-! ## What a reader accepts -/

/-- Whenever `r` accepts an input, `Q` relates the bytes it took to the value it returns. -/
def Consumes (r : Reader ε α) (Q : Bytes → α → Prop) : Prop :=
  ∀ ⦃input a rest⦄, r.run input = .ok (a, rest) → ∃ bytes, input = bytes ++ rest ∧ Q bytes a

theorem Consumes.mono {P : Bytes → α → Prop} (hr : Consumes r P)
    (h : ∀ bytes a, P bytes a → Q bytes a) : Consumes r Q := by
  intro input a rest hrun
  obtain ⟨bytes, hinput, hP⟩ := hr hrun
  exact ⟨bytes, hinput, h bytes a hP⟩

theorem consumes_pure (h : Q [] a) : Consumes (pure a : Reader ε α) Q := by
  intro input b rest hrun
  cases hrun
  exact ⟨[], rfl, h⟩

theorem consumes_throw : Consumes (throw e : Reader ε α) Q := by
  intro input a rest hrun
  cases hrun

theorem Consumes.bind {Q : Bytes → β → Prop}
    (h : Consumes r fun x a => Consumes (f a) fun y b => Q (x ++ y) b) : Consumes (r >>= f) Q := by
  intro input b rest hrun
  obtain ⟨⟨a, middle⟩, hfirst, hsecond⟩ := bind_eq_ok.mp hrun
  obtain ⟨x, rfl, hf⟩ := h hfirst
  obtain ⟨y, rfl, hQ⟩ := hf hsecond
  exact ⟨x ++ y, by rw [append_assoc], hQ⟩

theorem consumes_take (eof : ε) (n : Nat) :
    Consumes (take eof n) fun bytes value => bytes = value ∧ bytes.length = n := by
  intro input value rest hrun
  change (if n ≤ input.length then _ else _) = _ at hrun
  split at hrun
  · rename_i hle
    cases hrun
    exact ⟨input.take n, (take_append_drop n input).symm, rfl, length_take_of_le hle⟩
  · cases hrun

theorem consumes_word {w : Nat} (hw : 8 ∣ w) (eof : ε) :
    Consumes (word eof w) fun bytes x => bytes = toBytes x := by
  refine ((consumes_take eof (w / 8)).mono ?_).bind
  rintro bytes _ ⟨rfl, hlen⟩
  refine consumes_pure ?_
  rw [append_nil, toBytes_ofBytes (by omega)]

theorem consumes_lift {x : Except ε α} (h : ∀ a, x = .ok a → Q [] a) :
    Consumes (StateT.lift x : Reader ε α) Q := by
  intro input a rest hrun
  obtain ⟨b, hx, hpair⟩ := bind_eq_ok.mp hrun
  cases hpair
  exact ⟨[], rfl, h a hx⟩

theorem consumes_failIf [Decidable c] {Q : Bytes → Unit → Prop} (h : ¬c → Q [] ()) :
    Consumes (failIf c e) Q :=
  consumes_lift fun _ hok => h (rejectIf_eq_ok.mp hok)

/-! A reader that looks ahead is inverted at its run. -/

theorem bind_accepts (h : (r >>= f).run input = .ok (b, rest)) :
    ∃ a middle, r.run input = .ok (a, middle) ∧ (f a).run middle = .ok (b, rest) := by
  obtain ⟨⟨a, middle⟩, hfirst, hsecond⟩ := bind_eq_ok.mp h
  exact ⟨a, middle, hfirst, hsecond⟩

theorem pure_accepts {b : α} (h : (pure a : Reader ε α).run input = .ok (b, rest)) :
    b = a ∧ rest = input := by
  cases h
  exact ⟨rfl, rfl⟩

theorem failIf_accepts [Decidable c] {u : Unit} (h : (failIf c e).run input = .ok (u, rest)) :
    ¬c ∧ rest = input := by
  obtain ⟨_, hcheck, hpair⟩ := bind_eq_ok.mp h
  cases hpair
  exact ⟨rejectIf_eq_ok.mp hcheck, rfl⟩

theorem Consumes.times {r : Reader ε α} {encode : α → Bytes} {P : α → Prop}
    (h : Consumes r fun bytes a => bytes = encode a ∧ P a) : ∀ n,
      Consumes (times r n) fun bytes as =>
        bytes = as.flatMap encode ∧ as.length = n ∧ ∀ a ∈ as, P a
  | 0 => consumes_pure ⟨rfl, rfl, fun _ hmem => absurd hmem not_mem_nil⟩
  | n + 1 => by
    refine (h.mono ?_).bind
    rintro _ a ⟨rfl, ha⟩
    refine ((Consumes.times h n).mono ?_).bind
    rintro _ as ⟨rfl, hlen, hall⟩
    refine consumes_pure ⟨by rw [append_nil, flatMap_cons], by rw [length_cons, hlen], ?_⟩
    exact forall_mem_cons.mpr ⟨ha, hall⟩

theorem Consumes.times_mapAll {ε' : Type} {encode : α → Except ε' Bytes}
    (h : Consumes r fun bytes a => encode a = .ok bytes) : ∀ n,
      Consumes (Reader.times r n) fun bytes as =>
        as.length = n ∧ ∃ parts, mapAll encode as = .ok parts ∧ bytes = parts.flatten
  | 0 => consumes_pure ⟨rfl, [], rfl, rfl⟩
  | n + 1 => by
    refine (h.mono ?_).bind
    intro bytes a hbytes
    refine ((Consumes.times_mapAll h n).mono ?_).bind
    rintro _ as ⟨rfl, parts, hparts, rfl⟩
    refine consumes_pure ⟨rfl, bytes :: parts, ?_, by rw [append_nil, flatten_cons]⟩
    rw [mapAll, hbytes, hparts]
    rfl

end Reader
