import Arbor.Primitives

/-!
# Failures of the authenticated state

The error type of the state crate with its display texts: the execution layer keeps
only the text of a state error, so the texts are part of what it returns.
-/

namespace Arbor

def hexDigit (n : Nat) : Char :=
  if n < 10 then Char.ofNat (48 + n) else Char.ofNat (87 + n)

/-- A hash or address as it is displayed: `0x` and two digits a byte. -/
def displayHex {w : Nat} (x : BitVec w) : String :=
  "0x" ++ String.ofList ((toBytes x).flatMap fun byte =>
    [hexDigit (byte.toNat / 16), hexDigit (byte.toNat % 16)])

/-- Authenticated-state construction, proof, or node-store failure. -/
inductive StateError where
  /-- A stored node referenced by a trie edge is absent. -/
  | missingNode (hash : B256)
  /-- Stored node bytes do not match their content-addressed key. -/
  | nodeHashMismatch (expected actual : B256)
  /-- Trie RLP is malformed or non-canonical. -/
  | malformedRlp (what : String)
  /-- A compact path or trie topology violates secure-key rules. -/
  | invalidPath (what : String)
  /-- A node-store backend failed. -/
  | store (what : String)
  /-- An independently checked proof failed. -/
  | proof (what : String)
  /-- A collection exceeds the protocol resource budget. -/
  | limitExceeded (what : String)
  deriving DecidableEq

def StateError.display : StateError → String
  | .missingNode hash => "missing trie node " ++ displayHex hash
  | .nodeHashMismatch expected actual =>
    "trie node hash mismatch: expected " ++ displayHex expected ++ ", got " ++ displayHex actual
  | .malformedRlp what => "malformed trie RLP: " ++ what
  | .invalidPath what => "invalid trie path: " ++ what
  | .store what => "node store failure: " ++ what
  | .proof what => "proof verification failed: " ++ what
  | .limitExceeded what => "state limit exceeded: " ++ what

end Arbor
