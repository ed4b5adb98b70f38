import Arbor.Primitives
import Arbor.Lib.OrdMap

/-!
# Peer scores

A node keeps a score of every peer.  Valid exchanges raise it, failures lower it, and both
ends are bounded; low scores throttle a peer, lower ones ban it.  The score is local policy
and never decides whether data is valid.
-/

namespace Arbor

/-- A peer identity: the bytes of its multihash. -/
abbrev PeerId := Bytes

def BAN_THRESHOLD : Int := -100
def THROTTLE_THRESHOLD : Int := -40
def SCORE_LIMIT : Int := 200

inductive PeerDisposition where
  | accepted
  | throttled
  | banned
  deriving DecidableEq

/-- A score.  It is an `i32` in the source, and far from its ends: see `SCORE_LIMIT`. -/
structure PeerScore where
  value : Int := 0
  deriving DecidableEq

namespace PeerScore

def reward (score : PeerScore) (amount : Int) : PeerScore :=
  ⟨min (score.value + amount) SCORE_LIMIT⟩

def penalize (score : PeerScore) (amount : Int) : PeerScore :=
  ⟨max (score.value - amount) (-SCORE_LIMIT)⟩

def disposition (score : PeerScore) : PeerDisposition :=
  if score.value ≤ BAN_THRESHOLD then .banned
  else if score.value ≤ THROTTLE_THRESHOLD then .throttled
  else .accepted

end PeerScore

structure PeerBook where
  scores : BTreeMap PeerId PeerScore := ∅

namespace PeerBook

def score (book : PeerBook) (peer : PeerId) : PeerScore := book.scores[peer]?.getD {}

def update (book : PeerBook) (peer : PeerId) (change : PeerScore → PeerScore) : PeerBook :=
  ⟨book.scores.insert peer (change (book.score peer))⟩

def reward (book : PeerBook) (peer : PeerId) : PeerBook := book.update peer (·.reward 2)

def timeout (book : PeerBook) (peer : PeerId) : PeerBook := book.update peer (·.penalize 10)

def malformed (book : PeerBook) (peer : PeerId) : PeerBook := book.update peer (·.penalize 25)

def identityMismatch (book : PeerBook) (peer : PeerId) : PeerBook :=
  book.update peer (·.penalize (-BAN_THRESHOLD))

def disposition (book : PeerBook) (peer : PeerId) : PeerDisposition := (book.score peer).disposition

end PeerBook

end Arbor
