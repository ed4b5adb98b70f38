import Arbor.Network.Exchange

/-!
# Peers of another network

A peer that shows another identity loses as much score as a ban takes, from whatever score
it has: it is banned at once exactly if it had nothing to lose (`identity_mismatch_bans`).
A banned peer stays banned, and is neither asked nor answered, as long as no event of the
swarm rewards it.
-/

namespace Arbor

open Result

theorem PeerScore.disposition_eq_banned {score : PeerScore} :
    score.disposition = .banned ↔ score.value ≤ -100 := by
  have hthreshold : BAN_THRESHOLD = -100 := rfl
  rw [disposition, hthreshold]
  by_cases hban : score.value ≤ -100
  · simp [hban]
  · simp only [hban, if_false, iff_false]
    split <;> decide

namespace PeerBook

variable {book : PeerBook} {peer : PeerId}

theorem score_update (other : PeerId) (change : PeerScore → PeerScore) :
    (book.update other change).score peer
      = if other = peer then change (book.score peer) else book.score peer := by
  unfold update score
  rw [OrdMap.getElem?_insert]
  split
  · rename_i heq
    rw [heq]
    rfl
  · rfl

theorem identityMismatch_banned_iff :
    (book.identityMismatch peer).disposition peer = .banned ↔ (book.score peer).value ≤ 0 := by
  rw [disposition, PeerScore.disposition_eq_banned, identityMismatch, score_update, if_pos rfl]
  simp only [PeerScore.penalize, SCORE_LIMIT, BAN_THRESHOLD]
  omega

section

variable (h : book.disposition peer = .banned)
include h

/-- Penalties, and what happens to other peers, keep a ban. -/
theorem banned_update {other : PeerId} {change : PeerScore → PeerScore}
    (hchange : other = peer → ∃ amount : Nat, change = (·.penalize amount)) :
    (book.update other change).disposition peer = .banned := by
  rw [disposition, PeerScore.disposition_eq_banned] at h ⊢
  rw [score_update]
  split
  · rename_i heq
    obtain ⟨amount, rfl⟩ := hchange heq
    simp only [PeerScore.penalize, SCORE_LIMIT]
    omega
  · exact h

theorem banned_timeout (other : PeerId) : (book.timeout other).disposition peer = .banned :=
  banned_update h fun _ => ⟨10, rfl⟩

theorem banned_malformed (other : PeerId) : (book.malformed other).disposition peer = .banned :=
  banned_update h fun _ => ⟨25, rfl⟩

theorem banned_identityMismatch (other : PeerId) :
    (book.identityMismatch other).disposition peer = .banned :=
  banned_update h fun _ => ⟨100, rfl⟩

theorem banned_reward {other : PeerId} (hother : other ≠ peer) :
    (book.reward other).disposition peer = .banned :=
  banned_update h fun heq => absurd heq hother

end

end PeerBook

namespace NetworkService

variable {service : NetworkService} {peer other : PeerId}

theorem peerBook_sendResponse (channel : ResponseChannel) (envelope : ResponseEnvelope) :
    (service.sendResponse peer channel envelope).peerBook = service.peerBook := by
  unfold sendResponse
  split <;> rfl

section

variable (h : service.peerBook.disposition peer = .banned)
include h

theorem handleInboundRequest_banned (envelope : RequestEnvelope) (channel : ResponseChannel) :
    (∃ reason, service.handleInboundRequest peer envelope channel
        = (some (.peerRejected peer reason), service.rejectPeer peer)) ∨
      service.handleInboundRequest peer envelope channel
        = (none, service.sendResponse peer channel ⟨envelope.requestId, .rejected 429⟩) := by
  unfold handleInboundRequest
  split
  · exact .inl ⟨_, rfl⟩
  · rw [if_pos (by simp [h])]
    exact .inr rfl

/-- Events that can reward a peer: a response of it, or to it, has gone through. -/
def Rewards (peer : PeerId) : SwarmEvent → Prop
  | .direct (.response other _ _) => other = peer
  | .direct (.responseSent other) => other = peer
  | _ => False

theorem banned_handleInboundRequest (envelope : RequestEnvelope) (channel : ResponseChannel) :
    (service.handleInboundRequest other envelope channel).2.peerBook.disposition peer
      = .banned := by
  by_cases hother : other = peer
  · subst hother
    rcases handleInboundRequest_banned h envelope channel with ⟨reason, heq⟩ | heq
    · rw [heq]
      exact PeerBook.banned_identityMismatch h other
    · rw [heq, peerBook_sendResponse]
      exact h
  · have hrewarded := PeerBook.banned_reward h hother
    unfold handleInboundRequest
    split
    · exact PeerBook.banned_identityMismatch h other
    · split
      · rw [peerBook_sendResponse]
        exact h
      · split
        · rw [announced, peerBook_sendResponse]
          exact hrewarded
        · exact hrewarded

theorem banned_handleInboundResponse
    (hother : other ≠ peer) (requestId : OutboundRequestId) (envelope : ResponseEnvelope) :
    (service.handleInboundResponse other requestId envelope).2.peerBook.disposition peer
      = .banned := by
  have hrewarded := PeerBook.banned_reward h hother
  unfold handleInboundResponse
  dsimp only
  split
  · exact PeerBook.banned_malformed h other
  · split
    · exact PeerBook.banned_malformed h other
    · split
      · unfold handleHandshake
        split
        · exact PeerBook.banned_identityMismatch h other
        · exact hrewarded
      · exact hrewarded

theorem banned_receive {event : SwarmEvent} (hevent : ¬Rewards peer event) :
    (service.receive event).2.peerBook.disposition peer = .banned := by
  cases event with
  | newListenAddr | other => exact h
  | connectionEstablished other =>
    change (handleConnected _ other).peerBook.disposition peer = .banned
    unfold handleConnected
    dsimp only
    split
    · exact h
    · split
      · rename_i hrequest
        rw [(request_eq_ok hrequest).2]
        exact h
      · exact h
  | connectionClosed other numEstablished =>
    unfold receive handleSwarmEvent
    dsimp only
    split <;> exact h
  | direct event =>
    cases event with
    | request other envelope channel => exact banned_handleInboundRequest h envelope channel
    | response other requestId envelope =>
      refine @banned_handleInboundResponse { service with swarm := _ } _ _ ?_ hevent _ envelope
      exact h
    | outboundFailure other => exact PeerBook.banned_timeout h other
    | inboundFailure other => exact PeerBook.banned_timeout h other
    | responseSent other => exact PeerBook.banned_reward h hevent
  | gossip source data =>
    change (handleGossip _ source data).2.peerBook.disposition peer = .banned
    unfold handleGossip
    split
    · exact h
    · split
      · exact h
      · exact PeerBook.banned_malformed h source
  | ping other succeeded =>
    unfold receive handleSwarmEvent
    dsimp only
    split
    · exact h
    · exact PeerBook.banned_timeout h other
  | outgoingConnectionError other error => exact PeerBook.banned_timeout h other

end

/-- What a service comes to through events that do not reward a peer, and through requests
and responses of the node. -/
inductive Later (peer : PeerId) (service : NetworkService) : NetworkService → Prop
  | refl : Later peer service service
  | received {middle : NetworkService} (event : SwarmEvent) : Later peer service middle →
      ¬Rewards peer event → Later peer service (middle.receive event).2
  | requested {middle after : NetworkService} {other : PeerId} {direct : DirectRequest} {id : U64} :
      Later peer service middle → middle.request other direct = .ok (id, after) →
      Later peer service after
  | responded {middle after : NetworkService} {inbound : InboundRequest}
      {response : DirectResponse} : Later peer service middle →
      middle.respond inbound response = .ok after → Later peer service after

theorem Later.banned {after : NetworkService} (h : Later peer service after)
    (hbanned : service.peerBook.disposition peer = .banned) :
    after.peerBook.disposition peer = .banned := by
  induction h with
  | refl => exact hbanned
  | received event _ hevent ih => exact banned_receive ih hevent
  | requested _ hrequest ih =>
    rw [(request_eq_ok hrequest).2]
    exact ih
  | responded _ hrespond ih =>
    obtain ⟨_, hrespond⟩ := check_bind_eq_ok.mp hrespond
    obtain ⟨_, hrespond⟩ := check_bind_eq_ok.mp hrespond
    cases hrespond
    rw [peerBook_sendResponse]
    exact ih

/-- **Identity mismatches.**  A mismatch bans a peer exactly if its score is not positive.
Such a peer, once rejected, is asked nothing and answered only with code 429, and none of its
requests reaches the node, until an event rewards it. -/
theorem identity_mismatch_bans (peer : PeerId) :
    (∀ book : PeerBook, (book.identityMismatch peer).disposition peer = .banned ↔
      (book.score peer).value ≤ 0) ∧
    ∀ service after : NetworkService, (service.peerBook.score peer).value ≤ 0 →
      Later peer (service.rejectPeer peer) after →
      after.peerBook.disposition peer = .banned ∧
      (∀ direct sent, after.request peer direct ≠ .ok sent) ∧
      ∀ envelope channel,
        (∀ inbound, (after.receive (.direct (.request peer envelope channel))).1
          ≠ some (.request inbound)) ∧
        ∀ answer ∈ (after.receive (.direct (.request peer envelope channel))).2.swarm.responses,
          answer ∈ after.swarm.responses ∨ answer.2.response = .rejected 429 := by
  refine ⟨fun book => PeerBook.identityMismatch_banned_iff, fun service after hscore hlater => ?_⟩
  have hbanned := hlater.banned (PeerBook.identityMismatch_banned_iff.mpr hscore)
  refine ⟨hbanned, ?_, fun envelope channel => ?_⟩
  · intro direct sent h
    obtain ⟨_, h⟩ := check_bind_eq_ok.mp h
    obtain ⟨_, h⟩ := check_bind_eq_ok.mp h
    obtain ⟨hpolicy, _⟩ := check_bind_eq_ok.mp h
    rw [rejectIf_eq_ok, not_not, hbanned] at hpolicy
    cases hpolicy
  · change (∀ inbound, (handleInboundRequest after peer envelope channel).1 ≠ _) ∧
      ∀ answer ∈ (handleInboundRequest after peer envelope channel).2.swarm.responses, _
    rcases handleInboundRequest_banned hbanned envelope channel with ⟨reason, heq⟩ | heq
    · rw [heq]
      exact ⟨by simp, fun answer hmem => .inl hmem⟩
    · rw [heq]
      refine ⟨by simp, fun answer hmem => ?_⟩
      unfold sendResponse at hmem
      split at hmem
      · rcases List.mem_append.mp hmem with hold | hnew
        · exact .inl hold
        · rw [List.mem_singleton.mp hnew]
          exact .inr rfl
      · exact .inl hmem

section Sample

def stranger : PeerId := [7]

def ownHandshake : Handshake := ⟨1, 1, 1, 1, 1, .full, [], 1⟩

def greeted (handshake : Handshake) : SwarmEvent :=
  .direct (.request stranger ⟨1, handshake, .handshake⟩ ⟨true⟩)

/-- A peer that was greeted five times, missed one of the answers, and then shows another
network: four answers to it are still to be sent. -/
def mismatched : NetworkService :=
  (List.replicate 5 (greeted ownHandshake) ++
    [.direct (.inboundFailure stranger), greeted { ownHandshake with networkId := 2 }]).foldl
      (fun service event => (service.receive event).2) (new ownHandshake)

/-- After one good exchange a mismatch does not ban; and a ban ends when an answer from before
the mismatch has been sent. -/
theorem mismatch_throttles : (((({} : PeerBook).reward stranger).identityMismatch stranger
      ).disposition stranger = .throttled) ∧ mismatched.peerBook.disposition stranger = .banned ∧
    (mismatched.receive (.direct (.responseSent stranger))).2.peerBook.disposition stranger
      = .throttled := by decide +kernel

/-- A rejected peer that connects again and greets is answered with code 429 and stays banned. -/
theorem identity_mismatch_bans_again : ∃ after,
    Later stranger ((new ownHandshake).rejectPeer stranger) after ∧
      after.swarm.responses.map (·.2.response) = [.rejected 429] ∧
      after.peerBook.disposition stranger = .banned ∧
      ∀ direct sent, after.request stranger direct ≠ .ok sent := by
  have hlater : Later stranger ((new ownHandshake).rejectPeer stranger) _ :=
    .received (greeted ownHandshake)
      (.received (.connectionEstablished stranger) .refl (by simp [Rewards]))
        (by simp [greeted, Rewards])
  obtain ⟨hbanned, hasked, _⟩ :=
    (identity_mismatch_bans stranger).2 (new ownHandshake) _ (by decide) hlater
  exact ⟨_, hlater, by decide +kernel, hbanned, hasked⟩

end Sample

end NetworkService

end Arbor
