import Arbor.Network.Service

/-!
# The requests of a service

What the service does to its table of pending requests and to the requests outstanding in
the swarm: a request sent enters both under a new transport identifier, a response or a
failure takes its request out of both, and nothing else changes them (`receive_spec`).
-/

namespace Arbor

open Result

namespace NetworkService

/-- The same requests, with the same identifiers to come. -/
structure Alike (before after : NetworkService) : Prop where
  nextOutbound : after.swarm.nextOutbound = before.swarm.nextOutbound
  outstanding : after.swarm.outstanding = before.swarm.outstanding
  pending : after.pending = before.pending
  nextRequestId : after.nextRequestId = before.nextRequestId

theorem Alike.refl (service : NetworkService) : Alike service service := ⟨rfl, rfl, rfl, rfl⟩

theorem Alike.trans {first second third : NetworkService} (h : Alike first second)
    (h' : Alike second third) : Alike first third :=
  ⟨h'.1.trans h.1, h'.2.trans h.2, h'.3.trans h.3, h'.4.trans h.4⟩

/-- The requests after a swarm event, apart from those sent in reaction to it. -/
def settled (service : NetworkService) : SwarmEvent → NetworkService
  | .direct (.response _ requestId _) =>
    { service with
      swarm := { service.swarm with outstanding := service.swarm.outstanding.erase requestId }
      pending := service.pending.erase requestId }
  | .direct (.outboundFailure _ requestId _) =>
    { service with
      swarm := { service.swarm with outstanding := service.swarm.outstanding.erase requestId }
      pending := service.pending.erase requestId }
  | _ => service

variable {service : NetworkService} {peer : PeerId}

theorem request_eq_ok {request : DirectRequest} {sentId : U64} {after : NetworkService}
    (h : service.request peer request = .ok (sentId, after)) :
    sentId = service.requestId ∧ after = service.sent peer request := by
  obtain ⟨_, h⟩ := check_bind_eq_ok.mp h
  obtain ⟨_, h⟩ := check_bind_eq_ok.mp h
  obtain ⟨_, h⟩ := check_bind_eq_ok.mp h
  obtain ⟨_, h⟩ := check_bind_eq_ok.mp h
  cases h
  exact ⟨rfl, rfl⟩

theorem alike_sendResponse (channel : ResponseChannel) (envelope : ResponseEnvelope) :
    Alike service (service.sendResponse peer channel envelope) := by
  unfold sendResponse
  split <;> exact ⟨rfl, rfl, rfl, rfl⟩

theorem alike_respond {inbound : InboundRequest} {response : DirectResponse}
    {after : NetworkService}
    (h : service.respond inbound response = .ok after) : Alike service after := by
  obtain ⟨_, h⟩ := check_bind_eq_ok.mp h
  obtain ⟨_, h⟩ := check_bind_eq_ok.mp h
  cases h
  exact alike_sendResponse inbound.channel _

theorem alike_handleHandshake (remote : Handshake) :
    Alike service (service.handleHandshake peer remote).2 := by
  unfold handleHandshake
  split <;> exact ⟨rfl, rfl, rfl, rfl⟩

theorem alike_handleInboundRequest (envelope : RequestEnvelope) (channel : ResponseChannel) :
    Alike service (service.handleInboundRequest peer envelope channel).2 := by
  unfold handleInboundRequest
  split
  · exact ⟨rfl, rfl, rfl, rfl⟩
  · split
    · exact alike_sendResponse channel _
    · split
      · have hauthenticated : Alike service (service.authenticate peer envelope.handshake).2 :=
          ⟨rfl, rfl, rfl, rfl⟩
        exact hauthenticated.trans (alike_sendResponse channel _)
      · exact ⟨rfl, rfl, rfl, rfl⟩

theorem alike_handleInboundResponse (service : NetworkService) (peer : PeerId)
    (requestId : OutboundRequestId) (envelope : ResponseEnvelope) :
    Alike { service with pending := service.pending.erase requestId }
      (service.handleInboundResponse peer requestId envelope).2 := by
  unfold handleInboundResponse
  dsimp only
  split
  · exact ⟨rfl, rfl, rfl, rfl⟩
  · split
    · exact ⟨rfl, rfl, rfl, rfl⟩
    · split
      · exact alike_handleHandshake _
      · exact ⟨rfl, rfl, rfl, rfl⟩

theorem alike_handleGossip (bytes : Bytes) : Alike service (service.handleGossip peer bytes).2 := by
  unfold handleGossip
  split
  · exact Alike.refl service
  · split <;> exact ⟨rfl, rfl, rfl, rfl⟩

/-- A connection leads to a handshake request, or to none. -/
theorem handleConnected_spec (service : NetworkService) (peer : PeerId) :
    Alike service (service.handleConnected peer) ∨
      Alike (service.sent peer .handshake) (service.handleConnected peer) := by
  unfold handleConnected
  dsimp only
  split
  · exact .inl ⟨rfl, rfl, rfl, rfl⟩
  · split
    · rename_i sentId after hrequest
      obtain ⟨_, rfl⟩ := request_eq_ok hrequest
      exact .inr ⟨rfl, rfl, rfl, rfl⟩
    · exact .inl ⟨rfl, rfl, rfl, rfl⟩

/-- What an event does to the requests. -/
theorem receive_spec (service : NetworkService) (event : SwarmEvent) :
    Alike (service.settled event) (service.receive event).2 ∨
      ∃ peer, event = .connectionEstablished peer ∧
        Alike (service.sent peer .handshake) (service.receive event).2 := by
  cases event with
  | newListenAddr address => exact .inl (Alike.refl service)
  | connectionEstablished peer =>
    exact (handleConnected_spec service peer).imp id fun hsent => ⟨peer, rfl, hsent⟩
  | connectionClosed peer numEstablished =>
    refine .inl ?_
    unfold receive handleSwarmEvent
    dsimp only [Swarm.delivered]
    split <;> exact ⟨rfl, rfl, rfl, rfl⟩
  | direct event =>
    refine .inl ?_
    cases event with
    | request peer envelope channel => exact alike_handleInboundRequest envelope channel
    | response peer requestId envelope =>
      exact alike_handleInboundResponse { service with
        swarm := service.swarm.delivered (.direct (.response peer requestId envelope)) }
        peer requestId envelope
    | outboundFailure peer requestId error => exact ⟨rfl, rfl, rfl, rfl⟩
    | inboundFailure peer => exact ⟨rfl, rfl, rfl, rfl⟩
    | responseSent peer => exact ⟨rfl, rfl, rfl, rfl⟩
  | gossip source data => exact .inl (alike_handleGossip data)
  | ping peer succeeded =>
    refine .inl ?_
    unfold receive handleSwarmEvent
    dsimp only [Swarm.delivered]
    split <;> exact ⟨rfl, rfl, rfl, rfl⟩
  | outgoingConnectionError peer error => exact .inl ⟨rfl, rfl, rfl, rfl⟩
  | other => exact .inl (Alike.refl service)

theorem receive_response {requestId : OutboundRequestId} {envelope : ResponseEnvelope}
    (hpending : service.pending[requestId]? = some envelope.requestId)
    (hvalid : envelope.response.validateTransport = .ok ())
    (hanswer : ∀ remote, envelope.response ≠ .handshakeAccepted remote) :
    (service.receive (.direct (.response peer requestId envelope))).1
      = some (.response peer envelope.requestId envelope.response) := by
  change (handleInboundResponse _ peer requestId envelope).1 = _
  unfold handleInboundResponse
  rw [if_neg (not_not.mpr hpending), hvalid]
  dsimp only
  split
  · rename_i remote hremote
    exact absurd hremote (hanswer remote)
  · rfl

theorem receive_failure (requestId : OutboundRequestId) (error : String) :
    (service.receive (.direct (.outboundFailure peer requestId error))).1
      = some (.requestFailed peer service.pending[requestId]? error) := rfl

end NetworkService

end Arbor
