import Arbor.Consensus.Durability
import Arbor.Node.Steps

/-!
# Requests the node waits for

Every action of the node should belong to a request that is still outstanding: then a node
that waits for no response has no action left, and starts a new synchronization at the next
tick or announcement.

The service takes a request out of its table as soon as its response arrives, but it hands
the response on, and the node drops the action, only if the response carries the identifier
of its request, is within the limits and is not a handshake.  In runs in which every answer
to a request with an action does so, actions are tracked (`actions_outstanding`); one answer
under another identifier leaves an action behind for good (`mislabelled_status`).
-/

namespace Arbor

open Result Device Std

namespace Node

variable {lost : Option U64} {node : Node}

/-! ## Runs -/

section Runs

variable [Keccak] [Secp256k1] [Revm] [OrderedTrie]

/-- A node as it enters its loop: an engine opened on some database, nothing sent yet, and the
snapshot of the engine's height in the cache. -/
def Started (config : NodeConfig) (node : Node) : Prop :=
  ∃ policy genesis poolConfig retention disk disk' engine,
    SingleValidatorEngine.openWithHistory .devValidator policy genesis poolConfig retention disk
      = .ok engine disk' ∧
    cacheSnapshot config.identity.genesisHash (fresh (handshakeOf config) engine) = .ok () node

/-- The transport may deliver a swarm event; all else may happen at any time. -/
def Possible (node : Node) : LoopEvent → Prop
  | .swarm event => node.network.swarm.Delivers event
  | _ => True

/-- The states of a running node, in runs whose steps are all allowed. -/
inductive NodeRun (config : NodeConfig) (Allowed : Node → LoopEvent → Prop) : Node → Prop
  | start {node : Node} : Started config node → NodeRun config Allowed node
  | step {node node' : Node} {event : LoopEvent} : NodeRun config Allowed node →
      node.Possible event → Allowed node event → react config event node = .ok () node' →
      NodeRun config Allowed node'

/-- A node starts with empty tables. -/
theorem Started.alike {config : NodeConfig} {node : Node} (h : Started config node) :
    ∃ engine, Alike (fresh (handshakeOf config) engine) node := by
  obtain ⟨_, _, _, _, _, _, engine, _, hcached⟩ := h
  exact ⟨engine, alike_cacheSnapshot _ _ _ hcached⟩

theorem NodeRun.invariant {config : NodeConfig} {Allowed : Node → LoopEvent → Prop}
    {I : Node → Prop} (hfresh : ∀ engine, I (fresh (handshakeOf config) engine))
    (halike : ∀ before after, I before → Alike before after → I after)
    (hstep : ∀ node event, I node → node.Possible event → Allowed node event →
      Ensures (react config event) node fun _ after => I after)
    {node : Node} (h : NodeRun config Allowed node) : I node := by
  induction h with
  | start hstarted =>
    obtain ⟨engine, hengine⟩ := hstarted.alike
    exact halike _ _ (hfresh engine) hengine
  | step _ hpossible hallowed hreact ih => exact hstep _ _ ih hpossible hallowed _ _ hreact

end Runs

/-! ## Tracked actions -/

/-- Every action but one belongs to a pending request, and requests to come are new. -/
structure TrackedBut (lost : Option U64) (node : Node) : Prop where
  fresh : ∀ outbound ∈ node.network.pending, outbound < node.network.swarm.nextOutbound
  tracked : ∀ (id : U64), id ∈ node.actions → lost ≠ some id →
    ∃ outbound : OutboundRequestId, node.network.pending[outbound]? = some id

abbrev Tracked : Node → Prop := TrackedBut none

theorem TrackedBut.of_alike {before after : Node} (h : TrackedBut lost before)
    (halike : Alike before after) : TrackedBut lost after := by
  refine ⟨?_, ?_⟩
  · rw [halike.network.pending, halike.network.nextOutbound]
    exact h.fresh
  · rw [halike.actions, halike.network.pending]
    exact h.tracked

variable {service : NetworkService}

section

variable (hfresh : ∀ outbound ∈ service.pending, outbound < service.swarm.nextOutbound)
include hfresh

/-- A new request does not displace another. -/
theorem getElem?_sent (peer : PeerId)
    (request : DirectRequest) {outbound : OutboundRequestId} {id : U64}
    (h : service.pending[outbound]? = some id) :
    (service.sent peer request).pending[outbound]? = some id := by
  have hlt := hfresh outbound (OrdMap.mem_iff_exists.mpr ⟨id, h⟩)
  show (service.pending.insert service.swarm.nextOutbound service.requestId)[outbound]? = some id
  rw [OrdMap.getElem?_insert, if_neg (Nat.ne_of_gt hlt), h]

theorem fresh_sent (peer : PeerId)
    (request : DirectRequest) : ∀ outbound ∈ (service.sent peer request).pending,
      outbound < (service.sent peer request).swarm.nextOutbound := by
  intro outbound hmem
  rcases ExtTreeMap.mem_insert.mp hmem with heq | hmem
  · exact Nat.lt_succ_of_le (LawfulEqCmp.compare_eq_iff_eq.mp heq).ge
  · exact Nat.lt_succ_of_lt (hfresh outbound hmem)

end

theorem TrackedBut.sent (h : TrackedBut lost node) (peer : PeerId) (request : DirectRequest) :
    TrackedBut lost { node with network := node.network.sent peer request } := by
  refine ⟨fresh_sent h.fresh peer request, fun id hid hlost => ?_⟩
  obtain ⟨outbound, houtbound⟩ := h.tracked id hid hlost
  exact ⟨outbound, getElem?_sent h.fresh peer request houtbound⟩

/-- A request sent with an action is tracked. -/
theorem TrackedBut.asked (h : TrackedBut lost node) (peer : PeerId) (request : DirectRequest)
    (action : PendingAction) : TrackedBut lost (node.asked peer request action) := by
  refine ⟨fresh_sent h.fresh peer request, fun id hid hlost => ?_⟩
  rcases ExtTreeMap.mem_insert.mp hid with heq | hid
  · rw [← LawfulEqCmp.compare_eq_iff_eq.mp heq]
    exact ⟨node.network.swarm.nextOutbound, ExtTreeMap.getElem?_insert_self⟩
  · exact (h.sent peer request).tracked id hid hlost

theorem TrackedBut.of_asks {before after : Node} (h : TrackedBut lost before)
    (hasks : Asks before after) : TrackedBut lost after := by
  cases hasks with
  | nothing halike => exact h.of_alike halike
  | request halike _ hasked => exact ((h.of_alike halike).asked _ _ _).of_alike hasked

/-- Downloads have no part in it. -/
theorem TrackedBut.of_downloads (h : TrackedBut lost node)
    (downloads : BTreeMap PeerId SnapshotDownload) : TrackedBut lost { node with downloads } :=
  ⟨h.fresh, h.tracked⟩

/-- The lost action is dropped. -/
theorem TrackedBut.erase {id : U64} (h : TrackedBut (some id) node) :
    Tracked { node with actions := node.actions.erase id } := by
  refine ⟨h.fresh, fun kept hkept _ => ?_⟩
  obtain ⟨hne, hmem⟩ := ExtTreeMap.mem_erase.mp hkept
  refine h.tracked kept hmem fun heq => hne ?_
  exact LawfulEqCmp.compare_eq_iff_eq.mpr (Option.some.inj heq)

/-! ## Steps -/

section Steps

theorem tracked_requestNextChunk (h : Tracked node) (peer : PeerId) :
    Ensures (requestNextChunk peer) node fun _ after => Tracked after :=
  ensures_nextChunk (fun _ => h) (fun _ _ _ => h)
    fun _ _ _ _ _ _ => (h.of_downloads _).asked peer _ _

/-- The identifier an event takes back. -/
def takenBack : NetworkEvent → Option U64
  | .response _ requestId _ => some requestId
  | .requestFailed _ requestId _ => requestId
  | _ => none

/-- An answer to a request with an action carries its identifier, is within the limits and is
no handshake. -/
def Answers (node : Node) : LoopEvent → Prop
  | .swarm (.direct (.response _ outbound envelope)) =>
    ∀ (id : U64), node.network.pending[outbound]? = some id → id ∈ node.actions →
      envelope.requestId = id ∧ envelope.response.validateTransport = .ok () ∧
        ∀ remote, envelope.response ≠ .handshakeAccepted remote
  | _ => True

theorem TrackedBut.ended (h : Tracked node) {outbound : OutboundRequestId} {lost : Option U64}
    {network : NetworkService} (hpending : network.pending = node.network.pending.erase outbound)
    (hnext : network.swarm.nextOutbound = node.network.swarm.nextOutbound)
    (hlost : ∀ (id : U64), node.network.pending[outbound]? = some id → id ∈ node.actions →
      lost = some id) : TrackedBut lost { node with network } := by
  refine ⟨?_, fun id hid hkept => ?_⟩
  · intro other hother
    rw [hpending] at hother
    rw [hnext]
    exact h.fresh other (ExtTreeMap.mem_erase.mp hother).2
  · obtain ⟨other, hother⟩ := h.tracked id hid (Option.some_ne_none id).symm
    refine ⟨other, ?_⟩
    have hne : outbound ≠ other := by
      rintro rfl
      exact hkept (hlost id hother hid)
    rw [hpending, OrdMap.getElem?_erase, if_neg hne, hother]

theorem tracked_receive (h : Tracked node) {event : SwarmEvent}
    (hanswers : Answers node (.swarm event)) :
    TrackedBut ((node.network.receive event).1.bind takenBack)
      { node with network := (node.network.receive event).2 } := by
  have hkept : ∀ {lost : Option U64} {network : NetworkService}, node.network.Alike network →
      TrackedBut lost { node with network } := by
    intro lost network halike
    refine ⟨?_, fun id hid _ => ?_⟩
    · exact (h.of_alike ⟨halike, rfl, rfl⟩ : Tracked { node with network }).fresh
    · exact (h.of_alike ⟨halike, rfl, rfl⟩ : Tracked { node with network }).tracked id hid
        (Option.some_ne_none id).symm
  rcases NetworkService.receive_spec node.network event with halike | ⟨peer, rfl, halike⟩
  · cases event with
    | direct event =>
      cases event with
      | response peer outbound envelope =>
        refine TrackedBut.ended h halike.pending halike.nextOutbound fun id hpending hid => ?_
        obtain ⟨rfl, hvalid, hanswer⟩ := hanswers id hpending hid
        rw [NetworkService.receive_response hpending hvalid hanswer]
        rfl
      | outboundFailure peer outbound error =>
        refine TrackedBut.ended h halike.pending halike.nextOutbound fun id hpending _ => ?_
        rw [NetworkService.receive_failure, hpending]
        rfl
      | request peer envelope channel => exact hkept halike
      | inboundFailure peer => exact hkept halike
      | responseSent peer => exact hkept halike
    | newListenAddr address => exact hkept halike
    | connectionEstablished peer => exact hkept halike
    | connectionClosed peer numEstablished => exact hkept halike
    | gossip source data => exact hkept halike
    | ping peer succeeded => exact hkept halike
    | outgoingConnectionError peer error => exact hkept halike
    | other => exact hkept halike
  · exact (h.sent peer .handshake).of_alike ⟨halike, rfl, rfl⟩

variable [Keccak] [Secp256k1]

theorem tracked_beginSnapshotDownload (h : Tracked node) (identity : DatabaseIdentity)
    (peer : PeerId) (remote : SyncStatus) (bytes : Bytes) :
    Ensures (beginSnapshotDownload identity peer remote bytes) node fun _ after => Tracked after :=
  ensures_bind (ensures_checkNetwork fun _ _ => ensures_bind (ensures_check fun _ _ =>
    ensures_bind (ensures_checkNetwork fun _ _ => ensures_get (ensures_set_bind
      (tracked_requestNextChunk (h.of_downloads _) peer)))))

theorem tracked_acceptSnapshotChunk (h : Tracked node) (peer : PeerId) (domainId : DomainId)
    (index : U32) (bytes : Bytes) :
    Ensures (acceptSnapshotChunk peer domainId index bytes) node fun _ after => Tracked after := by
  refine ensures_get ?_
  split
  · exact ensures_throw _ _
  · refine ensures_bind (ensures_checkNetwork fun staging _ => ensures_set_bind (ensures_bind ?_))
    refine (tracked_requestNextChunk (h.of_downloads _) peer).mono fun _ mid hmid => ensures_get ?_
    split
    · exact ensures_pure hmid
    · split
      · exact ensures_pure hmid
      · exact ensures_set_bind ((asks_finishDownload peer _).mono fun _ after hafter =>
          (hmid.of_downloads _).of_asks hafter)

variable [Revm] [OrderedTrie]

theorem tracked_handleResponse (h : Tracked node) (identity : DatabaseIdentity) (peer : PeerId)
    (action : Option PendingAction) (response : DirectResponse) :
    Ensures (handleResponse identity peer action response) node fun _ after => Tracked after := by
  unfold handleResponse
  split
  · exact (asks_requestSyncPath peer _).mono fun _ after hafter => h.of_asks hafter
  · exact tracked_beginSnapshotDownload h identity peer _ _
  · exact tracked_acceptSnapshotChunk h peer _ _ _
  · exact (asks_acceptHeaders peer _ _).mono fun _ after hafter => h.of_asks hafter
  · exact (asks_acceptBodies peer _ _ _).mono fun _ after hafter => h.of_asks hafter
  · exact ensures_pure h
  · exact ensures_pure h
  · exact ensures_throw _ _

theorem tracked_dispatch (identity : DatabaseIdentity) {event : NetworkEvent}
    (h : TrackedBut (takenBack event) node) :
    Ensures (dispatch identity event) node fun _ after => Tracked after := by
  cases event with
  | listening address => exact ensures_pure h
  | peerDiscovered peer address => exact ensures_pure h
  | peerDisconnected peer => exact ensures_modify (h.of_downloads _)
  | peerAuthenticated peer handshake => exact ensures_sendRequest (h.asked peer _ _)
  | peerRejected peer reason => exact ensures_pure h
  | request inbound =>
    exact (alike_serveRequest inbound).mono fun _ after hafter => h.of_alike hafter
  | gossip peer message =>
    exact (asks_handleGossip peer message).mono fun _ after hafter => h.of_asks hafter
  | response peer requestId response =>
    exact ensures_get (ensures_set_bind (tracked_handleResponse h.erase identity peer _ response))
  | requestFailed peer requestId reason =>
    refine ensures_modify ?_
    cases requestId with
    | none => exact h.of_downloads _
    | some id => exact h.erase.of_downloads _

theorem tracked_react (config : NodeConfig) (h : Tracked node) {event : LoopEvent}
    (hanswers : Answers node event) :
    Ensures (react config event) node fun _ after => Tracked after := by
  cases event with
  | production => exact (alike_production config).mono fun _ after hafter => h.of_alike hafter
  | reconnect =>
    exact (asks_reconnectAll config.persistent).mono fun _ after hafter => h.of_asks hafter
  | consensusMessage => exact ensures_modify (h.of_alike ⟨.refl _, rfl, rfl⟩)
  | discovered peer address =>
    exact ensures_handleNetworkEvent (fun _ _ hmid => hmid.of_alike) (ensures_pure h)
  | swarm event =>
    have hreceived := tracked_receive h hanswers
    refine ensures_swarm (fun _ _ hmid => hmid.of_alike)
      (fun hquiet => ?_) fun yielded hyielded => ?_
    · rw [hquiet] at hreceived
      exact hreceived
    · rw [hyielded] at hreceived
      exact tracked_dispatch config.identity hreceived

/-- In runs in which every answer is one, every action is that of an outstanding request; where
no request is outstanding, no action is left. -/
theorem actions_outstanding {config : NodeConfig} {node : Node} (h : NodeRun config Answers node) :
    (∀ (id : U64), id ∈ node.actions →
      ∃ outbound : OutboundRequestId, node.network.pending[outbound]? = some id) ∧
    (node.network.pending.isEmpty = true → node.actions.isEmpty = true) := by
  have htracked : Tracked node := by
    refine h.invariant (fun engine => ⟨?_, ?_⟩) (fun _ _ hbefore => hbefore.of_alike)
      fun node event hnode _ hanswers => tracked_react config hnode hanswers
    · exact fun outbound hmem => absurd hmem ExtTreeMap.not_mem_empty
    · exact fun id hmem => absurd hmem ExtTreeMap.not_mem_empty
  have hall : ∀ (id : U64), id ∈ node.actions →
      ∃ outbound : OutboundRequestId, node.network.pending[outbound]? = some id :=
    fun id hid => htracked.tracked id hid (Option.some_ne_none id).symm
  refine ⟨hall, fun hempty => ?_⟩
  rw [ExtTreeMap.isEmpty_iff, ExtTreeMap.eq_empty_iff_forall_not_mem] at hempty ⊢
  intro id hid
  obtain ⟨outbound, houtbound⟩ := hall id hid
  exact hempty outbound (OrdMap.mem_iff_exists.mpr ⟨id, houtbound⟩)

end Steps

/-! ## A run -/

section Sample

attribute [local instance] rollingKeccak ChainMachine.sampleCurve ChainMachine.sampleRevm
  ChainMachine.sampleTrie

def sampleConfig : NodeConfig := ⟨⟨5, 6⟩, false, []⟩

def samplePeer : PeerId := [1]

def greeting : SwarmEvent :=
  .direct (.request samplePeer ⟨1, handshakeOf sampleConfig, .handshake⟩ ⟨true⟩)

def statusUnder (requestId : U64) : SwarmEvent :=
  .direct (.response samplePeer 1 ⟨requestId, .status ⟨0, 0, 0, 0⟩⟩)

def greetedNetwork : NetworkService :=
  ((NetworkService.new (handshakeOf sampleConfig)).receive greeting).2.sent samplePeer .status

def greeted (engine : SingleValidatorEngine) : Node :=
  { fresh (handshakeOf sampleConfig) engine with
    network := greetedNetwork
    actions := (∅ : BTreeMap U64 PendingAction).insert 1 .status }

theorem react_greeting (engine : SingleValidatorEngine) :
    react sampleConfig (.swarm greeting) (fresh (handshakeOf sampleConfig) engine)
      = .ok () (greeted engine) := by
  refine react_swarm rfl ?_ rfl
  rfl

def openedHeight : Option U64 :=
  (SingleValidatorEngine.newEngine (sampleGenesis ∅)).map (·.finalized.height)

theorem openedHeight_eq : openedHeight = some 0 := by decide +kernel

theorem exists_started :
    ∃ engine, Started sampleConfig (fresh (handshakeOf sampleConfig) engine) := by
  have hheight := openedHeight_eq
  obtain ⟨engine, hopened, hheight⟩ := Option.map_eq_some_iff.mp hheight
  obtain ⟨_, hopened⟩ := SingleValidatorEngine.newEngine_eq_some hopened
  refine ⟨engine, _, _, _, _, _, _, engine, hopened, ?_⟩
  change ((if engine.finalized.height = 0 then (pure () : Handler Unit) else _)
    (fresh (handshakeOf sampleConfig) engine)) = _
  rw [if_pos hheight]
  rfl

theorem exists_greeted {Allowed : Node → LoopEvent → Prop}
    (hallowed : ∀ engine, Allowed (fresh (handshakeOf sampleConfig) engine) (.swarm greeting)) :
    ∃ engine, NodeRun sampleConfig Allowed (greeted engine) := by
  obtain ⟨engine, hstarted⟩ := exists_started
  have hpossible : (fresh (handshakeOf sampleConfig) engine).Possible (.swarm greeting) := trivial
  exact ⟨engine, .step (.start hstarted) hpossible (hallowed engine) (react_greeting engine)⟩

/-- While the peer's status is outstanding, its action is there and tracked. -/
theorem actions_outstanding_greeted : ∃ node, NodeRun sampleConfig Answers node ∧
    node.actions.isEmpty = false ∧ (∀ (id : U64), id ∈ node.actions →
      ∃ outbound : OutboundRequestId, node.network.pending[outbound]? = some id) ∧
    (node.network.pending.isEmpty = true → node.actions.isEmpty = true) := by
  obtain ⟨engine, hrun⟩ := @exists_greeted Answers fun _ => trivial
  exact ⟨greeted engine, hrun, rfl, actions_outstanding hrun⟩

/-- A peer answers the status request under another identifier: no request is outstanding any
more, but the action stays. -/
theorem mislabelled_status : ∃ node, NodeRun sampleConfig (fun _ _ => True) node ∧
    node.network.pending.isEmpty = true ∧ (1 : U64) ∈ node.actions := by
  obtain ⟨engine, hrun⟩ := @exists_greeted (fun _ _ => True) fun _ => trivial
  have hpossible : (greeted engine).Possible (.swarm (statusUnder 2)) :=
    ⟨⟨1, handshakeOf sampleConfig, .status⟩, rfl⟩
  exact ⟨_, .step hrun hpossible trivial (react_quiet rfl), rfl, ExtTreeMap.mem_insert_self⟩

end Sample

end Node

end Arbor
