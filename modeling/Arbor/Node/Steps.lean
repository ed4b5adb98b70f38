import Arbor.Lib.Ensures
import Arbor.Network.Exchange
import Arbor.Node.Networked

/-!
# What a step does to the node's tables

Most of what the node does leaves its tables alone or sends one request with an action that
is not a chunk's (`Asks`): serving requests, producing blocks, following announcements, and
every response but a manifest and a chunk.  These two move a download (`ensures_nextChunk`).
-/

namespace Arbor

open Result Device

/-- The action of a request for a chunk. -/
def PendingAction.IsChunk (action : PendingAction) : Prop :=
  ∃ domainId index, action = .chunk domainId index

namespace Node

/-- The same requests, actions and downloads. -/
structure Alike (before after : Node) : Prop where
  network : before.network.Alike after.network
  actions : after.actions = before.actions
  downloads : after.downloads = before.downloads

theorem Alike.refl (node : Node) : Alike node node := ⟨.refl node.network, rfl, rfl⟩

theorem Alike.trans {first second third : Node} (h : Alike first second) (h' : Alike second third) :
    Alike first third :=
  ⟨h.1.trans h'.1, h'.2.trans h.2, h'.3.trans h.3⟩

/-- The engine has no part in the tables. -/
theorem alike_engine (node : Node) (engine : SingleValidatorEngine) :
    Alike node { node with engine } := ⟨.refl node.network, rfl, rfl⟩

/-- The node after a request has been sent with an action. -/
def asked (node : Node) (peer : PeerId) (request : DirectRequest) (action : PendingAction) : Node :=
  { node with
    network := node.network.sent peer request
    actions := node.actions.insert node.network.requestId action }

/-- At most one request is sent, and not for a chunk. -/
inductive Asks (before : Node) : Node → Prop
  | nothing {after : Node} : Alike before after → Asks before after
  | request {mid after : Node} {peer : PeerId} {request : DirectRequest} {action : PendingAction} :
      Alike before mid → ¬action.IsChunk → Alike (mid.asked peer request action) after →
      Asks before after

/-- Steps that send nothing may come first. -/
theorem Asks.after_alike {first second third : Node} (h : Alike first second)
    (h' : Asks second third) : Asks first third := by
  cases h' with
  | nothing halike => exact .nothing (h.trans halike)
  | request halike haction hasked => exact .request (h.trans halike) haction hasked

/-! ## The parts of a step -/

variable {α ε : Type} {node : Node} {Q : α → Node → Prop}

/-- A check that fails ends the handler. -/
theorem ensures_check {result : Except DevNodeError α} (h : ∀ a, result = .ok a → Q a node) :
    Ensures (check result) node Q := by
  intro a node' hrun
  unfold check at hrun
  split at hrun
  · cases hrun
    exact h _ rfl
  · cases hrun

theorem ensures_checkNetwork {failure : ε → NetworkFailure} {result : Except ε α}
    (h : ∀ a, result = .ok a → Q a node) : Ensures (checkNetwork failure result) node Q :=
  ensures_check fun a ha => h a (mapError_eq_ok.mp ha)

variable {operation : EStateM ε SingleValidatorEngine α}

theorem ensures_onEngine {rename : ε → DevNodeError}
    (h : ∀ a engine, Q a { node with engine }) : Ensures (onEngine rename operation) node Q := by
  intro a node' hrun
  unfold onEngine at hrun
  split at hrun
  · cases hrun
    exact h _ _
  · cases hrun

/-- A failed call of the engine is passed over. -/
theorem ensures_tryEngine {Q : Unit → Node → Prop}
    (h : ∀ engine, Q () { node with engine }) : Ensures (tryEngine operation) node Q := by
  intro _ node' hrun
  unfold tryEngine at hrun
  split at hrun <;>
    · cases hrun
      exact h _

variable {peer : PeerId} {request : DirectRequest}

/-- A request that could be sent. -/
theorem ensures_sendRequest {action : PendingAction}
    {Q : Unit → Node → Prop} (h : Q () (node.asked peer request action)) :
    Ensures (sendRequest peer request action) node Q := by
  refine ensures_get (ensures_bind (ensures_checkNetwork fun result hresult => ?_))
  obtain ⟨sentId, network⟩ := result
  obtain ⟨rfl, rfl⟩ := NetworkService.request_eq_ok hresult
  exact ensures_set h

/-- One request, and no chunk of a snapshot. -/
theorem asks_sendRequest {action : PendingAction} (haction : ¬action.IsChunk) :
    Ensures (sendRequest peer request action) node fun _ after => Asks node after :=
  ensures_sendRequest (.request (.refl node) haction (.refl _))

/-- The first chunk left is asked for, if there is one. -/
theorem ensures_nextChunk {Q : Unit → Node → Prop}
    (hnone : node.downloads[peer]? = none → Q () node)
    (hlast : ∀ download, node.downloads[peer]? = some download → download.remaining = [] →
      Q () node)
    (hnext : ∀ download domainId index remaining, node.downloads[peer]? = some download →
      download.remaining = (domainId, index) :: remaining →
      Q () ({ node with
        downloads := node.downloads.insert peer { download with remaining } }.asked peer
          (.snapshotChunk download.remote.checkpointHeight domainId index)
            (.chunk domainId index))) :
    Ensures (requestNextChunk peer) node Q := by
  refine ensures_get ?_
  split
  · rename_i hget
    exact ensures_pure (hnone hget)
  · rename_i download hget
    split
    · rename_i hremaining
      exact ensures_pure (hlast download hget hremaining)
    · rename_i domainId index remaining hremaining
      exact ensures_set_bind
        (ensures_sendRequest (hnext download domainId index remaining hget hremaining))

section Serving

theorem alike_deliverConsensus (peer : PeerId) (kind : U8) (payload : Bytes) :
    Ensures (deliverConsensus peer kind payload) node fun _ after => Alike node after := by
  refine ensures_get ?_
  split
  · exact ensures_pure (.refl node)
  · exact ensures_set_bind (ensures_pure ⟨.refl _, rfl, rfl⟩)

variable [Keccak]

/-- Catching up starts with at most one request. -/
theorem asks_requestSyncPath (peer : PeerId) (remote : SyncStatus) :
    Ensures (requestSyncPath peer remote) node fun _ after => Asks node after := by
  refine ensures_get ?_
  dsimp only
  split
  · exact ensures_pure (.nothing (.refl node))
  · split
    · exact asks_sendRequest (by rintro ⟨_, _, h⟩; cases h)
    · split
      · exact asks_sendRequest (by rintro ⟨_, _, h⟩; cases h)
      · exact ensures_pure (.nothing (.refl node))

/-- Accepted headers are followed by a body request. -/
theorem asks_acceptHeaders (peer : PeerId) (remote : SyncStatus) (headers : List FinalizedHeader) :
    Ensures (acceptHeaders peer remote headers) node fun _ after => Asks node after :=
  ensures_get (ensures_bind (ensures_checkNetwork fun _ _ =>
    asks_sendRequest (by rintro ⟨_, _, h⟩; cases h)))

theorem alike_serveAll {item : U64 → ConsensusBlock → Except NetworkFailure α}
    {response : List α → DirectResponse} (heights : List U64) (items : List α) {node : Node} :
    Ensures (serveAll item response heights items) node fun _ after => Alike node after := by
  induction heights generalizing items node with
  | nil => exact ensures_pure (.refl node)
  | cons height rest ih =>
    refine ensures_bind (ensures_onEngine fun found engine => ?_)
    cases found with
    | none => exact ensures_pure (alike_engine node engine)
    | some block =>
      refine ensures_bind (ensures_checkNetwork fun next _ => ?_)
      refine (ih _).mono fun _ after hafter => ?_
      exact (alike_engine node engine).trans hafter

variable [Secp256k1] (inbound : InboundRequest)

/-- An answer sends no request. -/
theorem alike_answer : Ensures (answer inbound) node fun _ after => Alike node after := by
  refine ensures_get ?_
  split
  · exact ensures_pure (.refl node)
  · exact ensures_pure (.refl node)
  · exact ensures_get (alike_serveAll _ _)
  · exact alike_serveAll _ _
  · exact ensures_get (alike_serveAll _ _)
  · split
    · exact ensures_pure (.refl node)
    · exact ensures_bind (ensures_checkNetwork fun _ _ => ensures_pure (.refl node))
  · exact ensures_pure (.refl node)
  · exact ensures_bind (ensures_onEngine fun _ engine => ensures_pure (alike_engine node engine))
  · exact alike_deliverConsensus _ _ _

theorem alike_serveRequest :
    Ensures (serveRequest inbound) node fun _ after => Alike node after := by
  refine ensures_bind ((alike_answer inbound).mono fun response served hserved => ?_)
  refine ensures_get (ensures_bind (ensures_checkNetwork fun network hnetwork => ensures_set ?_))
  exact hserved.trans ⟨NetworkService.alike_respond hnetwork, rfl, rfl⟩

/-- After a download, catching up goes on. -/
theorem asks_finishDownload (peer : PeerId) (download : SnapshotDownload) :
    Ensures (finishDownload peer download) node fun _ after => Asks node after := by
  refine ensures_bind (ensures_checkNetwork fun _ _ =>
    ensures_bind (ensures_onEngine fun _ engine => ?_))
  refine (asks_requestSyncPath peer download.remote).mono fun _ after hafter => ?_
  exact hafter.after_alike (alike_engine node engine)

/-- Gossip leads to at most one request. -/
theorem asks_handleGossip (peer : PeerId) (message : GossipMessage) :
    Ensures (handleGossip peer message) node fun _ after => Asks node after := by
  cases message with
  | transaction domainId envelope =>
    exact ensures_tryEngine fun engine => .nothing (alike_engine node engine)
  | finalized announcement =>
    refine ensures_get ?_
    split
    · exact asks_sendRequest (by rintro ⟨_, _, h⟩; cases h)
    · exact ensures_pure (.nothing (.refl node))

/-- Caching a snapshot touches no table. -/
theorem alike_cacheSnapshot (genesisHash : B256) :
    Ensures (cacheSnapshot genesisHash) node fun _ after => Alike node after := by
  refine ensures_get ?_
  split
  · exact ensures_pure (.refl node)
  · exact ensures_bind (ensures_checkNetwork fun _ _ => ensures_set ⟨.refl _, rfl, rfl⟩)

end Serving

section Following

theorem run_receive (event : SwarmEvent) : receive event node
    = .ok (node.network.receive event).1 { node with network := (node.network.receive event).2 } :=
  rfl

/-- Once a status request is out, no more follow. -/
theorem asks_reconnectAll (peers : List PeerId) :
    Ensures (peers.forM reconnect) node fun _ after => Asks node after := by
  have hall : Ensures (peers.forM reconnect) node fun _ after =>
      after = node ∨ (Asks node after ∧ after.actions.isEmpty = false) := by
    refine ensures_forM (fun peer mid hmid => ensures_get ?_) peers (.inl rfl)
    split
    · rename_i hidle
      rcases hmid with rfl | ⟨_, hbusy⟩
      · refine ensures_sendRequest (.inr ⟨.request (.refl mid) ?_ (.refl _), ?_⟩)
        · rintro ⟨_, _, h⟩
          cases h
        · exact Std.ExtTreeMap.isEmpty_eq_false_iff.mpr Std.ExtTreeMap.insert_ne_empty
      · exact absurd hidle.2.2.1 (by rw [hbusy]; exact Bool.false_ne_true)
    · exact ensures_pure hmid
  refine hall.mono fun _ after hafter => ?_
  rcases hafter with rfl | ⟨hasks, _⟩
  · exact .nothing (.refl after)
  · exact hasks

variable [Keccak] [Secp256k1] [Revm] [OrderedTrie]

/-- After accepted bodies, catching up goes on. -/
theorem asks_acceptBodies (peer : PeerId) (remote : SyncStatus) (headers : List VerifiedHeader)
    (bodies : List BlockBody) :
    Ensures (acceptBodies peer remote headers bodies) node fun _ after => Asks node after := by
  refine ensures_bind (ensures_checkNetwork fun _ _ =>
    ensures_bind (ensures_onEngine fun _ engine => ?_))
  refine (asks_requestSyncPath peer remote).mono fun _ after hafter => ?_
  exact hafter.after_alike (alike_engine node engine)

/-- Producing a block sends no request. -/
theorem alike_produceAndAnnounce (identity : DatabaseIdentity) :
    Ensures (produceAndAnnounce identity) node fun _ after => Alike node after := by
  refine ensures_get (ensures_bind (ensures_check fun _ _ =>
    ensures_bind (ensures_onEngine fun _ engine => ?_)))
  refine (alike_cacheSnapshot identity.genesisHash).mono fun _ after hafter => ?_
  exact (alike_engine node engine).trans hafter

theorem alike_production (config : NodeConfig) :
    Ensures (react config .production) node fun _ after => Alike node after := by
  change Ensures (if config.produce = true then produceAndAnnounce config.identity else pure ())
    node _
  split
  · exact alike_produceAndAnnounce config.identity
  · exact ensures_pure (.refl node)

variable {identity : DatabaseIdentity}

/-- After its event a height may be cached. -/
theorem ensures_handleNetworkEvent {event : NetworkEvent}
    {Q : Node → Prop} (halike : ∀ mid after, Q mid → Alike mid after → Q after)
    (h : Ensures (dispatch identity event) node fun _ after => Q after) :
    Ensures (handleNetworkEvent identity event) node fun _ after => Q after := by
  refine ensures_get (ensures_bind (h.mono fun _ mid hmid => ensures_get ?_))
  split
  · exact (alike_cacheSnapshot identity.genesisHash).mono fun _ after hafter =>
      halike mid after hmid hafter
  · exact ensures_pure hmid

variable {config : NodeConfig} {event : SwarmEvent}

/-- The service takes in an event, and its result is handled. -/
theorem ensures_swarm {Q : Node → Prop} (halike : ∀ mid after, Q mid → Alike mid after → Q after)
    (hquiet : (node.network.receive event).1 = none →
      Q { node with network := (node.network.receive event).2 })
    (hyields : ∀ yielded, (node.network.receive event).1 = some yielded →
      Ensures (dispatch config.identity yielded)
        { node with network := (node.network.receive event).2 } fun _ after => Q after) :
    Ensures (react config (.swarm event)) node fun _ after => Q after := by
  have hreceive : Ensures (receive event) node fun yielded after =>
      yielded = (node.network.receive event).1 ∧
        after = { node with network := (node.network.receive event).2 } :=
    ensures_get (ensures_set_bind (ensures_pure ⟨rfl, rfl⟩))
  refine ensures_bind (hreceive.mono fun yielded after hafter => ?_)
  obtain ⟨hyielded, rfl⟩ := hafter
  cases yielded with
  | none => exact ensures_pure (hquiet hyielded.symm)
  | some yielded => exact ensures_handleNetworkEvent halike (hyields yielded hyielded.symm)

/-- An event at the same height is only dispatched. -/
theorem handleNetworkEvent_of_dispatch {event : NetworkEvent}
    {after : Node} (h : dispatch identity event node = .ok () after)
    (hheight : after.engine.finalized.height = node.engine.finalized.height) :
    handleNetworkEvent identity event node = .ok () after := by
  change ((dispatch identity event >>= fun _ => get >>= fun later =>
    if later.engine.finalized.height ≠ node.engine.finalized.height then
      cacheSnapshot identity.genesisHash else pure ()) node : EStateM.Result DevNodeError Node Unit)
      = _
  rw [run_bind, h]
  change ((if after.engine.finalized.height ≠ node.engine.finalized.height then
    cacheSnapshot identity.genesisHash else pure ()) : Handler Unit) after = _
  rw [if_neg (not_not.mpr hheight)]
  rfl

theorem react_swarm {yielded : NetworkEvent} {after : Node}
    (hyields : (node.network.receive event).1 = some yielded)
    (h : dispatch config.identity yielded { node with network := (node.network.receive event).2 }
      = .ok () after)
    (hheight : after.engine.finalized.height = node.engine.finalized.height) :
    react config (.swarm event) node = .ok () after := by
  have hhandled := handleNetworkEvent_of_dispatch h hheight
  rw [react, run_bind, run_receive]
  rw [hyields]
  exact hhandled

/-- An event the service makes nothing of. -/
theorem react_quiet
    (hquiet : (node.network.receive event).1 = none) : react config (.swarm event) node
      = .ok () { node with network := (node.network.receive event).2 } := by
  rw [react, run_bind, run_receive]
  rw [hquiet]
  rfl

end Following

end Node

end Arbor
