import PaqusNode.Base.Mutex

/-!
# PaqusNode.Service.Locks

The four mutexes of the running node and the order in which its threads take
them (`main.rs`, `p2p.rs`, `gossip.rs`).  Each function is the list of its
acquisitions and releases; what it does in between, and the data its branches
depend on, are parameters.  Almost every guard is dropped before the next
mutex is taken.  The exceptions are the status of the node, which is read with
several mutexes held, and the poll of a persistent peer, which keeps
`peer_connections` while it locks `node` for every block.
-/

namespace PaqusNode

namespace Service.Locks

open Mutex

inductive Lock where
  | node
  | peers
  | peerConnections
  | inboundConnections
deriving DecidableEq, Repr

/-- What a thread does to the mutexes. -/
abbrev Trace : Type := List (Action Lock)

/-! ## The peer table -/

/-- `save_peers_from`, `file` being whether there is a peers file. -/
def savePeersFrom (file : Bool) : Trace := if file then locked .peers [] else []

/-- `add_peer_infos`, and `save_peers` if it changed the table. -/
def addPeerInfos (file changed : Bool) : Trace :=
  locked .peers [] ++ if changed then savePeersFrom file else []

/-! ## Polls -/

/-- `handshake_peer`. -/
def handshakePeer : Trace := locked .node []

/-- `request_block` and `request_block_by_hash`: the block is applied if the
peer sends one. -/
def requestBlock (answered : Bool) : Trace := if answered then locked .node [] else []

/-- The loop of `request_missing_parent_blocks`: for each hash, whether a block
came and whether the request failed, which puts the hash back and ends the loop. -/
def requestParents : List (Bool × Bool) → Trace
  | [] => []
  | (answered, failed) :: rest =>
      requestBlock answered ++ if failed then locked .node [] else requestParents rest

/-- `request_missing_parent_blocks`. -/
def requestMissingParentBlocks (hashes : List (Bool × Bool)) : Trace :=
  locked .node [] ++ requestParents hashes

/-- How `poll_peer_connection` goes. -/
inductive Poll where
  /-- The handshake or the request of the tip fails. -/
  | refused
  /-- The peer is not ahead. -/
  | notAhead (parents : List (Bool × Bool))
  /-- Blocks are requested, and the missing parents unless one of them failed. -/
  | behind (blocks : List Bool) (parents : Option (List (Bool × Bool)))

/-- `poll_peer_connection`. -/
def pollPeerConnection : Poll → Trace
  | .refused => handshakePeer
  | .notAhead parents => handshakePeer ++ locked .node [] ++ requestMissingParentBlocks parents
  | .behind blocks parents =>
      handshakePeer ++ locked .node [] ++ blocks.flatMap requestBlock ++
        (parents.map requestMissingParentBlocks).getD []

/-- `poll_persistent_peer`; `none` if the peer cannot be reached. -/
def pollPersistentPeer (poll : Option Poll) : Trace :=
  locked .peerConnections ((poll.map pollPeerConnection).getD [])

/-- What `sync_peers` does after a poll. -/
inductive PollResult where
  /-- The peer is asked for its peers; whether they changed the table, if it
  answers. -/
  | ok (infos : Option Bool)
  | failed (dropped : Bool)

/-- The rest of the loop body of `sync_peers`. -/
def afterPoll (file : Bool) : PollResult → Trace
  | .ok infos =>
      locked .peers [] ++ locked .peerConnections [] ++ (infos.map (addPeerInfos file)).getD []
  | .failed dropped =>
      locked .peers [] ++ locked .peerConnections [] ++
        if dropped then savePeersFrom file else []

/-- `sync_peers`. -/
def syncPeers (file : Bool) (due : List (Option Poll × PollResult)) : Trace :=
  locked .peers [] ++ due.flatMap fun peer => pollPersistentPeer peer.1 ++ afterPoll file peer.2

/-! ## The rest of the main loop -/

/-- `accept_p2p`. -/
def acceptP2p (accepted : List Unit) : Trace :=
  accepted.flatMap fun _ => locked .inboundConnections []

/-- `refresh_gateway_peers` of a node with a gateway; whether the peers it
returned changed the table, if it returned any. -/
def refreshGatewayPeers (file : Bool) (infos : Option Bool) : Trace :=
  locked .node [] ++ locked .peers [] ++ (infos.map (addPeerInfos file)).getD []

/-- `needs_peer_handshake_before_mining`. -/
def needsPeerHandshakeBeforeMining (required : Bool) : Trace :=
  if required then locked .peers [] else []

/-- `peer_ahead_of_local_tip`. -/
def peerAheadOfLocalTip : Trace := locked .node [] ++ locked .peers []

/-- The conditions that `log_activity` and `mining_wait_reason` go through:
whether the first is asked, and whether the second is asked after it. -/
def waitConditions (required asked ahead : Bool) : Trace :=
  if asked then
    needsPeerHandshakeBeforeMining required ++ if ahead then peerAheadOfLocalTip else []
  else []

/-- `log_activity`. -/
def logActivity (required asked ahead : Bool) : Trace :=
  locked .node [] ++ locked .peers [] ++ waitConditions required asked ahead

/-- `mining_wait_reason`. -/
def miningWaitReason (required asked ahead : Bool) : Trace :=
  locked .node [] ++ waitConditions required asked ahead

/-- `mine_once_unlocked`: the node is free while the proof of work is sought, and
is locked again if neither the candidate nor the search failed. -/
def mineOnceUnlocked (searched : Bool) : Trace :=
  locked .node [] ++ if searched then locked .node [] else []

/-- Sending to the connections of one table; whether each is removed after. -/
def sendAll (table : Lock) (removed : List Bool) : Trace :=
  removed.flatMap fun removed => locked table [] ++ if removed then locked table [] else []

/-- `NodeService::broadcast` and `broadcast_to_peers`. -/
def broadcast (outbound inbound : List Bool) : Trace :=
  locked .peers [] ++ sendAll .peerConnections outbound ++
    (locked .inboundConnections [] ++ sendAll .inboundConnections inbound)

/-- What the main loop does about mining when it is due. -/
inductive MiningTurn where
  /-- There is a reason to wait. -/
  | waits (asked ahead : Bool)
  /-- All conditions were asked; the block is broadcast if there is one. -/
  | mines (searched : Bool) (sent : Option (List Bool × List Bool))

def MiningTurn.trace (required : Bool) : MiningTurn → Trace
  | .waits asked ahead => miningWaitReason required asked ahead
  | .mines searched sent =>
      miningWaitReason required true true ++ mineOnceUnlocked searched ++
        (sent.map fun tables => broadcast tables.1 tables.2).getD []

/-- The status line: the guard on the node lives to the end of the block, the
others to the end of their statements. -/
def logStatus : Trace :=
  locked .node (locked .peers [] ++ locked .peerConnections [] ++ locked .inboundConnections [])

/-- `shutdown`. -/
def shutdown (file : Bool) : Trace := locked .node (savePeersFrom file ++ locked .peers [])

/-- The configuration as far as locking depends on it. -/
structure Setup where
  /-- There is a peers file. -/
  file : Bool
  /-- `requires_peer_sync_before_mining`. -/
  required : Bool

/-- One round of `run`. -/
structure Round where
  accepted : List Unit
  due : List (Option Poll × PollResult)
  /-- The gateway is asked, and what comes of it. -/
  gateway : Option (Option Bool)
  activity : Bool × Bool
  mining : Option MiningTurn
  status : Bool

def Round.trace (setup : Setup) (round : Round) : Trace :=
  acceptP2p round.accepted ++ syncPeers setup.file round.due ++
    (round.gateway.map (refreshGatewayPeers setup.file)).getD [] ++
    logActivity setup.required round.activity.1 round.activity.2 ++
    (round.mining.map (MiningTurn.trace setup.required)).getD [] ++
    if round.status then logStatus else []

/-- How the main loop goes on after some rounds. -/
inductive Ending where
  /-- It has not got further, or mining failed in the last round. -/
  | none
  /-- The shutdown file exists. -/
  | shutdown
  /-- A connection could not be accepted, after some that were. -/
  | acceptFailed (accepted : List Unit)

def Ending.trace (setup : Setup) : Ending → Trace
  | .none => []
  | .shutdown => Locks.shutdown setup.file
  | .acceptFailed accepted => acceptP2p accepted

/-- `run`. -/
def runTrace (setup : Setup) (rounds : List Round) (ending : Ending) : Trace :=
  rounds.flatMap (Round.trace setup) ++ ending.trace setup

/-! ## The other threads -/

inductive RpcRequest where
  | status
  /-- `rpc_health` and `rpc_chain`. -/
  | constant
  /-- The handlers that read blocks, transactions and accounts. -/
  | node
  | peers
  /-- `rpc_submit_tx`, and its broadcast if the transaction is accepted. -/
  | submitTx (sent : Option (List Bool × List Bool))

/-- The handlers of the RPC server.  The tuple that `rpc_status` matches keeps
all four guards. -/
def RpcRequest.trace : RpcRequest → Trace
  | .status =>
      locked .node (locked .peers (locked .peerConnections (locked .inboundConnections [])))
  | .constant => []
  | .node => locked .node []
  | .peers => locked .peers []
  | .submitTx sent =>
      locked .node [] ++ (sent.map fun tables => broadcast tables.1 tables.2).getD []

inductive StreamMessage where
  | getPeers
  | peers (changed : Bool)
  /-- Everything that `handle_message` is asked about. -/
  | other

def StreamMessage.trace (file : Bool) : StreamMessage → Trace
  | .getPeers => locked .peers []
  | .peers changed => addPeerInfos file changed
  | .other => locked .node []

/-- The thread of an accepted connection, and the removal of its entry. -/
def streamTrace (file : Bool) (messages : List StreamMessage) : Trace :=
  messages.flatMap (StreamMessage.trace file) ++ locked .inboundConnections []

/-- The threads of a node: the main loop, any number of RPC tasks and any
number of accepted connections. -/
inductive Thread where
  | main
  | rpc (n : Nat)
  | stream (n : Nat)
deriving DecidableEq, Repr

/-- What the threads do in a run of the node. -/
structure Work where
  setup : Setup
  rounds : List Round
  ending : Ending
  rpc : Nat → RpcRequest
  stream : Nat → List StreamMessage

def Work.trace (work : Work) : Thread → Trace
  | .main => runTrace work.setup work.rounds work.ending
  | .rpc n => (work.rpc n).trace
  | .stream n => streamTrace work.setup.file (work.stream n)

/-! ## The order of the locks -/

/-- The order in which `rpc_status` takes the mutexes. -/
def statusOrder : Lock → Nat
  | .node => 0
  | .peers => 1
  | .peerConnections => 2
  | .inboundConnections => 3

/-- The order that fits `poll_persistent_peer`. -/
def pollOrder : Lock → Nat
  | .peerConnections => 0
  | .node => 1
  | .peers => 2
  | .inboundConnections => 3

/-- A mutex is taken in the order of the status but for `node` in a poll, and
in the order of a poll but for `peer_connections` in a status. -/
def Allowed (held : List Lock) (l : Lock) : Prop :=
  ∀ h ∈ held,
    (statusOrder h < statusOrder l ∨ h = .peerConnections ∧ l = .node) ∧
    (pollOrder h < pollOrder l ∨ .node ∈ held ∧ l = .peerConnections)

instance (held : List Lock) (l : Lock) : Decidable (Allowed held l) :=
  inferInstanceAs (Decidable (∀ h ∈ held, _))

/-- Nothing is held: everything may be taken. -/
theorem allowed_nil (l : Lock) : Allowed [] l := fun _ h => absurd h List.not_mem_nil

theorem balanced_guard (l : Lock) : Balanced Allowed [] (locked l []) := .guard (allowed_nil l)

/-! ### Polls, with `peer_connections` held -/

theorem balanced_requestBlock (answered : Bool) :
    Balanced Allowed [.peerConnections] (requestBlock answered) :=
  .ite (.guard (by decide)) .nil

theorem balanced_requestParents (hashes : List (Bool × Bool)) :
    Balanced Allowed [.peerConnections] (requestParents hashes) := by
  induction hashes with
  | nil => exact .nil
  | cons hash rest ih =>
      exact (balanced_requestBlock hash.1).append (.ite (.guard (by decide)) ih)

theorem balanced_requestMissingParentBlocks (hashes : List (Bool × Bool)) :
    Balanced Allowed [.peerConnections] (requestMissingParentBlocks hashes) :=
  .append (.guard (by decide)) (balanced_requestParents hashes)

/-- A poll takes its locks in the allowed order and releases them. -/
theorem balanced_pollPeerConnection (poll : Poll) :
    Balanced Allowed [.peerConnections] (pollPeerConnection poll) := by
  have hnode : Balanced Allowed [.peerConnections] (locked .node []) := .guard (by decide)
  cases poll with
  | refused => exact hnode
  | notAhead parents =>
      exact (hnode.append hnode).append (balanced_requestMissingParentBlocks parents)
  | behind blocks parents =>
      exact ((hnode.append hnode).append (.flatMap balanced_requestBlock blocks)).append
        (.getD balanced_requestMissingParentBlocks parents)

theorem balanced_pollPersistentPeer (poll : Option Poll) :
    Balanced Allowed [] (pollPersistentPeer poll) :=
  .locked (allowed_nil _) (.getD balanced_pollPeerConnection poll)

/-! ### Threads -/

theorem balanced_savePeersFrom {held : List Lock} (hpeers : Allowed held .peers) (file : Bool) :
    Balanced Allowed held (savePeersFrom file) :=
  .ite (.guard hpeers) .nil

theorem balanced_addPeerInfos (file changed : Bool) :
    Balanced Allowed [] (addPeerInfos file changed) :=
  (balanced_guard _).append (.ite (balanced_savePeersFrom (allowed_nil _) file) .nil)

theorem balanced_afterPoll (file : Bool) (result : PollResult) :
    Balanced Allowed [] (afterPoll file result) := by
  have htables := (balanced_guard .peers).append (balanced_guard .peerConnections)
  cases result with
  | ok infos => exact htables.append (.getD (balanced_addPeerInfos file) infos)
  | failed dropped =>
      exact htables.append (.ite (balanced_savePeersFrom (allowed_nil _) file) .nil)

theorem balanced_syncPeers (file : Bool) (due : List (Option Poll × PollResult)) :
    Balanced Allowed [] (syncPeers file due) :=
  (balanced_guard _).append <| .flatMap
    (fun peer => (balanced_pollPersistentPeer peer.1).append (balanced_afterPoll file peer.2)) due

theorem balanced_waitConditions (required asked ahead : Bool) :
    Balanced Allowed [] (waitConditions required asked ahead) :=
  .ite
    (.append (.ite (balanced_guard _) .nil)
      (.ite ((balanced_guard _).append (balanced_guard _)) .nil))
    .nil

theorem balanced_sendAll (table : Lock) (removed : List Bool) :
    Balanced Allowed [] (sendAll table removed) :=
  .flatMap (fun _ => (balanced_guard _).append (.ite (balanced_guard _) .nil)) removed

theorem balanced_broadcast (tables : List Bool × List Bool) :
    Balanced Allowed [] (broadcast tables.1 tables.2) :=
  ((balanced_guard _).append (balanced_sendAll _ _)).append
    ((balanced_guard _).append (balanced_sendAll _ _))

/-- A turn of the miner takes its locks in the allowed order. -/
theorem balanced_miningTurn (required : Bool) (turn : MiningTurn) :
    Balanced Allowed [] (turn.trace required) := by
  cases turn with
  | waits asked ahead =>
      exact (balanced_guard _).append (balanced_waitConditions required asked ahead)
  | mines searched sent =>
      exact (((balanced_guard _).append (balanced_waitConditions required true true)).append
        ((balanced_guard _).append (.ite (balanced_guard _) .nil))).append
        (.getD balanced_broadcast sent)

theorem balanced_logStatus : Balanced Allowed [] logStatus :=
  .locked (allowed_nil _) <|
    (Balanced.append (.guard (by decide)) (.guard (by decide))).append (.guard (by decide))

theorem balanced_shutdown (file : Bool) : Balanced Allowed [] (shutdown file) :=
  .locked (allowed_nil _) <|
    (balanced_savePeersFrom (by decide) file).append (.guard (by decide))

theorem balanced_acceptP2p (accepted : List Unit) : Balanced Allowed [] (acceptP2p accepted) :=
  .flatMap (fun _ => balanced_guard _) accepted

theorem balanced_ending (setup : Setup) (ending : Ending) :
    Balanced Allowed [] (ending.trace setup) := by
  cases ending with
  | none => exact .nil
  | shutdown => exact balanced_shutdown setup.file
  | acceptFailed accepted => exact balanced_acceptP2p accepted

/-- So does a whole round of the service. -/
theorem balanced_round (setup : Setup) (round : Round) :
    Balanced Allowed [] (round.trace setup) := by
  have hgateway (infos : Option Bool) :
      Balanced Allowed [] (refreshGatewayPeers setup.file infos) :=
    ((balanced_guard _).append (balanced_guard _)).append
      (.getD (balanced_addPeerInfos setup.file) infos)
  have hactivity : Balanced Allowed []
      (logActivity setup.required round.activity.1 round.activity.2) :=
    ((balanced_guard _).append (balanced_guard _)).append (balanced_waitConditions _ _ _)
  have hstart := (balanced_acceptP2p round.accepted).append
    (balanced_syncPeers setup.file round.due)
  exact (((hstart.append (.getD hgateway _)).append hactivity).append
    (.getD (balanced_miningTurn _) _)).append (.ite balanced_logStatus .nil)

/-- So does a request to the RPC. -/
theorem balanced_rpc (request : RpcRequest) : Balanced Allowed [] request.trace := by
  cases request with
  | status =>
      exact .locked (allowed_nil _) <| .locked (by decide) <| .locked (by decide) <|
        .guard (by decide)
  | constant => exact .nil
  | node => exact balanced_guard _
  | peers => exact balanced_guard _
  | submitTx sent => exact (balanced_guard _).append (.getD balanced_broadcast sent)

theorem balanced_stream (file : Bool) (messages : List StreamMessage) :
    Balanced Allowed [] (streamTrace file messages) := by
  refine .append (.flatMap (fun message => ?_) messages) (balanced_guard _)
  cases message with
  | getPeers => exact balanced_guard _
  | peers changed => exact balanced_addPeerInfos file changed
  | other => exact balanced_guard _

/-- Every thread takes the mutexes as allowed. -/
theorem balanced_thread (work : Work) (thread : Thread) :
    Balanced Allowed [] (work.trace thread) := by
  cases thread with
  | main =>
      exact .append (.flatMap (balanced_round work.setup) work.rounds)
        (balanced_ending work.setup work.ending)
  | rpc n => exact balanced_rpc (work.rpc n)
  | stream n => exact balanced_stream _ _

/-! ## Deadlocks -/

/-- **No deadlock while status and poll are kept apart.**  Whatever the threads
do and however their steps interleave: if nobody takes `node` to go on to
`peer_connections` while somebody holds `peer_connections` and has still to
take `node`, nor the other way round, then no state of the run has a cycle of
threads each waiting for a mutex of the next. -/
theorem no_deadlock_of_apart (work : Work) {schedule : List Thread} {s : State Thread Lock}
    (hapart : State.ApartRun .node .peerConnections (.init work.trace) schedule)
    (hrun : (State.init work.trace).run schedule = some s) : ¬ s.Deadlocked := by
  have hinit : (State.init work.trace).Disciplined Allowed :=
    State.disciplined_init fun thread => (balanced_thread work thread).follows
  obtain ⟨hdisciplined, huncrossed⟩ :=
    State.apartRun_keeps (by decide) hinit (State.uncrossed_init _ _ _) hapart hrun
  exact State.not_deadlocked_of_uncrossed statusOrder pollOrder
    (fun held l hallowed h hh => (hallowed h hh).1)
    (fun held l hallowed h hh => (hallowed h hh).2) hdisciplined huncrossed

/-- A round with one peer to poll, next to a request for the status. -/
def pollAndStatus : Work where
  setup := ⟨false, false⟩
  rounds := [⟨[], [(some .refused, .ok none)], none, (false, false), none, false⟩]
  ending := .none
  rpc _ := .status
  stream _ := []

/-- The status is read before the poll starts. -/
theorem no_deadlock_of_status_first :
    ∃ s, (State.init pollAndStatus.trace).run
        (List.replicate 8 (.rpc 0) ++ List.replicate 5 .main) = some s ∧ ¬ s.Deadlocked := by
  refine ⟨_, (Option.some_get (by decide +kernel)).symm, ?_⟩
  exact no_deadlock_of_apart pollAndStatus (by decide +kernel)
    (Option.some_get (by decide +kernel)).symm

/-- **A deadlock.**  The main loop has locked `peer_connections` for the poll
when the request locks `node` and `peers`; now the request waits for
`peer_connections` and the poll for `node`. -/
theorem deadlock_of_poll_and_status :
    ∃ s, (State.init pollAndStatus.trace).run [.main, .main, .main, .rpc 0, .rpc 0] = some s ∧
      s.Deadlocked := by
  refine ⟨_, (Option.some_get (by decide +kernel)).symm, .main, ?_⟩
  refine .tail (b := .rpc 0) (.single ?_) ?_
  · exact State.waitsFor_of_head (l := .node) (by decide +kernel) (by decide +kernel)
  · exact State.waitsFor_of_head (l := .peerConnections) (by decide +kernel) (by decide +kernel)

end Service.Locks

end PaqusNode
