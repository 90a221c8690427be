import PaqusNode.Network.Message
import PaqusNode.Node.Open

/-!
# PaqusNode.Service.Peers

The peer table of the running service and the gate it puts before mining
(`main.rs`, `p2p.rs`).  A peer enters the table from the configuration, from
the gateway or from another peer, and leaves it after three failed polls.
Whether mining has to wait is read off the table as it is at the moment, so
a table that has run empty says the same as one that was never needed.
-/

namespace PaqusNode

open Network

namespace Service

/-! ## Peers -/

/-- `MAX_PEER_FAILURES`. -/
def maxPeerFailures : Nat := 3

/-- `DEFAULT_SYNC_INTERVAL`, in seconds. -/
def defaultSyncInterval : Nat := 5

/-- `PEER_RETRY_BASE`, in seconds. -/
def peerRetryBase : Nat := 2

/-- `PEER_RETRY_MAX`, in seconds. -/
def peerRetryMax : Nat := 60

/-- What the service knows of the peer at a socket address; instants are
seconds of the monotonic clock. -/
structure PeerState (A : Type) where
  addr : A
  failures : Nat
  nextAttempt : Nat
  lastTip : Option UInt64

/-- How a successful poll ends. -/
inductive PeerPoll where
  | idle (remoteTip : UInt64)
  | synced (remoteTip : UInt64)
deriving DecidableEq, Repr

def PeerPoll.remoteTip : PeerPoll → UInt64
  | idle remoteTip => remoteTip
  | synced remoteTip => remoteTip

namespace PeerState

variable {A : Type}

/-- `PeerState::new`. -/
def new (addr : A) (now : Nat) : PeerState A := ⟨addr, 0, now, none⟩

/-- `mark_ok`. -/
def markOk (state : PeerState A) (tip : Option UInt64) (now : Nat) : PeerState A :=
  { state with failures := 0, lastTip := tip, nextAttempt := now + defaultSyncInterval }

/-- `mark_failed`: the wait doubles with every failure, up to a minute. -/
def markFailed (state : PeerState A) (now : Nat) : PeerState A :=
  let failures := min (state.failures + 1) (2 ^ 32 - 1)
  let shift := min (failures - 1) 5
  { state with
    failures := failures
    nextAttempt := now + min (peerRetryBase * 2 ^ shift) peerRetryMax }

end PeerState

/-! ## The service -/

/-- The part of `RunConfig` that peers and mining depend on; the rest is added
where the configuration is read. -/
structure RunConfig (A : Type) where
  mine : Bool
  peers : List A
  gatewayUrl : Option String
  publicAddrs : List A
  listenAddrs : List A
  maxPeers : Nat
deriving DecidableEq

structure NodeService (P : Paqus) (A : Type) [Ord A] where
  node : Node P
  config : RunConfig A
  peers : BTreeMap A (PeerState A)
  requiresPeerSyncBeforeMining : Bool

variable {P : Paqus} {A : Type} [Ord A]

/-- When `NodeService::new` turns the gate on. -/
def RunConfig.requiresPeerSync (config : RunConfig A) : Bool :=
  config.mine && (!config.peers.isEmpty || config.gatewayUrl.isSome)

namespace NodeService

variable [Std.TransOrd A]

/-- `NodeService::new`. -/
def new (node : Node P) (config : RunConfig A) (now : Nat) : NodeService P A where
  node := node
  config := config
  peers := config.peers.foldl (fun peers addr => peers.insert addr (.new addr now)) ∅
  requiresPeerSyncBeforeMining := config.requiresPeerSync

/-- The loop of `add_peer_infos_to`, `known` being the table before it. -/
def addInfos [DecidableEq A] (parse : String → Option A) (config : RunConfig A)
    (known : BTreeMap A (PeerState A)) (now : Nat) :
    List PeerInfo → BTreeMap A (PeerState A) → BTreeMap A (PeerState A)
  | [], current => current
  | info :: rest, current =>
      if config.maxPeers ≤ current.size then current
      else
        match parse info.address with
        | none => addInfos parse config known now rest current
        | some addr =>
            if addr ∈ config.publicAddrs ∨ addr ∈ config.listenAddrs then
              addInfos parse config known now rest current
            else if known.contains addr ∨ current.contains addr then
              addInfos parse config known now rest current
            else addInfos parse config known now rest (current.insert addr (.new addr now))

/-- `add_peer_infos`. -/
def addPeerInfos [DecidableEq A] (parse : String → Option A) (s : NodeService P A) (now : Nat)
    (infos : List PeerInfo) : NodeService P A :=
  { s with peers := addInfos parse s.config s.peers now infos s.peers }

/-- A poll that succeeded is recorded, if the peer is still in the table. -/
def recordSuccess (s : NodeService P A) (now : Nat) (peer : A) (poll : PeerPoll) :
    NodeService P A :=
  { s with peers := s.peers.alter peer fun state =>
      state.map fun state => state.markOk (some poll.remoteTip) now }

/-- What `sync_peers` records of the poll of one peer. -/
def recordPoll (s : NodeService P A) (now : Nat) (peer : A) : Except String PeerPoll →
    NodeService P A
  | .ok poll => s.recordSuccess now peer poll
  | .error _ =>
      { s with peers := s.peers.alter peer fun state =>
          state.bind fun state =>
            let state := state.markFailed now
            if maxPeerFailures ≤ state.failures then none else some state }

/-- What `preflight` records of it: nobody is dropped yet. -/
def recordPreflight (s : NodeService P A) (now : Nat) (peer : A) : Except String PeerPoll →
    NodeService P A
  | .ok poll => s.recordSuccess now peer poll
  | .error _ =>
      { s with peers := s.peers.alter peer fun state =>
          state.map fun state => state.markFailed now }

/-- `refresh_gateway_peers`, `answer` being what the gateway returns if it is
asked. -/
def refreshGatewayPeers [DecidableEq A] (parse : String → Option A) (s : NodeService P A)
    (now : Nat) (answer : Except String (List PeerInfo)) : NodeService P A :=
  if s.config.gatewayUrl.isNone then s
  else if s.config.maxPeers - s.peers.size = 0 then s
  else
    match answer with
    | .error _ => s
    | .ok infos => s.addPeerInfos parse now infos

/-! ## The gate -/

/-- `needs_peer_handshake_before_mining`. -/
def needsPeerHandshakeBeforeMining (s : NodeService P A) : Bool :=
  if !s.requiresPeerSyncBeforeMining then false
  else !s.peers.isEmpty && !(s.peers.valuesList.any fun peer => peer.lastTip.isSome)

/-- `peer_ahead_of_local_tip`. -/
def peerAheadOfLocalTip (s : NodeService P A) : Bool :=
  let localHeight := (P.ledger.tipHeight s.node.ledger).getD 0
  (s.peers.valuesList.filterMap PeerState.lastTip).any fun height => decide (localHeight < height)

/-- `mining_wait_reason`. -/
def miningWaitReason (s : NodeService P A) : Option String :=
  if s.node.hasPendingSyncWork then some "sync_pending"
  else if s.needsPeerHandshakeBeforeMining then some "handshake_pending"
  else if s.peerAheadOfLocalTip then some "peer_ahead"
  else none

end NodeService

/-! ## Runs -/

/-- What happens to the table and to the node while the service runs; each is
one critical section of the main loop or of a stream thread. -/
inductive Event (P : Paqus) (A : Type)
  | poll (peer : A) (result : Except String PeerPoll)
  | preflightPoll (peer : A) (result : Except String PeerPoll)
  | gateway (answer : Except String (List PeerInfo))
  /-- A `Peers` message, sent on a stream or as the answer to `GetPeers`. -/
  | peers (infos : List PeerInfo)
  /-- Whatever anybody does to the node. -/
  | node (node : Node P)

/-- The event is a poll that succeeded. -/
def Event.IsSuccess : Event P A → Prop
  | .poll _ (.ok _) => True
  | .preflightPoll _ (.ok _) => True
  | _ => False

namespace NodeService

variable [Std.TransOrd A] [DecidableEq A] (parse : String → Option A)

/-- One event at the instant `now`. -/
def step (s : NodeService P A) (now : Nat) : Event P A → NodeService P A
  | .poll peer result => s.recordPoll now peer result
  | .preflightPoll peer result => s.recordPreflight now peer result
  | .gateway answer => s.refreshGatewayPeers parse now answer
  | .peers infos => s.addPeerInfos parse now infos
  | .node node => { s with node := node }

/-- A run of the service. -/
def run (s : NodeService P A) (events : List (Nat × Event P A)) : NodeService P A :=
  events.foldl (fun s event => s.step parse event.1 event.2) s

/-- One of the polls of the run has succeeded. -/
def Polled (events : List (Nat × Event P A)) : Prop := ∃ event ∈ events, event.2.IsSuccess

/-! ## Tips come from polls only -/

variable [Std.LawfulEqOrd A]

/-- No peer in the table has told its tip. -/
def NoTips (peers : BTreeMap A (PeerState A)) : Prop :=
  ∀ (addr : A) (state), peers[addr]? = some state → state.lastTip = none

omit parse [Std.TransOrd A] [DecidableEq A] [Std.LawfulEqOrd A] in
theorem noTips_empty [Std.TransOrd A] : NoTips (∅ : BTreeMap A (PeerState A)) := by
  intro addr state hstate
  simp at hstate

omit parse in
/-- A new peer has no tip. -/
theorem NoTips.insert {peers : BTreeMap A (PeerState A)} (h : NoTips peers) (addr : A)
    (now : Nat) : NoTips (peers.insert addr (.new addr now)) := by
  intro k state hstate
  rw [BTreeMap.getElem?_insert_eq] at hstate
  split at hstate
  · cases hstate
    rfl
  · exact h k state hstate

omit parse in
/-- Changing one entry without learning a tip. -/
theorem NoTips.alter {peers : BTreeMap A (PeerState A)} (h : NoTips peers) (addr : A)
    {f : Option (PeerState A) → Option (PeerState A)}
    (hf : ∀ {old new}, f (some old) = some new → new.lastTip = old.lastTip)
    (hnone : f none = none) : NoTips (peers.alter addr f) := by
  intro k state hstate
  rw [BTreeMap.getElem?_alter_eq] at hstate
  split at hstate
  · cases hold : peers[addr]? with
    | none =>
        rw [hold, hnone] at hstate
        cases hstate
    | some old =>
        rw [hold] at hstate
        rw [hf hstate, h addr old hold]
  · exact h k state hstate

/-- Peers that were only heard of have no tip. -/
theorem NoTips.addInfos (config : RunConfig A) (known : BTreeMap A (PeerState A)) (now : Nat)
    (infos : List PeerInfo) {current : BTreeMap A (PeerState A)} (h : NoTips current) :
    NoTips (addInfos parse config known now infos current) := by
  induction infos generalizing current with
  | nil => exact h
  | cons info rest ih =>
      unfold NodeService.addInfos
      split
      · exact h
      split
      · exact ih h
      split
      · exact ih h
      split
      · exact ih h
      · exact ih (h.insert _ now)

omit parse in
/-- Nor have those that the service starts with. -/
theorem noTips_new (node : Node P) (config : RunConfig A) (now : Nat) :
    NoTips (new node config now).peers := by
  have hfold : ∀ (addrs : List A) (peers : BTreeMap A (PeerState A)), NoTips peers →
      NoTips (addrs.foldl (fun peers addr => peers.insert addr (.new addr now)) peers) := by
    intro addrs
    induction addrs with
    | nil => exact fun _ h => h
    | cons addr rest ih => exact fun peers h => ih _ (h.insert addr now)
  exact hfold config.peers ∅ noTips_empty

/-- **An event other than a successful poll teaches no tip.** -/
theorem NoTips.step {s : NodeService P A} (h : NoTips s.peers) (now : Nat) {event : Event P A}
    (hevent : ¬ event.IsSuccess) : NoTips (s.step parse now event).peers := by
  cases event with
  | poll peer result =>
      cases result with
      | ok poll => exact absurd trivial hevent
      | error e =>
          refine h.alter peer ?_ rfl
          intro old new hnew
          simp only [Option.bind_some] at hnew
          split at hnew
          · cases hnew
          · cases hnew
            rfl
  | preflightPoll peer result =>
      cases result with
      | ok poll => exact absurd trivial hevent
      | error e =>
          refine h.alter peer ?_ rfl
          intro old new hnew
          cases hnew
          rfl
  | gateway answer =>
      simp only [NodeService.step, refreshGatewayPeers]
      split
      · exact h
      split
      · exact h
      cases answer with
      | error e => exact h
      | ok infos => exact h.addInfos parse s.config s.peers now infos
  | peers infos => exact h.addInfos parse s.config s.peers now infos
  | node node => exact h

/-- **Without a poll, no tip is ever known.** -/
theorem NoTips.run {s : NodeService P A} (h : NoTips s.peers) {events : List (Nat × Event P A)}
    (hevents : ¬ Polled events) : NoTips (s.run parse events).peers := by
  induction events generalizing s with
  | nil => exact h
  | cons event rest ih =>
      refine ih (h.step parse event.1 ?_) ?_
      · exact fun hsuccess => hevents ⟨event, List.mem_cons_self, hsuccess⟩
      · rintro ⟨later, hmem, hsuccess⟩
        exact hevents ⟨later, List.mem_cons_of_mem _ hmem, hsuccess⟩

omit [Std.LawfulEqOrd A] in
/-- The gate stays as it was set. -/
theorem run_requires (s : NodeService P A) (events : List (Nat × Event P A)) :
    (s.run parse events).requiresPeerSyncBeforeMining = s.requiresPeerSyncBeforeMining := by
  induction events generalizing s with
  | nil => rfl
  | cons event rest ih =>
      refine (ih _).trans ?_
      obtain ⟨now, event⟩ := event
      cases event with
      | poll peer result => cases result <;> rfl
      | preflightPoll peer result => cases result <;> rfl
      | gateway answer =>
          simp only [step, refreshGatewayPeers]
          split
          · rfl
          split
          · rfl
          cases answer <;> rfl
      | peers infos => rfl
      | node node => rfl

/-! ## What the gate says before the first successful poll -/

omit parse [DecidableEq A] in
/-- Without a tip in the table only pending work and a non-empty table keep
the gate shut. -/
theorem miningWaitReason_of_noTips {s : NodeService P A} (h : NoTips s.peers)
    (hgate : s.requiresPeerSyncBeforeMining = true) :
    s.miningWaitReason = none ↔
      s.node.hasPendingSyncWork = false ∧ s.peers.isEmpty = true := by
  have hnone : ∀ state ∈ s.peers.valuesList, state.lastTip = none := by
    intro state hstate
    obtain ⟨addr, haddr⟩ := BTreeMap.mem_valuesList.mp hstate
    exact h addr state haddr
  have hany : (s.peers.valuesList.any fun peer => peer.lastTip.isSome) = false := by
    rw [List.any_eq_false]
    intro state hstate
    rw [hnone state hstate]
    simp
  have hahead : s.peerAheadOfLocalTip = false := by
    unfold peerAheadOfLocalTip
    rw [List.filterMap_eq_nil_iff.mpr hnone]
    rfl
  unfold miningWaitReason needsPeerHandshakeBeforeMining
  simp only [hgate, Bool.not_true, Bool.false_eq_true, if_false, hany, Bool.not_false,
    Bool.and_true, hahead]
  cases s.node.hasPendingSyncWork <;> cases s.peers.isEmpty <;> simp

/-- **When the gate holds.**  In every run of a service that gates mining by
peer sync, mining is allowed only after a successful poll exactly if, until a
poll has succeeded, there is sync work pending or a peer in the table
whenever the gate is asked. -/
theorem mining_gate_iff (node : Node P) {config : RunConfig A}
    (hgate : config.requiresPeerSync = true) (now : Nat) (events : List (Nat × Event P A)) :
    (((new node config now).run parse events).miningWaitReason = none → Polled events) ↔
      (¬ Polled events →
        ((new node config now).run parse events).node.hasPendingSyncWork = true ∨
          ((new node config now).run parse events).peers.isEmpty = false) := by
  by_cases hpolled : Polled events
  · simp [hpolled]
  have hreason := miningWaitReason_of_noTips ((noTips_new node config now).run parse hpolled)
    ((run_requires parse _ events).trans hgate)
  rw [hreason]
  simp only [hpolled, imp_false, not_false_eq_true, forall_const, not_and,
    Bool.not_eq_true]
  cases ((new node config now).run parse events).node.hasPendingSyncWork <;> simp

end NodeService

end Service

namespace Reference

/-- A miner with one peer, whose address is a number. -/
def peerConfig : Service.RunConfig Nat where
  mine := true
  peers := [7]
  gatewayUrl := none
  publicAddrs := []
  listenAddrs := []
  maxPeers := 8

/-- A miner that only has a gateway. -/
def gatewayConfig : Service.RunConfig Nat :=
  { peerConfig with peers := [], gatewayUrl := some "gateway:80" }

/-- The peer does not answer `n` times. -/
def failedPolls (n : Nat) : List (Nat × Service.Event paqus Nat) :=
  (List.range n).map fun i => (60 * i, .poll 7 (.error "connect failed"))

theorem failedPolls_not_polled (n : Nat) : ¬ Service.NodeService.Polled (failedPolls n) := by
  rintro ⟨event, hevent, hsuccess⟩
  obtain ⟨i, -, rfl⟩ := List.mem_map.mp hevent
  exact hsuccess

/-- The service of the miner with one peer after `n` failed polls. -/
def failedService (n : Nat) : Service.NodeService paqus Nat :=
  (Service.NodeService.new genesisNode peerConfig 0).run String.toNat? (failedPolls n)

end Reference

namespace Service.NodeService

/-- After two failed polls the peer is still in the table, and the gate waits
for it. -/
theorem mining_gate_of_failed_polls :
    Reference.peerConfig.requiresPeerSync = true ∧
      ((Reference.failedService 2).miningWaitReason = none → Polled (Reference.failedPolls 2)) :=
  ⟨by decide,
    (mining_gate_iff String.toNat? Reference.genesisNode (by decide) 0
      (Reference.failedPolls 2)).mpr fun _ => .inr (by decide +kernel)⟩

/-- **The gate opens without any successful poll**: when the third failure has
dropped the only peer, and when the gateway knows no peer. -/
theorem mining_without_poll :
    (Reference.peerConfig.requiresPeerSync = true ∧
      (Reference.failedService 3).miningWaitReason = none ∧
      ¬ Polled (Reference.failedPolls 3)) ∧
    (Reference.gatewayConfig.requiresPeerSync = true ∧
      ((new Reference.genesisNode Reference.gatewayConfig 0).run String.toNat?
        [(0, .gateway (.ok []))]).miningWaitReason = none ∧
      ¬ Polled (P := Reference.paqus) (A := Nat) [(0, .gateway (.ok []))]) := by
  refine ⟨⟨by decide, by decide +kernel, Reference.failedPolls_not_polled 3⟩, by decide,
    by decide +kernel, ?_⟩
  rintro ⟨event, hevent, hsuccess⟩
  rw [List.mem_singleton.mp hevent] at hsuccess
  exact hsuccess

end Service.NodeService

end PaqusNode
