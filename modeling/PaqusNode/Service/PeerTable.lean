import PaqusNode.Base.Retain
import PaqusNode.Service.Peers

/-!
# PaqusNode.Service.PeerTable

What holds of the peer table in every run of the service, from the start-up
checks on (`main.rs`, `p2p.rs`).  Nobody but the configuration, the gateway
and other peers puts an address into the table, and only the configuration
can put the node's own there; a peer that has failed is asked again before
long, since the third failure in a row removes it.
-/

namespace PaqusNode

open Network

namespace Service

variable {P : Paqus} {A : Type} [Ord A] [Std.TransOrd A] [Std.LawfulEqOrd A] [DecidableEq A]

/-! ## The start -/

/-- `dedupe_peers`. -/
def dedupePeers (peers : List A) : List A := Retain.firsts peers

/-- The peers that `run_node` starts with: those of the configuration and of
the peers file, cut to `max_peers`. -/
def startPeers (config : RunConfig A) (loaded : List A) : RunConfig A :=
  { config with peers := (dedupePeers (config.peers ++ loaded)).take config.maxPeers }

namespace NodeService

/-- What `preflight` does to the table: `polls` says at which instant a peer is
polled and what the poll gives. -/
def preflightPeers (parse : String → Option A) (s : NodeService P A) (now : Nat)
    (answer : Except String (List PeerInfo)) (polls : A → Nat × Except String PeerPoll) :
    NodeService P A :=
  let s := s.refreshGatewayPeers parse now answer
  s.peers.keys.foldl
    (fun s peer => s.recordPreflight (polls peer).1 peer (polls peer).2) s

end NodeService

/-! ## One entry -/

/-- An entry at the instant `now`, where `Heard` are the addresses that others
have told. -/
structure Kept (config : RunConfig A) (Heard : A → Prop) (now : Nat) (addr : A)
    (state : PeerState A) : Prop where
  keyed : state.addr = addr
  failures : state.failures < maxPeerFailures
  due : state.nextAttempt ≤ now + defaultSyncInterval
  origin : addr ∈ config.peers ∨
    Heard addr ∧ addr ∉ config.publicAddrs ∧ addr ∉ config.listenAddrs

variable {config : RunConfig A} {Heard : A → Prop} {now t : Nat} {addr : A}
  {state : PeerState A}

omit [Ord A] [Std.TransOrd A] [Std.LawfulEqOrd A] [DecidableEq A] in
theorem Kept.markOk (h : Kept config Heard now addr state) (tip : Option UInt64)
    (ht : t ≤ now) : Kept config Heard now addr (state.markOk tip t) where
  keyed := h.keyed
  failures := show 0 < maxPeerFailures by decide
  due := Nat.add_le_add_right ht _
  origin := h.origin

omit [Ord A] [Std.TransOrd A] [Std.LawfulEqOrd A] [DecidableEq A] in
/-- Fewer than three failures never make the node wait longer than a
successful poll does. -/
theorem Kept.markFailed (h : Kept config Heard now addr state) (ht : t ≤ now)
    (hfailures : (state.markFailed t).failures < maxPeerFailures) :
    Kept config Heard now addr (state.markFailed t) := by
  refine ⟨h.keyed, hfailures, ?_, h.origin⟩
  simp only [PeerState.markFailed, maxPeerFailures] at hfailures ⊢
  have hshift : min (min (state.failures + 1) (2 ^ 32 - 1) - 1) 5 ≤ 1 := by omega
  have hpow : 2 ^ min (min (state.failures + 1) (2 ^ 32 - 1) - 1) 5 ≤ 2 ^ 1 :=
    Nat.pow_le_pow_right (by decide) hshift
  simp only [peerRetryBase, peerRetryMax, defaultSyncInterval]
  omega

/-! ## The table -/

/-- The table at the instant `now`. -/
structure WellKept (config : RunConfig A) (Heard : A → Prop) (now : Nat)
    (peers : BTreeMap A (PeerState A)) : Prop where
  entry : ∀ {addr : A} {state}, peers[addr]? = some state → Kept config Heard now addr state
  size : peers.size ≤ config.maxPeers

variable {peers known current : BTreeMap A (PeerState A)}

/-- Changing or removing one entry. -/
theorem WellKept.alter (h : WellKept config Heard now peers) (addr : A)
    {f : Option (PeerState A) → Option (PeerState A)} (hnone : f none = none)
    (hf : ∀ {old new}, peers[addr]? = some old → f (some old) = some new →
      Kept config Heard now addr new) : WellKept config Heard now (peers.alter addr f) := by
  have hlookup : ∀ {k state}, (peers.alter addr f)[k]? = some state →
      ∃ old, peers[k]? = some old ∧ (k = addr ∧ f (some old) = some state ∨ old = state) := by
    intro k state hstate
    rw [BTreeMap.getElem?_alter_eq] at hstate
    split at hstate
    · next heq =>
        subst heq
        cases hold : peers[addr]? with
        | none =>
            rw [hold, hnone] at hstate
            cases hstate
        | some old => exact ⟨old, rfl, .inl ⟨rfl, hold ▸ hstate⟩⟩
    · exact ⟨state, hstate, .inr rfl⟩
  constructor
  · intro k state hstate
    obtain ⟨old, hold, ⟨rfl, hnew⟩ | rfl⟩ := hlookup hstate
    · exact hf hold hnew
    · exact h.entry hold
  · refine Nat.le_trans (BTreeMap.size_le_of_isSome fun k hk => ?_) h.size
    obtain ⟨state, hstate⟩ := Option.isSome_iff_exists.mp hk
    obtain ⟨old, hold, -⟩ := hlookup hstate
    rw [hold]
    rfl

/-- The addresses in a list of peers. -/
def Names (parse : String → Option A) (infos : List PeerInfo) (addr : A) : Prop :=
  ∃ info ∈ infos, parse info.address = some addr

/-- **What others tell enters the table**: new entries for addresses other than
the node's own. -/
theorem getElem?_addInfos {parse : String → Option A} {infos : List PeerInfo}
    (h : (NodeService.addInfos parse config known t infos current)[addr]? = some state) :
    current[addr]? = some state ∨ state = .new addr t ∧ Names parse infos addr ∧
      addr ∉ config.publicAddrs ∧ addr ∉ config.listenAddrs := by
  induction infos generalizing current with
  | nil => exact .inl h
  | cons info rest ih =>
      have hlater : Names parse rest addr → Names parse (info :: rest) addr :=
        fun ⟨info', hmem, hparse⟩ => ⟨info', List.mem_cons_of_mem _ hmem, hparse⟩
      have hrest : ∀ {current : BTreeMap A (PeerState A)},
          (NodeService.addInfos parse config known t rest current)[addr]? = some state →
          current[addr]? = some state ∨ state = .new addr t ∧ Names parse (info :: rest) addr ∧
            addr ∉ config.publicAddrs ∧ addr ∉ config.listenAddrs :=
        fun h => (ih h).imp_right fun ⟨hnew, hnames, hown⟩ => ⟨hnew, hlater hnames, hown⟩
      unfold NodeService.addInfos at h
      split at h
      · exact .inl h
      split at h
      · exact hrest h
      next told hparse =>
      split at h
      · exact hrest h
      next hown =>
      split at h
      · exact hrest h
      rcases hrest h with hold | hnew
      · rw [BTreeMap.getElem?_insert_eq] at hold
        split at hold
        · next heq =>
            subst heq
            rw [not_or] at hown
            exact .inr ⟨(Option.some.inj hold).symm, ⟨info, List.mem_cons_self, hparse⟩, hown⟩
        · exact .inl hold
      · exact .inr hnew

omit [Std.LawfulEqOrd A] in
/-- The loop stops at the limit. -/
theorem size_addInfos_le (parse : String → Option A) (infos : List PeerInfo)
    (hsize : current.size ≤ config.maxPeers) :
    (NodeService.addInfos parse config known t infos current).size ≤ config.maxPeers := by
  induction infos generalizing current with
  | nil => exact hsize
  | cons info rest ih =>
      unfold NodeService.addInfos
      split
      · exact hsize
      next hroom =>
      split
      · exact ih hsize
      next told _ =>
      split
      · exact ih hsize
      split
      · exact ih hsize
      · refine ih ?_
        have hle := Std.ExtTreeMap.size_insert_le (t := current) (k := told) (v := .new told t)
        omega

/-- Peers that are heard of keep the table well kept. -/
theorem WellKept.addInfos {parse : String → Option A} (known : BTreeMap A (PeerState A))
    (ht : t ≤ now) (infos : List PeerInfo) (hheard : ∀ a, Names parse infos a → Heard a)
    (h : WellKept config Heard now current) :
    WellKept config Heard now (NodeService.addInfos parse config known t infos current) := by
  refine ⟨fun hstate => ?_, size_addInfos_le parse infos h.size⟩
  rcases getElem?_addInfos hstate with hold | ⟨rfl, hnames, hown⟩
  · exact h.entry hold
  · exact ⟨rfl, show 0 < maxPeerFailures by decide, Nat.le_trans ht (Nat.le_add_right _ _),
      .inr ⟨hheard _ hnames, hown⟩⟩

/-! ## Runs -/

/-- The peers that an event tells of. -/
def Event.infos : Event P A → List PeerInfo
  | .gateway (.ok infos) => infos
  | .peers infos => infos
  | _ => []

/-- The event belongs to the main loop or a stream, not to `preflight`. -/
def Event.IsLoop : Event P A → Prop
  | .preflightPoll _ _ => False
  | _ => True

namespace NodeService

variable {parse : String → Option A} {s : NodeService P A}

omit [Std.LawfulEqOrd A] in
/-- Asking the gateway leaves the configuration alone. -/
theorem refreshGatewayPeers_config (answer : Except String (List PeerInfo)) :
    (s.refreshGatewayPeers parse t answer).config = s.config := by
  unfold refreshGatewayPeers
  split
  · rfl
  split
  · rfl
  · cases answer <;> rfl

omit [Std.LawfulEqOrd A] in
theorem step_config (event : Event P A) : (s.step parse t event).config = s.config := by
  cases event with
  | poll peer result => cases result <;> rfl
  | preflightPoll peer result => cases result <;> rfl
  | gateway answer => exact refreshGatewayPeers_config answer
  | peers infos => rfl
  | node node => rfl

/-- The gateway is a source of addresses like any other. -/
theorem refreshGatewayPeers_wellKept {answer : Except String (List PeerInfo)} (ht : t ≤ now)
    (hheard : ∀ infos, answer = .ok infos → ∀ a, Names parse infos a → Heard a)
    (h : WellKept s.config Heard now s.peers) :
    WellKept s.config Heard now (s.refreshGatewayPeers parse t answer).peers := by
  unfold refreshGatewayPeers
  split
  · exact h
  split
  · exact h
  cases answer with
  | error e => exact h
  | ok infos => exact h.addInfos s.peers ht infos (hheard infos rfl)

/-- **One event of the loop keeps the table in order.** -/
theorem step_wellKept {event : Event P A} (hloop : event.IsLoop) (ht : t ≤ now)
    (hheard : ∀ a, Names parse event.infos a → Heard a)
    (h : WellKept s.config Heard now s.peers) :
    WellKept s.config Heard now (s.step parse t event).peers := by
  cases event with
  | poll peer result =>
      cases result with
      | ok poll =>
          refine h.alter peer rfl fun {old new} hold hnew => ?_
          cases hnew
          exact (h.entry hold).markOk _ ht
      | error e =>
          refine h.alter peer rfl fun {old new} hold hnew => ?_
          simp only [Option.bind_some] at hnew
          split at hnew
          · cases hnew
          · next hfew =>
              cases hnew
              exact (h.entry hold).markFailed ht (Nat.lt_of_not_le hfew)
  | preflightPoll peer result => exact absurd hloop id
  | gateway answer =>
      refine refreshGatewayPeers_wellKept ht ?_ h
      rintro infos rfl
      exact hheard
  | peers infos => exact h.addInfos s.peers ht infos hheard
  | node node => exact h

/-- **A run keeps it in order.** -/
theorem run_wellKept {events : List (Nat × Event P A)}
    (hevents : ∀ event ∈ events, event.2.IsLoop ∧ event.1 ≤ now ∧
      ∀ a, Names parse event.2.infos a → Heard a)
    (hconfig : s.config = config) (h : WellKept config Heard now s.peers) :
    WellKept config Heard now (s.run parse events).peers := by
  induction events generalizing s with
  | nil => exact h
  | cons event rest ih =>
      obtain ⟨hloop, ht, hheard⟩ := hevents event List.mem_cons_self
      refine ih (fun later hmem => hevents later (List.mem_cons_of_mem _ hmem))
        ((step_config event.2).trans hconfig) ?_
      subst hconfig
      exact step_wellKept hloop ht hheard h

/-! ## The start-up checks -/

/-- What a poll makes of the entry of a peer. -/
def polled (t : Nat) (result : Except String PeerPoll) (state : PeerState A) : PeerState A :=
  match result with
  | .ok poll => state.markOk (some poll.remoteTip) t
  | .error _ => state.markFailed t

omit [Std.LawfulEqOrd A] [DecidableEq A] in
theorem recordPreflight_peers (peer : A) (result : Except String PeerPoll) :
    (s.recordPreflight t peer result).peers = s.peers.alter peer (·.map (polled t result)) := by
  cases result <;> rfl

omit [Std.LawfulEqOrd A] [DecidableEq A] in
theorem recordPreflight_config (peer : A) (result : Except String PeerPoll) :
    (s.recordPreflight t peer result).config = s.config := by
  cases result <;> rfl

/-- The peers in `rest` have not been polled yet. -/
def Unpolled (rest : List A) (peers : BTreeMap A (PeerState A)) : Prop :=
  ∀ {addr : A} {state}, addr ∈ rest → peers[addr]? = some state → state.failures = 0

/-- The first poll of a peer. -/
theorem recordPreflight_wellKept {peer : A} (result : Except String PeerPoll) (ht : t ≤ now)
    (hnew : ∀ {state}, s.peers[peer]? = some state → state.failures = 0)
    (h : WellKept config Heard now s.peers) :
    WellKept config Heard now (s.recordPreflight t peer result).peers := by
  rw [recordPreflight_peers]
  refine h.alter peer rfl fun {old new} hold hpolled => ?_
  cases hpolled
  cases result with
  | ok poll => exact (h.entry hold).markOk _ ht
  | error e =>
      refine (h.entry hold).markFailed ht ?_
      simp only [PeerState.markFailed, hnew hold]
      decide

/-- Polling each peer once leaves nobody with more than one failure. -/
theorem preflight_wellKept {polls : A → Nat × Except String PeerPoll}
    (hpolls : ∀ a, (polls a).1 ≤ now) {rest : List A} (hnodup : rest.Nodup)
    (hunpolled : Unpolled rest s.peers) (h : WellKept config Heard now s.peers) :
    WellKept config Heard now (rest.foldl
      (fun s peer => s.recordPreflight (polls peer).1 peer (polls peer).2) s).peers := by
  induction rest generalizing s with
  | nil => exact h
  | cons peer rest ih =>
      obtain ⟨hpeer, hrest⟩ := List.nodup_cons.mp hnodup
      refine ih hrest ?_ (recordPreflight_wellKept _ (hpolls peer)
        (hunpolled List.mem_cons_self) h)
      intro addr state hmem hstate
      have hne : peer ≠ addr := fun heq => hpeer (heq ▸ hmem)
      rw [recordPreflight_peers, BTreeMap.getElem?_alter_eq, if_neg hne] at hstate
      exact hunpolled (List.mem_cons_of_mem _ hmem) hstate

/-- The table at the start: each configured peer, none of them polled. -/
theorem getElem?_new {node : Node P} (h : (new node config t).peers[addr]? = some state) :
    addr ∈ config.peers ∧ state = .new addr t := by
  rcases BTreeMap.exists_of_getElem?_foldl_insert id _ h with ⟨peer, hpeer, rfl, rfl⟩ | hnone
  · exact ⟨hpeer, rfl⟩
  · simp at hnone

/-- The table that the service starts with is well kept. -/
theorem new_wellKept (node : Node P) (hsize : config.peers.length ≤ config.maxPeers)
    (ht : t ≤ now) : WellKept config Heard now (new node config t).peers := by
  constructor
  · intro addr state hstate
    obtain ⟨hmem, rfl⟩ := getElem?_new hstate
    exact ⟨rfl, show 0 < maxPeerFailures by decide, Nat.le_trans ht (Nat.le_add_right _ _),
      .inl hmem⟩
  · have hsub : (new node config t).peers.keys ⊆ config.peers := by
      intro addr hmem
      obtain ⟨state, hstate⟩ := Option.isSome_iff_exists.mp (BTreeMap.mem_keys_iff.mp hmem)
      exact (getElem?_new hstate).1
    have hlen := ((BTreeMap.nodup_keys _).subperm hsub).length_le
    rw [Std.ExtTreeMap.length_keys] at hlen
    exact Nat.le_trans hlen hsize

omit [Std.LawfulEqOrd A] in
/-- The preflight leaves the configuration alone. -/
theorem preflightPeers_config (answer : Except String (List PeerInfo))
    (polls : A → Nat × Except String PeerPoll) :
    (s.preflightPeers parse t answer polls).config = s.config := by
  have hfold : ∀ (rest : List A) (s : NodeService P A), (rest.foldl
      (fun s peer => s.recordPreflight (polls peer).1 peer (polls peer).2) s).config =
        s.config := by
    intro rest
    induction rest with
    | nil => exact fun _ => rfl
    | cons peer rest ih =>
        exact fun s => (ih _).trans (recordPreflight_config peer _)
  exact (hfold _ _).trans (refreshGatewayPeers_config answer)

/-- `preflight` as a whole. -/
theorem preflightPeers_wellKept {answer : Except String (List PeerInfo)}
    {polls : A → Nat × Except String PeerPoll} (ht : t ≤ now) (hpolls : ∀ a, (polls a).1 ≤ now)
    (hheard : ∀ infos, answer = .ok infos → ∀ a, Names parse infos a → Heard a)
    (hnew : ∀ {addr : A} {state}, s.peers[addr]? = some state → state.failures = 0)
    (hconfig : s.config = config) (h : WellKept config Heard now s.peers) :
    WellKept config Heard now (s.preflightPeers parse t answer polls).peers := by
  subst hconfig
  refine preflight_wellKept hpolls (BTreeMap.nodup_keys _) ?_
    (refreshGatewayPeers_wellKept ht hheard h)
  intro addr state _ hstate
  unfold refreshGatewayPeers at hstate
  split at hstate
  · exact hnew hstate
  split at hstate
  · exact hnew hstate
  cases answer with
  | error e => exact hnew hstate
  | ok infos =>
      rcases getElem?_addInfos hstate with hold | ⟨rfl, -⟩
      · exact hnew hold
      · rfl

end NodeService

omit [Ord A] [Std.TransOrd A] [Std.LawfulEqOrd A] in
theorem startPeers_length (config : RunConfig A) (loaded : List A) :
    (startPeers config loaded).peers.length ≤ (startPeers config loaded).maxPeers :=
  List.length_take_le _ _

/-- **The peer table is well kept in every run.**  Start the service with any
configuration and peers file, let the gateway and the peers answer whatever
they like, and let the loop and the streams interleave in any way: at each
instant `now` the table has at most `max_peers` entries; each is filed under
its own address, has failed fewer than `MAX_PEER_FAILURES` times in a row and
is due within `DEFAULT_SYNC_INTERVAL`, so that the cap of the back-off is
never reached; and its address is one of the start, or has been told by
somebody and is not one of the node's own. -/
theorem peer_table_well_kept (parse : String → Option A) (node : Node P) (config : RunConfig A)
    (loaded : List A) {start now : Nat} (hstart : start ≤ now)
    (answer : Except String (List PeerInfo)) {polls : A → Nat × Except String PeerPoll}
    (hpolls : ∀ a, (polls a).1 ≤ now) {events : List (Nat × Event P A)}
    (hevents : ∀ event ∈ events, event.2.IsLoop ∧ event.1 ≤ now) :
    WellKept (startPeers config loaded)
      (fun addr => (∃ infos, answer = .ok infos ∧ Names parse infos addr) ∨
        ∃ event ∈ events, Names parse event.2.infos addr) now
      (((NodeService.new node (startPeers config loaded) start).preflightPeers parse start answer
        polls).run parse events).peers := by
  refine NodeService.run_wellKept ?_ (NodeService.preflightPeers_config answer polls)
    (NodeService.preflightPeers_wellKept hstart hpolls ?_ ?_ rfl
      (NodeService.new_wellKept node (startPeers_length config loaded) hstart))
  · intro event hmem
    obtain ⟨hloop, ht⟩ := hevents event hmem
    exact ⟨hloop, ht, fun a hnames => .inr ⟨event, hmem, hnames⟩⟩
  · exact fun infos hanswer a hnames => .inl ⟨infos, hanswer, hnames⟩
  · intro addr state hstate
    rw [(NodeService.getElem?_new hstate).2]
    rfl

end Service

namespace Reference

/-- Two configured peers and one from the file; another peer tells of itself,
of a known peer and of the node, and one peer does not answer. -/
def toldEvents : List (Nat × Service.Event paqus Nat) :=
  [(10, .peers [⟨"9"⟩, ⟨"7"⟩, ⟨"1"⟩]), (20, .poll 7 (.error "connect failed")),
    (30, .poll 7 (.error "connect failed"))]

end Reference

/-- The service with the peers 7 and 8 hears of 9. -/
theorem Service.peer_table_well_kept_of_told :
    Service.WellKept (Service.startPeers { Reference.peerConfig with publicAddrs := [1] } [8, 7])
      (fun addr => (∃ infos, Except.error "no gateway" = Except.ok (ε := String) infos ∧
          Service.Names String.toNat? infos addr) ∨
        ∃ event ∈ Reference.toldEvents, Service.Names String.toNat? event.2.infos addr) 30
      (((Service.NodeService.new Reference.genesisNode
        (Service.startPeers { Reference.peerConfig with publicAddrs := [1] } [8, 7])
        0).preflightPeers String.toNat? 0 (.error "no gateway")
          fun _ => (0, .error "connect failed")).run String.toNat? Reference.toldEvents).peers :=
  peer_table_well_kept String.toNat? Reference.genesisNode _ [8, 7] (by decide) _ (by simp) (by
    intro event hmem
    simp only [Reference.toldEvents, List.mem_cons, List.not_mem_nil, or_false] at hmem
    rcases hmem with rfl | rfl | rfl
    all_goals exact ⟨trivial, by decide⟩)

end PaqusNode
