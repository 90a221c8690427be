import PaqusNode.Node.Deliver
import PaqusNode.Node.Redelivery
import PaqusNode.P2p
import PaqusNode.Service.Peers

/-!
# PaqusNode.P2p.Poll

One round with a peer (`p2p.rs`): greet it, ask for its tip, and fetch the
blocks above the own tip one height after the other.  The round follows the
peer's chain by height only; that the blocks arrive at the tip rests on the
peer's chain continuing the node's own.  Then the parent of every fetched
block is known, no block waits in the orphan pool, and the last one, being
heavier than all the node knows, takes the ledger with it.
-/

namespace PaqusNode

open Network Service

/-! ## Parts of a list -/

theorem mem_take_of_getElem? {α : Type} {g b : α} {branch : List α} {k : Nat}
    (h : (g :: branch)[k]? = some b) : b ∈ g :: branch.take k := by
  rw [← List.take_succ_cons]
  exact List.mem_of_getElem? (by rw [List.getElem?_take_of_lt (Nat.lt_succ_self k), h])

/-- Longer parts of a list sum up to more, if every item adds something. -/
theorem sum_take_lt {α : Type} {work : α → Nat} (hpos : ∀ b, 0 < work b) (bs : List α)
    {j k : Nat} (hjk : j < k) (hk : k ≤ bs.length) :
    ((bs.take j).map work).sum < ((bs.take k).map work).sum := by
  induction k with
  | zero => omega
  | succ k ih =>
      have hb := List.getElem?_eq_getElem (show k < bs.length by omega)
      rw [List.take_add_one, hb, Option.toList_some, List.map_append, List.sum_append,
        List.map_singleton, List.sum_singleton]
      have := hpos (bs[k])
      rcases Nat.lt_succ_iff_lt_or_eq.mp hjk with hlt | rfl
      · have := ih hlt (by omega)
        omega
      · omega

/-! ## The code -/

/-- `MAX_BLOCKS_PER_SYNC`. -/
def maxBlocksPerSync : UInt64 := 64

/-- A peer connection during one call: what the peer answers to a request, by
the number of the request, and whether a message without an answer goes out. -/
structure PeerConnection (P : Paqus) where
  request : Nat → Message P → Except String (Message P)
  send : Message P → Except String Unit

/-- Why a round failed; the source formats these as texts. -/
inductive PollError where
  /-- What `peer.request` returned. -/
  | request (error : String)
  /-- What `peer.send` returned. -/
  | send (error : String)
  /-- `peer returned incompatible version: ..`. -/
  | incompatible (reason : RejectReason)
  /-- `peer rejected handshake: ..`. -/
  | rejected (reason : RejectReason) (message : String)
  /-- `peer returned unexpected handshake response`. -/
  | unexpectedHandshake
  /-- `peer returned unexpected tip response`. -/
  | unexpectedTip
  /-- `peer did not return block at height ..`. -/
  | notABlock (height : UInt64)
  /-- `failed to apply block .. from ..`. -/
  | apply (height : UInt64) (error : NodeError)
  /-- `failed to flush synced block`. -/
  | flush (error : NodeError)
  /-- What `request_missing_parent_blocks` returned. -/
  | missingParents (error : RequestError)
deriving DecidableEq, Repr

/-- The heights `first..=last`. -/
def heightRange (first last : UInt64) : List UInt64 :=
  (List.range' first.toNat (last.toNat + 1 - first.toNat)).map UInt64.ofNat

/-- The last height that a round fetches. -/
def syncTarget (localHeight tip : UInt64) : UInt64 :=
  min tip (satAdd localHeight maxBlocksPerSync)

/-- The heights that a round fetches. -/
def syncHeights (localHeight tip : UInt64) : List UInt64 :=
  heightRange (satAdd localHeight 1) (syncTarget localHeight tip)

/-- Saturation does not show, since the tip is a height itself. -/
theorem toNat_syncTarget (localHeight tip : UInt64) :
    (syncTarget localHeight tip).toNat =
      min tip.toNat (localHeight.toNat + maxBlocksPerSync.toNat) := by
  have hsat := toNat_satAdd localHeight maxBlocksPerSync
  have htip := tip.toNat_lt
  change (if tip ≤ satAdd localHeight maxBlocksPerSync then tip
    else satAdd localHeight maxBlocksPerSync).toNat = _
  split
  · next hle =>
      rw [UInt64.le_iff_toNat_le] at hle
      omega
  · next hlt =>
      rw [UInt64.not_le, UInt64.lt_iff_toNat_lt] at hlt
      omega

/-- The heights asked for run from the next one to the target, without a gap. -/
theorem syncHeights_eq {localHeight tip : UInt64} (h : localHeight < tip) :
    syncHeights localHeight tip =
      (List.range' (localHeight.toNat + 1)
        ((syncTarget localHeight tip).toNat - localHeight.toNat)).map UInt64.ofNat := by
  have hsat := toNat_satAdd localHeight 1
  have htip := tip.toNat_lt
  rw [UInt64.lt_iff_toNat_lt] at h
  rw [show (1 : UInt64).toNat = 1 from rfl] at hsat
  have hfirst : (satAdd localHeight 1).toNat = localHeight.toNat + 1 := by omega
  unfold syncHeights heightRange
  rw [hfirst, Nat.add_sub_add_right]

namespace Node

variable {P : Paqus}

/-- `handshake_peer`, `publicAddrs` being the addresses as they are printed. -/
def handshakePeer (params : ChainParams) (peer : PeerConnection P) (publicAddrs : List String)
    (s : Node P) : Except PollError Unit :=
  match peer.request 0 (.version (.ofLocal params (localTip s))) with
  | .error e => .error (.request e)
  | .ok (.verAck remote) =>
      match remote.validateCompatibility params with
      | .error reason => .error (.incompatible reason)
      | .ok () =>
          if publicAddrs.isEmpty then .ok ()
          else (peer.send (.peers (publicAddrs.map PeerInfo.mk))).mapError .send
  | .ok (.reject reason message) => .error (.rejected reason message)
  | .ok _ => .error .unexpectedHandshake

/-- `request_tip`. -/
def requestTip (peer : PeerConnection P) : Except PollError UInt64 :=
  match peer.request 1 .getTip with
  | .error e => .error (.request e)
  | .ok (.tip tip) => .ok tip.height
  | .ok _ => .error .unexpectedTip

/-- `request_block`, `reply` being what the peer answers. -/
def requestBlock (env : Env) (s : Node P) (height : UInt64)
    (reply : Except String (Message P)) : Node P × Except PollError Unit :=
  match reply with
  | .error e => (s, .error (.request e))
  | .ok (.block block) =>
      match s.applyBlock env block with
      | (s, .error e) => (s, .error (.apply height e))
      | (s, .ok ()) =>
          match s.flushToStorage env with
          | (s, .error e) => (s, .error (.flush e))
          | (s, .ok ()) => (s, .ok ())
  | .ok _ => (s, .error (.notABlock height))

/-- The loop of `poll_peer_connection`; `i` counts the requests. -/
def requestBlocks (env : Env) (peer : PeerConnection P) (s : Node P) (i : Nat) :
    List UInt64 → Node P × Except PollError Unit
  | [] => (s, .ok ())
  | height :: rest =>
      match s.requestBlock env height (peer.request i (.getBlockByHeight height)) with
      | (s, .error e) => (s, .error e)
      | (s, .ok ()) => requestBlocks env peer s (i + 1) rest

/-- `request_missing_parent_blocks` over a connection whose next request has
the number `i`. -/
def pollMissingParents (env : Env) (peer : PeerConnection P) (s : Node P) (i : Nat) :
    Node P × Except RequestError Bool :=
  let hashes := (s.drainMissingParentRequests env).2
  s.requestMissingParentBlocks env fun j =>
    (peer.request (i + j) (.getBlockByHash (hashes.getD j 0))).map fun
      | .block block => .block block
      | _ => .other

/-- `poll_peer_connection`. -/
def pollPeerConnection (params : ChainParams) (env : Env) (peer : PeerConnection P)
    (publicAddrs : List String) (s : Node P) : Node P × Except PollError PeerPoll :=
  match handshakePeer params peer publicAddrs s with
  | .error e => (s, .error e)
  | .ok () =>
  match requestTip peer with
  | .error e => (s, .error e)
  | .ok tip =>
  let localHeight := (P.ledger.tipHeight s.ledger).getD 0
  if tip ≤ localHeight then
    match s.pollMissingParents env peer 2 with
    | (s, .error e) => (s, .error (.missingParents e))
    | (s, .ok requested) => (s, .ok (if requested then .synced tip else .idle tip))
  else
    let heights := syncHeights localHeight tip
    match s.requestBlocks env peer 2 heights with
    | (s, .error e) => (s, .error e)
    | (s, .ok ()) =>
        match s.pollMissingParents env peer (2 + heights.length) with
        | (s, .error e) => (s, .error (.missingParents e))
        | (s, .ok _) => (s, .ok (.synced tip))

/-! ## Peers -/

/-- Whatever the peer answers to the requests of a round comes from the active
chain of `ledger`. -/
structure ServesChain (peer : PeerConnection P) (ledger : P.Ledger) : Prop where
  tip : ∀ {i : Nat} {tip : TipInfo}, peer.request i .getTip = .ok (.tip tip) →
    P.ledger.tipHeight ledger = some tip.height
  block : ∀ {i : Nat} {height : UInt64} {block : P.Block},
    peer.request i (.getBlockByHeight height) = .ok (.block block) →
    ledger.chain.blocks[height]? = some block

/-- The connection to a peer that runs this code and is in the state `q`; a
message that it does not answer is waited for in vain. -/
def connectionTo (params : ChainParams) (env : Env) (q : Node P) : PeerConnection P where
  request _ message :=
    match (handleMessage params env q message).2 with
    | .ok (some reply) => .ok reply
    | _ => .error "receive failed: timed out"
  send _ := .ok ()

/-- What is read from the connection is what the other node answers. -/
theorem request_connectionTo {params : ChainParams} {env : Env} {q : Node P} {i : Nat}
    {message reply : Message P}
    (h : (connectionTo params env q).request i message = .ok reply) :
    (handleMessage params env q message).2 = .ok (some reply) := by
  simp only [connectionTo] at h
  split at h
  · next hanswer =>
      cases h
      exact hanswer
  · cases h

/-- A peer that runs this code serves the chain of its ledger. -/
theorem connectionTo_servesChain (params : ChainParams) (env : Env) (q : Node P) :
    ServesChain (connectionTo params env q) q.ledger where
  tip {i tip} hreply := by
    have hanswer := request_connectionTo hreply
    simp only [handleMessage, Except.ok.injEq, Option.map_eq_some_iff, Message.tip.injEq,
      exists_eq_right] at hanswer
    unfold localTip at hanswer
    split at hanswer
    · next height hash hheight _ =>
        cases hanswer
        exact hheight
    · cases hanswer
  block {i height block} hreply := by
    have hanswer := request_connectionTo hreply
    simpa only [handleMessage, Except.ok.injEq, Option.map_eq_some_iff, Message.block.injEq,
      exists_eq_right] using hanswer

/-- The chain `g :: branch` of `ledger` continues the active chain of the node,
and its blocks are valid on it. -/
structure Ahead (s : Node P) (ledger : P.Ledger) (g : P.Block) (branch : List P.Block) :
    Prop where
  replayed : replay s.genesisAccounts g branch = .ok ledger
  state_root : ∀ {i : Nat} {b : P.Block} {before : P.Ledger}, branch[i]? = some b →
    replay s.genesisAccounts g (branch.take i) = .ok before →
    validateCanonicalStateRoot before b = .ok ()
  continues : ∀ {height : UInt64} {b : P.Block}, s.ledger.chain.blocks[height]? = some b →
    ledger.chain.blocks[height]? = some b
  header : ∀ b ∈ branch, HeaderValid b ∧ P.block.hash b ≠ P.block.hash g

/-! ## Nothing waits -/

theorem hasPendingSyncWork_eq_false {s : Node P} : s.hasPendingSyncWork = false ↔
    s.orphanBlocks = ∅ ∧ s.missingParentRequests = [] ∧ s.missingParentRetryAt = ∅ := by
  simp [hasPendingSyncWork, and_assoc]

/-- Pruning creates no work. -/
theorem pruneOrphansNow_pending (env : Env) {s : Node P} (h : s.hasPendingSyncWork = false) :
    (s.pruneOrphansNow env).hasPendingSyncWork = false := by
  obtain ⟨hpool, hqueue, hretry⟩ := hasPendingSyncWork_eq_false.mp h
  obtain ⟨hqueue', -, hretry', -⟩ := pruneOrphansNow_requests env s
  refine hasPendingSyncWork_eq_false.mpr ⟨?_, hqueue'.trans hqueue, hretry'.trans hretry⟩
  refine Std.ExtTreeMap.ext_getElem? fun k => ?_
  cases horphan : (s.pruneOrphansNow env).orphanBlocks[k]? with
  | none => simp
  | some orphan =>
      have hold := getElem?_of_pruneOrphansNow horphan
      simp [hpool] at hold

/-- With no orphan in the pool the worklist has nothing to connect. -/
theorem processOrphansForParent_pending (env : Env) {s : Node P}
    (h : s.hasPendingSyncWork = false) (hash : BlockHash) :
    OnlySync s (s.processOrphansForParent env hash) ∧
      (s.processOrphansForParent env hash).hasPendingSyncWork = false := by
  refine (processParents_moves env (s.pruneOrphansNow env) [hash]).invariant
    (fun w => OnlySync s w.node ∧ w.node.hasPendingSyncWork = false) ?_
    ⟨pruneOrphansNow_onlySync env s, pruneOrphansNow_pending env h⟩
  rintro w w' ⟨hsync, hidle⟩ hmove
  have hgone : ∀ {child : BlockHash} {orphan : OrphanBlock P},
      w.node.orphanBlocks[child]? ≠ some orphan := by
    simp [(hasPendingSyncWork_eq_false.mp hidle).1]
  cases hmove with
  | leaf hnone => exact ⟨hsync, hidle⟩
  | visit hsome =>
      exact ⟨hsync.trans ⟨rfl, rfl, rfl, rfl, rfl, rfl, rfl, rfl, Nat.le_refl _⟩, hidle⟩
  | gone hnone => exact ⟨hsync, hidle⟩
  | connected hsome _ => exact absurd hsome hgone
  | cached hsome _ => exact absurd hsome hgone
  | dropped hsome _ => exact absurd hsome hgone

/-- With no request in the queue no parent is asked for. -/
theorem pollMissingParents_idle (env : Env) (peer : PeerConnection P) {s : Node P}
    (h : s.hasPendingSyncWork = false) (i : Nat) :
    s.pollMissingParents env peer i = (s.tick, .ok false) := by
  obtain ⟨-, hqueue, -⟩ := hasPendingSyncWork_eq_false.mp h
  have hdrain : s.drainMissingParentRequests env = (s.tick, []) := by
    simp only [drainMissingParentRequests, drainMissingParentRequestsAt, tick, hqueue, drainLoop]
  simp only [pollMissingParents, requestMissingParentBlocks, hdrain, requestHashes,
    List.isEmpty_nil, Bool.not_true]

/-! ## One block -/

section Laws

variable (hfc : ForkChoiceLaws P) (hchain : ChainLaws P)

include hfc hchain in
/-- **Every way a block can end that applies to its branch**: rejected with an
error that `apply_block` passes on, known already, or connected. -/
theorem Applies.applyKnownParentBlock_cases (env : Env) {s : Node P} {r : BlockHash}
    {block p : P.Block} {parent child : P.Ledger} (h : Applies s block parent child)
    (hs : Synced s r)
    (hp : (indexed s.forkChoice).item (P.block.previousHash block) = some p) :
    (∃ e, s.applyKnownParentBlock env block = (s.tick, .error e) ∧
        e ≠ .forkChoice .missingParent ∧ e ≠ .forkChoice .duplicateBlock ∧
        e ≠ .ledger .duplicateBlock) ∨
      ((P.forkChoice.get s.forkChoice (P.block.hash block)).isSome ∧
        s.applyKnownParentBlock env block = (s.tick, .error (.forkChoice .duplicateBlock))) ∨
      ∃ forkChoice,
        P.forkChoice.insertBlock s.forkChoice block = .ok (P.block.hash block, forkChoice) ∧
        Connected env { s.tick with forkChoice := forkChoice } block (P.block.hash block) child
          (s.applyKnownParentBlock env block) := by
  have hstate := h.validateBlockStateForKnownParent hs
  have hparent := get_of_indexed hfc hp
  unfold applyKnownParentBlock
  cases hvalid : s.validateBlockForKnownParent (env.clock s.io) block with
  | error e =>
      refine .inl ⟨e, rfl, ?_⟩
      rcases validateBlockForKnownParent_error hfc hparent hvalid with ⟨error, rfl⟩ | rfl | rfl
      all_goals exact ⟨nofun, nofun, nofun⟩
  | ok u =>
      split at hstate
      · rw [hstate]
        cases hinsert : P.forkChoice.insertBlock s.forkChoice block with
        | error e =>
            have hmissing : e ≠ .missingParent := by
              rintro rfl
              rw [(hfc.insert_missing hinsert).2] at hparent
              cases hparent
            by_cases hduplicate : e = .duplicateBlock
            · subst hduplicate
              exact .inr (.inl ⟨hfc.insert_duplicate hinsert, rfl⟩)
            · exact .inl ⟨_, rfl, by simpa using hmissing, by simpa using hduplicate, nofun⟩
        | ok result =>
            obtain ⟨hash, forkChoice⟩ := result
            obtain rfl := (hfc.insert_ok hinsert).1
            have hacc := h.accepted hfc hchain hs hinsert
            exact .inr (.inr ⟨forkChoice, rfl, connect_connected hfc env hs hstate hinsert hacc⟩)
      · rw [hstate]
        exact .inl ⟨_, rfl, nofun, nofun, nofun⟩

/-- What a block that applies leaves behind when nothing fails: no change if it
is known already, and otherwise it is in the index and, as the best tip, has
taken the ledger with it. -/
inductive Taken (s s' : Node P) (block : P.Block) (child : P.Ledger) : Prop
  | known (hknown : (P.forkChoice.get s.forkChoice (P.block.hash block)).isSome)
      (hsame : s'.forkChoice = s.forkChoice)
  | new (hinsert : P.forkChoice.insertBlock s.forkChoice block =
        .ok (P.block.hash block, s'.forkChoice))
      (hledger : (P.forkChoice.bestTip s'.forkChoice).map ForkNode.hash =
        some (P.block.hash block) → s'.ledger = child)

include hfc hchain in
/-- **What `apply_block` does to a block that applies**, if it succeeds and
nothing waits. -/
theorem Applies.taken {env : Env} {s s' : Node P} {r : BlockHash} {block p : P.Block}
    {parent child : P.Ledger} (h : Applies s block parent child) (hs : Synced s r)
    (hp : (indexed s.forkChoice).item (P.block.previousHash block) = some p)
    (hidle : s.hasPendingSyncWork = false) (hok : s.applyBlock env block = (s', .ok ())) :
    s'.hasPendingSyncWork = false ∧ Taken s s' block child := by
  have hprune := pruneOrphansNow_onlySync env s
  have hidle' := pruneOrphansNow_pending env hidle
  have hframe := applyKnownParentBlock_onlyChain env (s.pruneOrphansNow env) block
  have happlies : Applies (s.pruneOrphansNow env) block parent child :=
    ⟨by rw [hprune.forkChoice, hprune.genesisAccounts, h.parent_replay], h.state_root, h.apply⟩
  have hnoerror : ∀ {e}, ((s.pruneOrphansNow env).applyKnownParentBlock env block).2 = .error e →
      ¬(e ≠ .forkChoice .missingParent ∧ e ≠ .forkChoice .duplicateBlock ∧
        e ≠ .ledger .duplicateBlock) := by
    intro e herror hreported
    have hfail := applyBlock_eq_error.mpr ⟨herror, hreported⟩
    rw [hok] at hfail
    cases hfail
  rcases happlies.applyKnownParentBlock_cases hfc hchain env
      (hs.congr hprune.ledger hprune.forkChoice hprune.genesisAccounts)
      (by rwa [hprune.forkChoice]) with
    ⟨e, hrejected, hreported⟩ | ⟨hknown, hduplicate⟩ | ⟨forkChoice, hinsert, hconn⟩
  · exact absurd hreported (hnoerror (by rw [hrejected]))
  · unfold applyBlock at hok
    simp only [hduplicate, Prod.mk.injEq, and_true] at hok
    subst hok
    rw [hprune.forkChoice] at hknown
    exact ⟨hidle', .known hknown hprune.forkChoice⟩
  · obtain ⟨hfork, -, -, -, hledger⟩ := hconn.fields
    rcases hresult : (s.pruneOrphansNow env).applyKnownParentBlock env block with ⟨s₁, e | u⟩
    · obtain ⟨error, rfl⟩ := hconn.error_storage (by rw [hresult])
      exact absurd ⟨nofun, nofun, nofun⟩ (hnoerror (e := .storage error) (by rw [hresult]))
    · simp only [hresult] at hframe hfork hledger
      unfold applyBlock at hok
      simp only [hresult, Prod.mk.injEq, and_true] at hok
      have hidle₁ : s₁.hasPendingSyncWork = false := by
        simpa only [hasPendingSyncWork, hframe.orphanBlocks, hframe.missingParentRequests,
          hframe.missingParentRetryAt] using hidle'
      obtain ⟨hsync, hidle₂⟩ := processOrphansForParent_pending env hidle₁ (P.block.hash block)
      subst hok
      refine ⟨hidle₂, .new ?_ fun hbest => ?_⟩
      · rw [hsync.forkChoice, hfork, ← hprune.forkChoice]
        exact hinsert
      · rw [hsync.forkChoice, hfork] at hbest
        rw [hsync.ledger]
        rcases hledger with ⟨-, hne⟩ | ⟨hmoved, -⟩
        · exact absurd hbest hne
        · exact hmoved

/-- A fetched block has been applied and written. -/
theorem requestBlock_ok {env : Env} {s s' : Node P} {height : UInt64}
    {reply : Except String (Message P)} (h : s.requestBlock env height reply = (s', .ok ())) :
    ∃ block s₁, reply = .ok (.block block) ∧ s.applyBlock env block = (s₁, .ok ()) ∧
      s₁.flushToStorage env = (s', .ok ()) := by
  unfold requestBlock at h
  split at h
  · cases h
  · next block =>
      split at h
      · cases h
      next s₁ happly =>
      split at h
      · cases h
      next s₂ hflush =>
      cases h
      exact ⟨block, s₁, rfl, happly, hflush⟩
  · cases h

include hfc hchain in
/-- The same for `request_block`: the flush writes the database and changes
nothing else. -/
theorem Applies.requested {env : Env} {s s' : Node P} {r : BlockHash} {block p : P.Block}
    {parent child : P.Ledger} (h : Applies s block parent child) (hs : Synced s r)
    (hp : (indexed s.forkChoice).item (P.block.previousHash block) = some p)
    (hidle : s.hasPendingSyncWork = false) {height : UInt64}
    (hok : s.requestBlock env height (.ok (.block block)) = (s', .ok ())) :
    Steps env s s' ∧ s'.hasPendingSyncWork = false ∧ Taken s s' block child := by
  obtain ⟨_, s₁, hreply, happlied, hflush⟩ := requestBlock_ok hok
  cases hreply
  have hsteps := (applyBlock_steps env s block).tail (.save (s.applyBlock env block).1)
  rw [happlied, ← flushToStorage, hflush] at hsteps
  obtain ⟨storage, durable, hsave⟩ := saveLedger_fst env s₁
  rw [← flushToStorage, hflush] at hsave
  simp only at hsave
  subst hsave
  obtain ⟨hidle', htaken⟩ := h.taken hfc hchain hs hp hidle happlied
  refine ⟨hsteps, hidle', ?_⟩
  cases htaken with
  | known hknown hsame => exact .known hknown hsame
  | new hinsert hledger => exact .new hinsert hledger

/-! ## The loop -/

/-- A node that was `s₀` and has fetched the chain `g :: branch` up to the
height `k`. -/
structure Fetching (s₀ : Node P) (g : P.Block) (branch : List P.Block) (k : Nat) (s : Node P) :
    Prop where
  synced : Synced s (P.block.hash g)
  grown : Grown s₀ s
  pending : s.hasPendingSyncWork = false
  items : ∀ b ∈ g :: branch.take k, (indexed s.forkChoice).item (P.block.hash b) = some b
  origin : ∀ {hash : BlockHash} {b : P.Block}, (indexed s.forkChoice).item hash = some b →
    (indexed s₀.forkChoice).item hash = some b ∨ b ∈ branch.take k
  /-- If the block at height `k` is new and the best there is, the ledger is at it. -/
  tip : ∀ {b : P.Block}, (g :: branch)[k]? = some b →
    (indexed s₀.forkChoice).item (P.block.hash b) = none →
    (P.forkChoice.bestTip s.forkChoice).map ForkNode.hash = some (P.block.hash b) →
    P.ledger.tipHash s.ledger = some (P.block.hash b)

variable {s₀ s s' : Node P} {ledger : P.Ledger} {g : P.Block} {branch : List P.Block} {k : Nat}

include hchain in
/-- The height of a replayed ledger is the number of blocks replayed. -/
theorem replay_tipHeight {accounts : BTreeMap Address P.Account}
    (h : replay accounts g branch = .ok ledger) :
    ∃ height, P.ledger.tipHeight ledger = some height ∧ height.toNat = branch.length := by
  have hof := (chainOf_of_foldlM hchain (replay_chain hchain h)).1
  refine ⟨_, (replay_tip hchain h).2, hof.height ?_⟩
  rw [List.getLast_eq_getElem, ← List.getElem?_eq_getElem]
  rfl

include hchain in
theorem Ahead.chainOf (h : Ahead s ledger g branch) : ChainOf ledger.chain (g :: branch) :=
  (chainOf_of_foldlM hchain (replay_chain hchain h.replayed)).1

include hfc hchain in
/-- Before the first request the node has the chain up to its own tip. -/
theorem Ahead.start {r : BlockHash} (h : Ahead s ledger g branch) (hs : Synced s r)
    (hidle : s.hasPendingSyncWork = false) :
    ∃ height, P.ledger.tipHeight s.ledger = some height ∧
      Fetching s g branch height.toNat s := by
  obtain ⟨g', bs, rfl, hreplay, hitems⟩ := hs.chain hfc
  have hof := (chainOf_of_foldlM hchain (replay_chain hchain hreplay)).1
  have hstarts : g' :: bs <+: g :: branch := by
    refine List.prefix_iff_getElem?.mpr fun i hi => ?_
    have hb := List.getElem?_eq_getElem hi
    have hthere := h.continues (by rw [hof.lookup, hof.height hb, hb])
    rwa [(h.chainOf hchain).lookup, hof.height hb] at hthere
  obtain ⟨rfl, hbs⟩ := List.cons_prefix_cons.mp hstarts
  have htake : bs = branch.take bs.length := List.prefix_iff_eq_take.mp hbs
  obtain ⟨height, hheight, hlength⟩ := replay_tipHeight hchain hreplay
  refine ⟨height, hheight, ?_⟩
  rw [hlength]
  refine ⟨hs, .refl s, hidle, htake ▸ hitems, .inl, ?_⟩
  intro b hb hnone
  rw [hitems b (by rw [htake]; exact mem_take_of_getElem? hb)] at hnone
  cases hnone

include hchain in
/-- The fetched part of the chain is a branch of the index. -/
theorem Fetching.branch_take (hahead : Ahead s₀ ledger g branch)
    (h : Fetching s₀ g branch k s) {j : Nat} (hj : j ≤ k) {b : P.Block}
    (hb : (g :: branch)[j]? = some b) :
    (indexed s.forkChoice).Branch (P.block.hash g) (P.block.hash b) (branch.take j) := by
  obtain ⟨before, hbefore⟩ := replay_take hahead.replayed k
  have hof := (chainOf_of_foldlM hchain (replay_chain hchain hbefore)).1
  have hb' : (g :: branch.take k)[j]? = some b := by
    rw [← List.take_succ_cons, List.getElem?_take_of_lt (by omega), hb]
  have hbranch := branch_of_chainOf hof h.items hb'
  rwa [List.take_take, Nat.min_eq_left hj] at hbranch

/-- A hash stands for one block, on the chain and in the index of the node. -/
structure Unambiguous (s : Node P) (g : P.Block) (branch : List P.Block) : Prop where
  distinct : HashesDistinct (g :: branch)
  known : ∀ {b c : P.Block}, b ∈ g :: branch →
    (indexed s.forkChoice).item (P.block.hash b) = some c → b = c

include hfc in
/-- Hashes of valid blocks do not collide. -/
theorem Ahead.unambiguous (hhashes : HashLaws P) (h : Ahead s ledger g branch)
    (hendorsed : AllEndorsed s) (hs : Synced s (P.block.hash g))
    (hg : (indexed s.forkChoice).item (P.block.hash g) = some g) : Unambiguous s g branch where
  distinct b hb c hc hhash := by
    rcases List.mem_cons.mp hb with rfl | hb'
    · rcases List.mem_cons.mp hc with rfl | hc'
      · rfl
      · exact absurd hhash.symm (h.header c hc').2
    · rcases List.mem_cons.mp hc with rfl | hc'
      · exact absurd hhash (h.header b hb').2
      · exact hhashes.hash_inj (h.header b hb').1 (h.header c hc').1 hhash
  known {b c} hb hitem := by
    obtain rfl : P.genesisBlock = g := Option.some.inj ((hendorsed.root hs).symm.trans hg)
    rcases List.mem_cons.mp hb with rfl | hb'
    · exact Option.some.inj (hg.symm.trans hitem)
    have hhash := hash_of_indexed hfc hitem
    rcases hendorsed.index hitem with ⟨-, rfl⟩ | ⟨-, -, _, _, _, _, -, hvalid, -⟩
    · exact absurd hhash.symm (h.header b hb').2
    · exact hhashes.hash_inj (h.header b hb').1 (hvalid c (by simp)).1 hhash.symm

include hfc in
/-- The hash of a block of the chain stands for that block. -/
theorem Fetching.unique (hhash : Unambiguous s₀ g branch) (h : Fetching s₀ g branch k s)
    {b c : P.Block} (hb : b ∈ g :: branch)
    (hc : (indexed s.forkChoice).item (P.block.hash b) = some c) : b = c := by
  rcases h.origin hc with hold | hmem
  · exact hhash.known hb hold
  · exact hhash.distinct b hb c (List.mem_cons_of_mem _ (List.mem_of_mem_take hmem))
      (hash_of_indexed hfc hc).symm

include hchain in
/-- The block at height `k + 1` applies to the replay of the chain below it. -/
theorem Ahead.applies (h : Ahead s ledger g branch) {b : P.Block} (hb : branch[k]? = some b) :
    ∃ p before after, (g :: branch)[k]? = some p ∧ P.block.previousHash b = P.block.hash p ∧
      replay s.genesisAccounts g (branch.take k) = .ok before ∧
      validateCanonicalStateRoot before b = .ok () ∧
      P.ledger.applyBlock before b = .ok after := by
  have hof := h.chainOf hchain
  have hlt : k < (g :: branch).length := by
    have := (List.getElem?_eq_some_iff.mp hb).1
    rw [List.length_cons]
    omega
  have hp := List.getElem?_eq_getElem hlt
  have hb' : (g :: branch)[k + 1]? = some b := hb
  obtain ⟨after, hafter⟩ := replay_take h.replayed (k + 1)
  rw [List.take_add_one, hb, Option.toList_some] at hafter
  obtain ⟨before, hbefore, happly⟩ := replay_concat.mp hafter
  exact ⟨_, before, after, hp, hof.link hb' hp, hbefore, h.state_root hb hbefore, happly⟩

include hfc hchain in
/-- **One more block**: fetching the block at height `k + 1`. -/
theorem Fetching.step (hahead : Ahead s₀ ledger g branch) (hhash : Unambiguous s₀ g branch)
    (h : Fetching s₀ g branch k s) {env : Env} {height : UInt64} {b : P.Block}
    (hb : branch[k]? = some b)
    (hok : s.requestBlock env height (.ok (.block b)) = (s', .ok ())) :
    Fetching s₀ g branch (k + 1) s' := by
  obtain ⟨p, before, after, hp, hprevious, hbefore, hroot, happly⟩ := hahead.applies hchain hb
  have hmem : b ∈ g :: branch := List.mem_cons_of_mem _ (List.mem_of_getElem? hb)
  have happlies : Applies s b before after := by
    refine ⟨?_, hroot, happly⟩
    rw [hprevious, h.grown.genesisAccounts, ledgerForBranchTip_eq_ok hfc
      (h.branch_take hchain hahead (Nat.le_refl k) hp) (h.items g List.mem_cons_self)]
    exact hbefore
  obtain ⟨hsteps, hidle, htaken⟩ := happlies.requested hfc hchain h.synced
    (by rw [hprevious]; exact h.items p (mem_take_of_getElem? hp)) h.pending hok
  have hgrown := hsteps.grown hfc
  have htake : branch.take (k + 1) = branch.take k ++ [b] := by
    rw [List.take_add_one, hb, Option.toList_some]
  have hnew : (indexed s'.forkChoice).item (P.block.hash b) = some b := by
    cases htaken with
    | known hknown hsame =>
        obtain ⟨entry, hentry⟩ := Option.isSome_iff_exists.mp hknown
        have hitem := indexed_item_eq_some.mpr ⟨entry, hentry, rfl⟩
        rw [hsame, hitem, h.unique hfc hhash hmem hitem]
    | new hinsert _ => exact indexed_item_of_insert hfc hinsert
  refine ⟨hsteps.synced hfc hchain h.synced, h.grown.trans hgrown, hidle, ?_, ?_, ?_⟩
  · intro c hc
    rw [htake, ← List.cons_append, List.mem_append, List.mem_singleton] at hc
    rcases hc with hold | rfl
    · exact hgrown.index.item (h.items c hold)
    · exact hnew
  · intro hash c hc
    rw [htake, List.mem_append, List.mem_singleton]
    cases htaken with
    | known _ hsame =>
        rw [hsame] at hc
        exact (h.origin hc).imp_right .inl
    | new hinsert _ =>
        rw [indexed_insert hfc hinsert] at hc
        by_cases heq : P.block.hash b = hash
        · subst heq
          rw [Forest.insert_item_self, Option.some.injEq] at hc
          exact .inr (.inr hc.symm)
        · rw [Forest.insert_item_of_ne heq] at hc
          exact (h.origin hc).imp_right .inl
  · intro c hc hnone hbest
    obtain rfl : b = c := Option.some.inj (hb.symm.trans hc)
    cases htaken with
    | known _ hsame =>
        -- a block that is new to the node has not been fetched before
        rw [hsame] at hnew
        rcases h.origin hnew with hold | hfetched
        · rw [hnone] at hold
          cases hold
        · exact absurd (List.mem_cons_of_mem g hfetched)
            (by rw [← List.take_succ_cons]; exact (hahead.chainOf hchain).notMem_take hc)
    | new _ hmoved =>
        rw [hmoved hbest]
        exact (applyBlock_tip hchain happly).1

/-! ## The round -/

/-- A round of requests that succeeds has succeeded up to every height. -/
theorem requestBlocks_take {env : Env} {peer : PeerConnection P} {heights : List UInt64} {i : Nat}
    (hok : (s.requestBlocks env peer i heights).2 = .ok ()) (n : Nat) :
    (s.requestBlocks env peer i (heights.take n)).2 = .ok () := by
  induction heights generalizing s i n with
  | nil => simpa using hok
  | cons height rest ih =>
      cases n with
      | zero => rfl
      | succ n =>
          rw [List.take_succ_cons]
          simp only [requestBlocks] at hok ⊢
          rcases hone : s.requestBlock env height (peer.request i (.getBlockByHeight height)) with
            ⟨s₁, e | u⟩
          · simp only [hone] at hok
            cases hok
          · simp only [hone] at hok ⊢
            exact ih hok n

include hfc hchain in
/-- **The whole loop**: fetching the blocks at the heights `k + 1` to `k + n`. -/
theorem Fetching.run (hahead : Ahead s₀ ledger g branch) (hhash : Unambiguous s₀ g branch)
    {peer : PeerConnection P} (hserves : ServesChain peer ledger) {env : Env} (n : Nat) {i : Nat}
    (h : Fetching s₀ g branch k s) (hbound : k + n < 2 ^ 64)
    (hok : (s.requestBlocks env peer i
      ((List.range' (k + 1) n).map UInt64.ofNat)).2 = .ok ()) :
    Fetching s₀ g branch (k + n)
      (s.requestBlocks env peer i ((List.range' (k + 1) n).map UInt64.ofNat)).1 := by
  induction n generalizing s k i with
  | zero => exact h
  | succ n ih =>
      rw [List.range'_succ, List.map_cons] at hok ⊢
      simp only [requestBlocks] at hok ⊢
      rcases hone : s.requestBlock env (UInt64.ofNat (k + 1))
        (peer.request i (.getBlockByHeight (UInt64.ofNat (k + 1)))) with ⟨s₁, e | u⟩
      · simp only [hone] at hok
        cases hok
      simp only [hone] at hok ⊢
      obtain ⟨block, -, hreply, -, -⟩ := requestBlock_ok hone
      have hblock := hserves.block hreply
      have hheight : (UInt64.ofNat (k + 1)).toNat = k + 1 :=
        UInt64.toNat_ofNat_of_lt' (show k + 1 < 2 ^ 64 by omega)
      rw [(hahead.chainOf hchain).lookup, hheight, List.getElem?_cons_succ] at hblock
      rw [hreply] at hone
      have hrest := ih (h.step hfc hchain hahead hhash hblock hone) (by omega) hok
      rwa [show k + 1 + n = k + (n + 1) by omega] at hrest

include hfc hchain in
/-- The last fetched block is the best tip if the node knew only lighter ones. -/
theorem Fetching.bestTip {work : P.Block → Nat} {totalWork : P.ForkChoice → BlockHash → Nat}
    (hwork : WorkLaws P work totalWork) (hpos : ∀ b, 0 < work b)
    (hahead : Ahead s₀ ledger g branch) (h : Fetching s₀ g branch k s)
    (hrooted : (indexed s₀.forkChoice).Rooted (P.block.hash g))
    (hlighter : ∀ {hash entry}, P.forkChoice.get s₀.forkChoice hash = some entry →
      totalWork s₀.forkChoice hash < ((g :: branch.take k).map work).sum)
    {b : P.Block} (hb : (g :: branch)[k]? = some b) :
    (P.forkChoice.bestTip s.forkChoice).map ForkNode.hash = some (P.block.hash b) := by
  have hg := h.items g List.mem_cons_self
  have htotal : ∀ {j c}, j ≤ k → (g :: branch)[j]? = some c →
      totalWork s.forkChoice (P.block.hash c) = ((g :: branch.take j).map work).sum := by
    intro j c hj hc
    exact totalWork_eq hfc hwork (h.branch_take hchain hahead hj hc) hg
  obtain ⟨best, hbest, hmax⟩ :=
    hwork.bestTip_max (get_of_indexed hfc (h.items b (mem_take_of_getElem? hb)))
  rw [htotal (Nat.le_refl k) hb] at hmax
  have hentry := hfc.bestTip_get hbest
  rw [hbest, Option.map_some, Option.some.injEq]
  rcases h.origin (indexed_item_eq_some.mpr ⟨best, hentry, rfl⟩) with hold | hfetched
  · -- the node knew it: it is lighter
    obtain ⟨bs, hbranch⟩ := hrooted.branch hold
    obtain ⟨g', hg', -⟩ := hbranch.root_item
    obtain ⟨entry, hentry', -⟩ := indexed_item_eq_some.mp hold
    have hlight := hlighter hentry'
    rw [totalWork_eq hfc hwork hbranch hg',
      ← totalWork_eq hfc hwork (hbranch.mono h.grown.index) (h.grown.index.item hg')] at hlight
    omega
  · obtain ⟨j, hj⟩ := List.getElem?_of_mem hfetched
    have hjk : j < k := by
      have := (List.getElem?_eq_some_iff.mp hj).1
      rw [List.length_take] at this
      omega
    rw [List.getElem?_take_of_lt hjk] at hj
    have hhash := (hfc.get_entry hentry).2.1
    have hle : j + 1 ≤ k := hjk
    rcases Nat.lt_or_eq_of_le hle with hlt | heq
    · -- fetched before `b`: it is below it
      have hlength := (List.getElem?_eq_some_iff.mp hb).1
      have hless := sum_take_lt hpos (g :: branch) (Nat.succ_lt_succ hlt) (by omega)
      rw [← hhash, htotal hle hj] at hmax
      rw [List.take_succ_cons, List.take_succ_cons] at hless
      omega
    · subst heq
      rw [← hhash, Option.some.inj (hj.symm.trans hb)]

/-- The tip the peer reports is that of the chain it serves. -/
theorem requestTip_ok {peer : PeerConnection P} (hserves : ServesChain peer ledger) {tip : UInt64}
    (h : requestTip peer = .ok tip) : P.ledger.tipHeight ledger = some tip := by
  unfold requestTip at h
  split at h
  · cases h
  · next info hreply =>
      cases h
      exact hserves.tip hreply
  · cases h

/-- A round that ends well with a peer that is ahead has fetched all the blocks
it meant to. -/
theorem pollPeerConnection_ok {params : ChainParams} {env : Env} {peer : PeerConnection P}
    {publicAddrs : List String} {poll : PeerPoll} {height remote : UInt64}
    (hserves : ServesChain peer ledger) (hheight : P.ledger.tipHeight s.ledger = some height)
    (hremote : P.ledger.tipHeight ledger = some remote) (hlt : height < remote)
    (hpoll : s.pollPeerConnection params env peer publicAddrs = (s', .ok poll)) :
    poll = .synced remote ∧
      (s.requestBlocks env peer 2 (syncHeights height remote)).2 = .ok () ∧
      ∃ i, s' = ((s.requestBlocks env peer 2
        (syncHeights height remote)).1.pollMissingParents env peer i).1 := by
  unfold pollPeerConnection at hpoll
  split at hpoll
  · cases hpoll
  split at hpoll
  · cases hpoll
  next tip htip =>
  obtain rfl : remote = tip := Option.some.inj (hremote.symm.trans (requestTip_ok hserves htip))
  simp only [hheight, Option.getD_some, if_neg (UInt64.not_le.mpr hlt)] at hpoll
  split at hpoll
  · cases hpoll
  next s₁ hblocks =>
  rw [hblocks]
  split at hpoll
  · cases hpoll
  next s₂ _ hmissing =>
  cases hpoll
  exact ⟨rfl, rfl, _, (congrArg Prod.fst hmissing).symm⟩

include hfc hchain in
/-- A block of the chain above everything the node knows is new to it. -/
theorem Fetching.new {work : P.Block → Nat} {totalWork : P.ForkChoice → BlockHash → Nat}
    (hwork : WorkLaws P work totalWork) (hahead : Ahead s₀ ledger g branch)
    (hhash : Unambiguous s₀ g branch) (h : Fetching s₀ g branch k s)
    (hrooted : (indexed s₀.forkChoice).Rooted (P.block.hash g))
    (hlighter : ∀ {hash entry}, P.forkChoice.get s₀.forkChoice hash = some entry →
      totalWork s₀.forkChoice hash < ((g :: branch.take k).map work).sum)
    {b : P.Block} (hb : (g :: branch)[k]? = some b) :
    (indexed s₀.forkChoice).item (P.block.hash b) = none := by
  cases hitem : (indexed s₀.forkChoice).item (P.block.hash b) with
  | none => rfl
  | some c =>
      obtain ⟨entry, hentry, -⟩ := indexed_item_eq_some.mp hitem
      obtain ⟨bs, hbranch⟩ := hrooted.branch hitem
      obtain ⟨g', hg', -⟩ := hbranch.root_item
      obtain rfl : g = g' := hhash.known List.mem_cons_self hg'
      obtain ⟨-, rfl⟩ := (hbranch.mono h.grown.index).unique
        (h.branch_take hchain hahead (Nat.le_refl k) hb)
      have hlight := hlighter hentry
      rw [totalWork_eq hfc hwork hbranch hg'] at hlight
      exact absurd hlight (Nat.lt_irrefl _)

include hfc hchain in
/-- Where the ledger is after the last block. -/
theorem Fetching.caughtUp {work : P.Block → Nat} {totalWork : P.ForkChoice → BlockHash → Nat}
    (hwork : WorkLaws P work totalWork) (hpos : ∀ b, 0 < work b)
    (hahead : Ahead s₀ ledger g branch) (hhash : Unambiguous s₀ g branch)
    (h : Fetching s₀ g branch k s) (hrooted : (indexed s₀.forkChoice).Rooted (P.block.hash g))
    (hlighter : ∀ {hash entry}, P.forkChoice.get s₀.forkChoice hash = some entry →
      totalWork s₀.forkChoice hash < ((g :: branch.take k).map work).sum)
    {b : P.Block} (hb : (g :: branch)[k]? = some b) :
    TipOf s.ledger b ∧
      ∀ n : UInt64, n.toNat ≤ k → s.ledger.chain.blocks[n]? = ledger.chain.blocks[n]? := by
  have htip := h.tip hb (h.new hfc hchain hwork hahead hhash hrooted hlighter hb)
    (h.bestTip hfc hchain hwork hpos hahead hrooted hlighter hb)
  have hof := h.synced.chainOf hfc hchain htip
    (h.branch_take hchain hahead (Nat.le_refl k) hb) (h.items g List.mem_cons_self)
  constructor
  · obtain ⟨t, tip, -, htip', hheight, hitem, -⟩ := h.synced.tip hfc hchain
    obtain rfl : P.block.hash b = t := Option.some.inj (htip.symm.trans htip')
    obtain rfl : b = tip :=
      Option.some.inj ((h.items b (mem_take_of_getElem? hb)).symm.trans hitem)
    exact ⟨htip, hheight⟩
  · intro n hn
    rw [hof.lookup, (hahead.chainOf hchain).lookup, ← List.take_succ_cons,
      List.getElem?_take_of_lt (Nat.lt_succ_of_le hn)]

include hfc hchain in
/-- **One round with an honest peer that is ahead catches up.**  Let the node
be in any state it reaches over a database written by nodes, nothing waiting,
and let the peer serve a valid chain that continues the node's own from the
height `height` to `remote`.  If the round ends well, the tip of the node is
the peer's block at the height `height + MAX_BLOCKS_PER_SYNC`, or at `remote`
if that comes first, the chain below it is the peer's, and at no point of the
round did a block wait in the orphan pool; whatever the node knew before, as
long as it was lighter than that block. -/
theorem poll_catches_up (hrec : RecordLaws P) (hhashes : HashLaws P) {work : P.Block → Nat}
    {totalWork : P.ForkChoice → BlockHash → Nat} (hwork : WorkLaws P work totalWork)
    (hpos : ∀ b, 0 < work b) {db db' : Storage P} (hdb : Written (fun _ => True) db) {env : Env}
    {io : Nat} {consensus : Consensus} {opened : Node P}
    (hopen : initOrLoad env io db consensus = (db', .ok opened)) {operations : List (Operation P)}
    (hs : opened.runAll env operations = s) (hidle : s.hasPendingSyncWork = false)
    (hahead : Ahead s ledger g branch) {height remote : UInt64}
    (hheight : P.ledger.tipHeight s.ledger = some height)
    (hremote : P.ledger.tipHeight ledger = some remote) (hlt : height < remote)
    (hlighter : ∀ {hash entry}, P.forkChoice.get s.forkChoice hash = some entry →
      totalWork s.forkChoice hash < ((g :: branch.take
        (min remote.toNat (height.toNat + maxBlocksPerSync.toNat))).map work).sum)
    {peer : PeerConnection P} (hserves : ServesChain peer ledger) {params : ChainParams}
    {publicAddrs : List String} {poll : PeerPoll}
    (hpoll : s.pollPeerConnection params env peer publicAddrs = (s', .ok poll)) :
    poll = .synced remote ∧
      ∃ (target : UInt64) (tip : P.Block),
        target.toNat = min remote.toNat (height.toNat + maxBlocksPerSync.toNat) ∧
        ledger.chain.blocks[target]? = some tip ∧ TipOf s'.ledger tip ∧
        (∀ n ≤ target, s'.ledger.chain.blocks[n]? = ledger.chain.blocks[n]?) ∧
        s'.orphanBlocks = ∅ ∧
        ∀ n, (s.requestBlocks env peer 2 ((syncHeights height remote).take n)).1.orphanBlocks =
          ∅ := by
  obtain ⟨r, hreached, hendorsed⟩ :=
    allEndorsed_of_written hfc hchain hrec hdb hopen operations
  rw [hs] at hreached hendorsed
  obtain ⟨height', hheight', hstart⟩ := hahead.start hfc hchain hreached hidle
  obtain rfl : height = height' := Option.some.inj (hheight.symm.trans hheight')
  have hhash := hahead.unambiguous hfc hhashes hendorsed hstart.synced
    (hstart.items g List.mem_cons_self)
  obtain ⟨hsynced, hok, i, rfl⟩ := pollPeerConnection_ok hserves hheight hremote hlt hpoll
  have htarget := toNat_syncTarget height remote
  have hle := UInt64.lt_iff_toNat_lt.mp hlt
  have hbound := (syncTarget height remote).toNat_lt
  obtain ⟨remote', hremote', hlength⟩ := replay_tipHeight hchain hahead.replayed
  obtain rfl : remote = remote' := Option.some.inj (hremote.symm.trans hremote')
  have htip := List.getElem?_eq_getElem
    (show (syncTarget height remote).toNat < (g :: branch).length by
      rw [List.length_cons]
      omega)
  rw [← htarget] at hlighter
  rw [syncHeights_eq hlt] at hok ⊢
  have hend := hstart.run hfc hchain hahead hhash hserves _ (by omega) hok
  rw [show height.toNat + ((syncTarget height remote).toNat - height.toNat) =
    (syncTarget height remote).toNat by omega] at hend
  obtain ⟨htipOf, hbelow⟩ := hend.caughtUp hfc hchain hwork hpos hahead hhash
    hstart.synced.rooted hlighter htip
  rw [pollMissingParents_idle env peer hend.pending]
  refine ⟨hsynced, syncTarget height remote, _, htarget, ?_, htipOf, ?_, ?_, ?_⟩
  · rw [(hahead.chainOf hchain).lookup, htip]
  · intro n hn
    exact hbelow n (UInt64.le_iff_toNat_le.mp hn)
  · exact (hasPendingSyncWork_eq_false.mp hend.pending).1
  · intro n
    have hpart := requestBlocks_take hok n
    rw [← List.map_take, List.range'_eq_map_range, ← List.map_take, List.take_range,
      ← List.range'_eq_map_range] at hpart ⊢
    have hpart' := hstart.run hfc hchain hahead hhash hserves _ (by omega) hpart
    exact (hasPendingSyncWork_eq_false.mp hpart'.pending).1

include hfc hchain in
/-- The ledger is the replay of the blocks of its chain. -/
theorem Synced.replay_values {r : BlockHash} (hs : Synced s r)
    (hvalues : s.ledger.chain.blocks.valuesList = g :: branch) :
    replay s.genesisAccounts g branch = .ok s.ledger := by
  obtain ⟨g', branch', -, hreplay, -⟩ := hs.chain hfc
  rw [(chainOf_of_foldlM hchain (replay_chain hchain hreplay)).1.values] at hvalues
  cases hvalues
  exact hreplay

end Laws

end Node

namespace Reference

/-- A node with one block and a side block of the same weight. -/
def behindNode : Node (listing sideBranchWins) :=
  listedNode.runAll calm [.applyBlock (block 3 1 1 []), .applyBlock (block 2 1 1 [])]

/-- A node with one block more on the same chain. -/
def servingNode : Node (listing sideBranchWins) :=
  listedNode.runAll calm (sideBranchWins.map .applyBlock)

/-- The connection to `servingNode`. -/
def servingPeer : PeerConnection (listing sideBranchWins) :=
  Node.connectionTo ⟨1, 1, "", "", #v[0, 0, 0, 0]⟩ calm servingNode

theorem servingPeer_servesChain : Node.ServesChain servingPeer servingNode.ledger :=
  Node.connectionTo_servesChain _ _ _

theorem listing_workLaws (valid : List Block) :
    WorkLaws (listing valid) work fun index => totalWork index.blocks :=
  { workLaws with }

theorem listedNode_genesisAccounts (operations : List (Node.Operation (listing sideBranchWins))) :
    (listedNode.runAll calm operations).genesisAccounts = listedNode.genesisAccounts :=
  ((Node.runAll_steps calm operations listedNode).grown (listing_forkChoiceLaws _)).genesisAccounts

/-- The serving node is two blocks ahead. -/
theorem servingNode_ahead :
    behindNode.Ahead servingNode.ledger genesis [block 3 1 1 [], block 4 2 3 []] := by
  have hfc := listing_forkChoiceLaws sideBranchWins
  have hchain := listing_chainLaws sideBranchWins
  have hrec := listing_recordLaws sideBranchWins
  obtain ⟨r, hs, -⟩ := Node.allEndorsed_of_written hfc hchain hrec
    (.empty (E := fun _ => True)) initOrLoad_listedNode (sideBranchWins.map .applyBlock)
  obtain ⟨r', hs', -⟩ := Node.allEndorsed_of_written hfc hchain hrec
    (.empty (E := fun _ => True)) initOrLoad_listedNode
    [.applyBlock (block 3 1 1 []), .applyBlock (block 2 1 1 [])]
  have hreplay : replay servingNode.genesisAccounts genesis [block 3 1 1 [], block 4 2 3 []] =
      .ok servingNode.ledger :=
    hs.replay_values hfc hchain (by decide +kernel)
  have hreplay' : replay behindNode.genesisAccounts genesis [block 3 1 1 []] =
      .ok behindNode.ledger :=
    hs'.replay_values hfc hchain (by decide +kernel)
  have hof := (chainOf_of_foldlM hchain (replay_chain hchain hreplay)).1
  have hof' := (chainOf_of_foldlM hchain (replay_chain hchain hreplay')).1
  have haccounts : behindNode.genesisAccounts = servingNode.genesisAccounts :=
    (listedNode_genesisAccounts _).trans (listedNode_genesisAccounts _).symm
  have hroots : ∀ i < 2, ([block 3 1 1 [], block 4 2 3 []][i]?).all (fun b =>
      (replay (P := listing sideBranchWins) behindNode.genesisAccounts genesis
        ([block 3 1 1 [], block 4 2 3 []].take i)).toOption.all fun before =>
          decide (validateCanonicalStateRoot before b = .ok ())) = true := by
    decide +kernel
  refine ⟨by rw [haccounts, hreplay], ?_, ?_, ?_⟩
  · intro i b before hb hbefore
    have hroot := hroots i (List.getElem?_eq_some_iff.mp hb).1
    rw [hb, Option.all_some, hbefore] at hroot
    exact of_decide_eq_true hroot
  · intro height b hb
    rw [hof'.lookup] at hb
    rw [hof.lookup]
    have hlt := (List.getElem?_eq_some_iff.mp hb).1
    rw [← hb]
    exact List.getElem?_append_left hlt
  · intro b hb
    rcases List.mem_cons.mp hb with rfl | hb
    · exact ⟨⟨consensus, genesis, 0, by decide +kernel⟩, by decide +kernel⟩
    · rcases List.mem_cons.mp hb with rfl | hb
      · exact ⟨⟨consensus, block 3 1 1 [], 0, by decide +kernel⟩, by decide +kernel⟩
      · cases hb

end Reference

/-- The node behind fetches the missing block and keeps its side block. -/
theorem Node.poll_catches_up_of_side_branch :
    (Reference.behindNode.pollPeerConnection ⟨1, 1, "", "", #v[0, 0, 0, 0]⟩ Reference.calm
        Reference.servingPeer []).2.toOption = some (.synced 2) ∧
      ∃ tip, Reference.servingNode.ledger.chain.blocks[(2 : UInt64)]? = some tip ∧
        TipOf (P := Reference.listing Reference.sideBranchWins)
          (Reference.behindNode.pollPeerConnection ⟨1, 1, "", "", #v[0, 0, 0, 0]⟩
            Reference.calm Reference.servingPeer []).1.ledger tip := by
  have hpoll : (Reference.behindNode.pollPeerConnection ⟨1, 1, "", "", #v[0, 0, 0, 0]⟩
      Reference.calm Reference.servingPeer []).2.toOption = some (.synced 2) := by
    decide +kernel
  have hheight : (Reference.listing Reference.sideBranchWins).ledger.tipHeight
      Reference.behindNode.ledger = some 1 := by
    decide +kernel
  have hremote : (Reference.listing Reference.sideBranchWins).ledger.tipHeight
      Reference.servingNode.ledger = some 2 := by
    decide +kernel
  have hwork := Reference.listing_workLaws Reference.sideBranchWins
  have hbest : ((Reference.listing Reference.sideBranchWins).forkChoice.bestTip
      Reference.behindNode.forkChoice).map ForkNode.hash = some 3 := by
    decide +kernel
  have hweight : Reference.totalWork Reference.behindNode.forkChoice.blocks 3 <
      ((Reference.genesis :: [Reference.block 3 1 1 [], Reference.block 4 2 3 []].take
        (min (2 : UInt64).toNat ((1 : UInt64).toNat + maxBlocksPerSync.toNat))).map
          Reference.work).sum := by
    decide +kernel
  obtain ⟨-, target, tip, htarget, htip, htipOf, -⟩ := Node.poll_catches_up
    (s := Reference.behindNode) (Reference.listing_forkChoiceLaws _)
    (Reference.listing_chainLaws _) (Reference.listing_recordLaws _) Reference.hashLaws hwork
    (fun _ => Nat.succ_pos _) .empty Reference.initOrLoad_listedNode rfl (by decide +kernel)
    Reference.servingNode_ahead hheight hremote (by decide) (by
      intro hash entry hentry
      obtain ⟨best, hbest', hle⟩ := hwork.bestTip_max hentry
      rw [hbest', Option.map_some, Option.some.injEq] at hbest
      rw [hbest] at hle
      exact Nat.lt_of_le_of_lt hle hweight)
    Reference.servingPeer_servesChain (eq_mk_ok_of_toOption hpoll)
  obtain rfl : target = 2 := UInt64.toNat_inj.mp htarget
  exact ⟨hpoll, tip, htip, htipOf⟩

end PaqusNode
