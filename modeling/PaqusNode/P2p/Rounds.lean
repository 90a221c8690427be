import PaqusNode.Node.Mining
import PaqusNode.P2p.Poll

/-!
# PaqusNode.P2p.Rounds

Two nodes of one network.  One of them started with an empty database and has
done whatever it did since; its active chain continues that of the other, by
any number of blocks.  The other polls it round after round, with
transactions submitted in between.  The blocks it fetches have passed the
checks of the peer, and no check depends on anything that differs between the
two nodes but the clock; so no round fails, every round moves the tip by
`MAX_BLOCKS_PER_SYNC` blocks, and after the last one both nodes have the same
ledger.
-/

namespace PaqusNode

open Network Service

namespace Node

variable {P : Paqus}

/-- What happens to a node between two blocks of its own: a round with the
peer, or a transaction that is submitted to it. -/
inductive Turn (P : Paqus)
  | poll (publicAddrs : List String)
  | submit (transaction : P.SignedTransaction)

/-- One turn after the other, and how the rounds ended. -/
def takeTurns (params : ChainParams) (env : Env) (peer : PeerConnection P) (s : Node P) :
    List (Turn P) → Node P × List (Except PollError PeerPoll)
  | [] => (s, [])
  | .poll publicAddrs :: rest =>
      let (s, result) := s.pollPeerConnection params env peer publicAddrs
      let (s, results) := takeTurns params env peer s rest
      (s, result :: results)
  | .submit transaction :: rest =>
      takeTurns params env peer (s.submitTransaction env transaction).1 rest

/-! ## The peer -/

/-- Nodes of one network greet each other. -/
theorem validateCompatibility_ofLocal (params : ChainParams) (tip : Option TipInfo) :
    (VersionInfo.ofLocal params tip).validateCompatibility params = .ok () := by
  simp [VersionInfo.validateCompatibility, VersionInfo.ofLocal]

theorem handshakePeer_connectionTo (params : ChainParams) (env : Env) (q s : Node P)
    (publicAddrs : List String) :
    handshakePeer params (connectionTo params env q) publicAddrs s = .ok () := by
  simp [handshakePeer, connectionTo, handleMessage, validateCompatibility_ofLocal, Except.mapError]

theorem requestTip_connectionTo (params : ChainParams) (env : Env) {q : Node P}
    {height : UInt64} {hash : BlockHash} (hheight : P.ledger.tipHeight q.ledger = some height)
    (hhash : P.ledger.tipHash q.ledger = some hash) :
    requestTip (connectionTo params env q) = .ok height := by
  simp [requestTip, connectionTo, handleMessage, localTip, hheight, hhash]

/-- A node that knows the genesis block only has nothing to validate. -/
theorem GenesisOnly.allValidated {q : Node P} {g : P.Block} (h : q.GenesisOnly g) (env : Env) :
    AllValidated env q.io q := by
  intro hash entry hget hheight
  rw [h.index hash] at hget
  split at hget
  · cases hget
    exact absurd h.height hheight
  · cases hget

/-- The blocks of `branch` are of admissible difficulty and pass the consensus
checks above one another, at each of the times. -/
structure Timely (consensus : Consensus) (times : Set UInt64) (g : P.Block)
    (branch : List P.Block) : Prop where
  admissible : ∀ b ∈ branch, Admissible b
  next : ∀ {k : Nat} {b p : P.Block}, branch[k]? = some b → (g :: branch)[k]? = some p →
    ∀ now ∈ times, P.consensus.validateNextBlockWithTipAt consensus b p now = .ok ()
  checkpoint : ∀ b ∈ branch,
    P.consensus.validateCheckpoint (P.block.height b) (P.block.hash b) = true
  difficulty : consensus.config.difficulty ≠ 0 → ∀ {k : Nat} {b : P.Block}, branch[k]? = some b →
    difficultyAbove consensus (g :: branch.take k) = .ok (P.block.difficulty b)

section Peer

variable (hfc : ForkChoiceLaws P) (hchain : ChainLaws P)

/-- The blocks of the active chain of a node that it has above the root, and
their branches in the index. -/
structure ActiveChain (q : Node P) (g : P.Block) (branch : List P.Block) : Prop where
  replayed : replay q.genesisAccounts g branch = .ok q.ledger
  chain : ChainOf q.ledger.chain (g :: branch)
  item : ∀ {b : P.Block}, b ∈ g :: branch → (indexed q.forkChoice).item (P.block.hash b) = some b
  branch : ∀ {k : Nat} {b : P.Block}, (g :: branch)[k]? = some b →
    (indexed q.forkChoice).Branch (P.block.hash g) (P.block.hash b) (branch.take k)

include hfc hchain in
theorem Synced.activeChain {q : Node P} {r : BlockHash} (hq : Synced q r) :
    ∃ g branch, P.block.hash g = r ∧ ActiveChain q g branch := by
  obtain ⟨g, branch, rfl, hreplay, hitems⟩ := hq.chain hfc
  have hof := (chainOf_of_foldlM hchain (replay_chain hchain hreplay)).1
  exact ⟨g, branch, rfl, hreplay, hof, hitems _, branch_of_chainOf hof hitems⟩

variable {q : Node P} {g : P.Block} {branch : List P.Block} (h : ActiveChain q g branch)

include h

include hchain in
/-- The tip of the ledger is the last block of the chain. -/
theorem ActiveChain.tip : ∃ b, q.ledger.chain.blocks[P.block.height b]? = some b ∧
    TipOf q.ledger b := by
  obtain ⟨hhash, hheight⟩ := replay_tip hchain h.replayed
  refine ⟨_, ?_, hhash, hheight⟩
  have hlast : (g :: branch)[branch.length]? = some ((g :: branch).getLast (by simp)) := by
    rw [List.getLast_eq_getElem, ← List.getElem?_eq_getElem]
    rfl
  rw [h.chain.lookup, h.chain.height hlast, hlast]

theorem ActiveChain.height {k : Nat} {b : P.Block} (hb : (g :: branch)[k]? = some b) :
    (P.block.height b).toNat = k :=
  h.chain.height hb

theorem ActiveChain.height_ne {b : P.Block} (hb : b ∈ branch) : P.block.height b ≠ 0 := by
  obtain ⟨k, hk⟩ := List.getElem?_of_mem hb
  have hheight := h.height (k := k + 1) hk
  intro hzero
  rw [hzero] at hheight
  exact absurd hheight (by simp)

/-- The parent of a block of the chain. -/
theorem ActiveChain.parent {k : Nat} {b : P.Block} (hb : branch[k]? = some b) :
    ∃ p, (g :: branch)[k]? = some p ∧ P.block.previousHash b = P.block.hash p := by
  have hlt : k < (g :: branch).length := by
    have := (List.getElem?_eq_some_iff.mp hb).1
    rw [List.length_cons]
    omega
  exact ⟨_, List.getElem?_eq_getElem hlt,
    h.chain.link (i := k) hb (List.getElem?_eq_getElem hlt)⟩

include hfc in
/-- **What one node has validated is valid for all**: the blocks of the active
chain of a node that started from genesis pass the consensus checks whenever
it is later than it was for that node. -/
theorem ActiveChain.timely {tolerance : UInt64} {coinbase : P.Block → Prop}
    (hnext : NextBlockLaws P tolerance coinbase) {env : Env} {start : Nat}
    (hvalidated : AllValidated env start q) {times : Set UInt64}
    (hlater : ∀ now ∈ times, ∀ i < q.io, env.clock i ≤ now) :
    Timely q.consensus times g branch := by
  have hverdict : ∀ {k : Nat} {b p : P.Block}, branch[k]? = some b → (g :: branch)[k]? = some p →
      Validated env start q b ⟨P.block.hash p, P.block.height p, p⟩ := by
    intro k b p hb hp
    obtain ⟨p', hp', hprevious⟩ := h.parent hb
    obtain rfl : p = p' := Option.some.inj (hp.symm.trans hp')
    have hmem := List.mem_of_getElem? hb
    obtain ⟨parent, hparent, hvalid⟩ := hvalidated _ _
      (get_of_indexed hfc (h.item (List.mem_cons_of_mem _ hmem))) (h.height_ne hmem)
    have hget := get_of_indexed hfc (h.item (List.mem_of_getElem? hp))
    rw [← hprevious, hparent, Option.some.injEq] at hget
    exact hprevious ▸ hget ▸ hvalid
  have hadmissible : ∀ b ∈ branch, Admissible b := fun b hb =>
    admissible_of_indexed hfc (h.item (List.mem_cons_of_mem g hb))
  refine ⟨hadmissible, ?_, ?_, ?_⟩
  · intro k b p hb hp now hnow
    obtain ⟨i, -, hi, hok⟩ := (hverdict hb hp).consensus
    have hb' := hadmissible b (List.mem_of_getElem? hb)
    rw [hnext.next_ok hb'] at hok ⊢
    obtain ⟨hfollows, hrest⟩ := hok
    refine ⟨{ hfollows with before := UInt64.le_trans hfollows.before ?_ }, hrest⟩
    have hle := hlater now hnow i hi
    rw [UInt64.le_iff_toNat_le] at hle ⊢
    simp only [toNat_satAdd]
    omega
  · intro b hb
    obtain ⟨k, hk⟩ := List.getElem?_of_mem hb
    obtain ⟨p, hp, -⟩ := h.parent hk
    exact (hverdict hk hp).checkpoint
  · intro hne k b hb
    obtain ⟨p, hp, -⟩ := h.parent hb
    rw [← nextDifficultyAfterBranchTip_eq hfc _ (h.branch hp) (h.item List.mem_cons_self)]
    exact (hverdict hb hp).difficulty hne

include hfc hchain in
/-- A node whose chain the other's continues is behind it. -/
theorem ActiveChain.ahead (hhashes : HashLaws P) (hq : Synced q (P.block.hash g))
    (hpeer : AllEndorsed q) {s : Node P} (hendorsed : AllEndorsed s)
    (hcontinues : ∀ {height : UInt64} {b : P.Block}, s.ledger.chain.blocks[height]? = some b →
      q.ledger.chain.blocks[height]? = some b) : Ahead s q.ledger g branch := by
  have haccounts := founded_unique hendorsed.founded hpeer.founded
  refine ⟨haccounts ▸ h.replayed, ?_, hcontinues, ?_⟩
  · intro k b before hb hbefore
    have hmem := List.mem_of_getElem? hb
    obtain ⟨p, hp, hprevious⟩ := h.parent hb
    obtain ⟨⟨before', -, hparent, hroot, -⟩, -⟩ := hpeer.state_valid hfc hchain hhashes hq
      (h.item (List.mem_cons_of_mem _ hmem)) (h.height_ne hmem)
    rw [hprevious, ledgerForBranchTip_eq_ok hfc (h.branch hp) (h.item List.mem_cons_self),
      ← haccounts, hbefore] at hparent
    cases hparent
    exact hroot
  · obtain rfl : P.genesisBlock = g :=
      Option.some.inj ((hpeer.root hq).symm.trans (h.item List.mem_cons_self))
    intro b hb
    obtain ⟨k, hk⟩ := List.getElem?_of_mem hb
    refine hpeer.branch (h.branch (k := k + 1) hk) b ?_
    rw [List.take_add_one, hk, Option.toList_some]
    exact List.mem_append_right _ (List.mem_singleton_self b)

end Peer

/-! ## A round -/

section Laws

variable (hfc : ForkChoiceLaws P) (hchain : ChainLaws P) (hrec : RecordLaws P)
  {s₀ s : Node P} {ledger : P.Ledger} {g : P.Block} {branch : List P.Block} {k : Nat}

/-- A node that was `s₀`, has fetched the chain `g :: branch` up to the height
`k`, and is there. -/
structure At (s₀ : Node P) (g : P.Block) (branch : List P.Block) (k : Nat) (s : Node P) :
    Prop where
  fetching : Fetching s₀ g branch k s
  tip : ∀ {b : P.Block}, (g :: branch)[k]? = some b → TipOf s.ledger b

/-- What the node has fetched does not depend on its mempool, its database and
its clock. -/
theorem At.congr {s' : Node P} (h : At s₀ g branch k s) (hgrown : Grown s s')
    (hledger : s'.ledger = s.ledger) (hfork : s'.forkChoice = s.forkChoice)
    (hpending : s'.hasPendingSyncWork = false) : At s₀ g branch k s' where
  fetching := {
    synced := h.fetching.synced.congr hledger hfork hgrown.genesisAccounts
    grown := h.fetching.grown.trans hgrown
    pending := hpending
    items := hfork ▸ h.fetching.items
    origin := hfork ▸ h.fetching.origin
    tip := hfork ▸ hledger ▸ h.fetching.tip }
  tip := hledger ▸ h.tip

theorem At.tipHeight {chain : Chain P.Block} (h : At s₀ g branch k s)
    (hof : ChainOf chain (g :: branch)) (hk : k ≤ branch.length) :
    ∃ height, P.ledger.tipHeight s.ledger = some height ∧ height.toNat = k := by
  have hp := List.getElem?_eq_getElem (show k < (g :: branch).length by
    rw [List.length_cons]
    omega)
  exact ⟨_, (h.tip hp).height, hof.height hp⟩

include hfc hchain in
/-- Before the first round the node is at its own tip. -/
theorem Ahead.at {r : BlockHash} (h : Ahead s ledger g branch) (hs : Synced s r)
    (hidle : s.hasPendingSyncWork = false) :
    ∃ height tip, P.ledger.tipHeight s.ledger = some height ∧
      (g :: branch)[height.toNat]? = some tip ∧ At s g branch height.toNat s := by
  obtain ⟨height, hheight, hstart⟩ := h.start hfc hchain hs hidle
  obtain ⟨_, _, -, hactive⟩ := hs.activeChain hfc hchain
  obtain ⟨tip, hmem, htip⟩ := hactive.tip hchain
  obtain rfl : height = P.block.height tip := Option.some.inj (hheight.symm.trans htip.height)
  have hthere := h.continues hmem
  rw [(h.chainOf hchain).lookup] at hthere
  refine ⟨_, tip, hheight, hthere, hstart, fun {b} hb => ?_⟩
  obtain rfl : tip = b := Option.some.inj (hthere.symm.trans hb)
  exact htip

include hfc hchain in
/-- The ledger is the replay of what has been fetched. -/
theorem At.replayed (hahead : Ahead s₀ ledger g branch) (h : At s₀ g branch k s)
    (hk : k ≤ branch.length) :
    replay s₀.genesisAccounts g (branch.take k) = .ok s.ledger := by
  have hb := List.getElem?_eq_getElem (show k < (g :: branch).length by
    rw [List.length_cons]
    omega)
  have hbranch := h.fetching.branch_take hchain hahead (Nat.le_refl k) hb
  obtain ⟨t, bs, htip, hbranch', hreplay⟩ := h.fetching.synced.replayed
  obtain rfl := Option.some.inj (htip.symm.trans (h.tip hb).hash)
  obtain ⟨-, rfl⟩ := hbranch.unique hbranch'
  rw [← h.fetching.grown.genesisAccounts]
  exact (ledgerForBranchTip_eq_ok hfc hbranch (h.fetching.items g List.mem_cons_self)).mp hreplay

/-- The node `s₀`, whose tip has the height `start`, and the chain `g :: branch`
it is going to fetch; nothing it knows has the work of a higher block of it. -/
structure Setting (env : Env) (work : P.Block → Nat) (totalWork : P.ForkChoice → BlockHash → Nat)
    (s₀ : Node P) (ledger : P.Ledger) (g : P.Block) (branch : List P.Block) (start : Nat) :
    Prop where
  faultless : env.Faultless
  ahead : Ahead s₀ ledger g branch
  unambiguous : Unambiguous s₀ g branch
  timely : ∃ times, Timely s₀.consensus times g branch ∧ ∀ i, s₀.io ≤ i → env.clock i ∈ times
  rooted : (indexed s₀.forkChoice).Rooted (P.block.hash g)
  lighter : ∀ {k : Nat}, start < k → k ≤ branch.length → ∀ {hash entry},
    P.forkChoice.get s₀.forkChoice hash = some entry →
      totalWork s₀.forkChoice hash < ((g :: branch.take k).map work).sum

variable {env : Env} {work : P.Block → Nat} {totalWork : P.ForkChoice → BlockHash → Nat}
  {start : Nat} (hset : Setting env work totalWork s₀ ledger g branch start)

include hset

include hfc hchain hrec in
/-- **No check of the node rejects the next block.** -/
theorem At.requestBlock_ok (h : At s₀ g branch k s) {b : P.Block} (hb : branch[k]? = some b)
    (height : UInt64) :
    (s.requestBlock env height (.ok (.block b))).2 = .ok () := by
  obtain ⟨p, before, after, hp, hprevious, hbefore, hroot, happly⟩ := hset.ahead.applies hchain hb
  obtain ⟨times, htimely, hclock⟩ := hset.timely
  have hbranch := h.fetching.branch_take hchain hset.ahead (Nat.le_refl k) hp
  have hg := h.fetching.items g List.mem_cons_self
  have hparent := get_of_indexed hfc (h.fetching.items p (mem_take_of_getElem? hp))
  have happlies : Applies s b before after := by
    refine ⟨?_, hroot, happly⟩
    rw [hprevious, h.fetching.grown.genesisAccounts, ledgerForBranchTip_eq_ok hfc hbranch hg]
    exact hbefore
  have hstate : s.validateBlockStateForKnownParent b = .ok () := by
    rw [happlies.validateBlockStateForKnownParent h.fetching.synced, hprevious,
      if_pos (.inr (h.tip hp).hash)]
  rw [← hprevious] at hparent hbranch
  have hvalid : s.validateBlockForKnownParent (env.clock (s.io + 1)) b = .ok () := by
    rw [validateBlockForKnownParent_eq_ok (happlies.height_ne hchain) hparent,
      h.fetching.grown.consensus]
    have hio := h.fetching.grown.io
    exact ⟨htimely.next hb hp _ (hclock _ (by omega)),
      htimely.checkpoint b (List.mem_of_getElem? hb), fun hne =>
        (nextDifficultyAfterBranchTip_eq hfc _ hbranch hg).trans (htimely.difficulty hne hb)⟩
  have happlied := (applyBlock_ok_iff hfc hchain hrec hset.faultless h.fetching.synced hparent
    (htimely.admissible b (List.mem_of_getElem? hb)) hstate).mpr hvalid
  have hsynced := (applyBlock_steps env s b).synced hfc hchain h.fetching.synced
  rcases hresult : s.applyBlock env b with ⟨s₁, e | u⟩
  · rw [hresult] at happlied
    cases happlied
  · rw [hresult] at hsynced
    have hflush := hsynced.saveLedger_ok hfc hchain hrec hset.faultless
    rcases hsave : s₁.flushToStorage env with ⟨s₂, e | u⟩
    · rw [← flushToStorage, hsave] at hflush
      cases hflush
    · simp only [requestBlock, hresult, hsave]

variable (hwork : WorkLaws P work totalWork) (hpos : ∀ b, 0 < work b)

include hfc hchain hrec hwork hpos

/-- **One more block**: it is fetched, and the node follows it. -/
theorem At.step (hstart : start ≤ k) (h : At s₀ g branch k s) {b : P.Block}
    (hb : branch[k]? = some b) (height : UInt64) :
    ∃ s', s.requestBlock env height (.ok (.block b)) = (s', .ok ()) ∧
      At s₀ g branch (k + 1) s' := by
  have hok := h.requestBlock_ok hfc hchain hrec hset hb height
  have hlength := (List.getElem?_eq_some_iff.mp hb).1
  refine ⟨_, Prod.ext rfl hok, ?_⟩
  have hnext := h.fetching.step hfc hchain hset.ahead hset.unambiguous hb (Prod.ext rfl hok)
  refine ⟨hnext, fun hc => ?_⟩
  exact (hnext.caughtUp hfc hchain hwork hpos hset.ahead hset.unambiguous hset.rooted
    (hset.lighter (by omega) (by omega)) hc).1

/-- **The loop**: the blocks at the heights `k + 1` to `k + n`. -/
theorem At.run (params : ChainParams) (env' : Env) {q : Node P} (hledger : q.ledger = ledger)
    (n i : Nat) (hstart : start ≤ k) (h : At s₀ g branch k s)
    (hn : k + n ≤ branch.length) (hbound : k + n < 2 ^ 64) :
    ∃ s', s.requestBlocks env (connectionTo params env' q) i
        ((List.range' (k + 1) n).map UInt64.ofNat) = (s', .ok ()) ∧
      At s₀ g branch (k + n) s' := by
  induction n generalizing s k i with
  | zero => exact ⟨s, rfl, h⟩
  | succ n ih =>
      have hb := List.getElem?_eq_getElem (show k < branch.length by omega)
      obtain ⟨s₁, hone, h₁⟩ := h.step hfc hchain hrec hset hwork hpos hstart hb
        (UInt64.ofNat (k + 1))
      have hreply : (connectionTo params env' q).request i
          (.getBlockByHeight (UInt64.ofNat (k + 1))) = .ok (.block branch[k]) := by
        have hlookup := (hset.ahead.chainOf hchain).lookup (UInt64.ofNat (k + 1))
        rw [UInt64.toNat_ofNat_of_lt' (show k + 1 < 2 ^ 64 by omega), List.getElem?_cons_succ, hb,
          ← hledger] at hlookup
        simp only [connectionTo, handleMessage, hlookup, Option.map_some]
      obtain ⟨s', hrest, h'⟩ := ih (i + 1) (by omega) h₁ (by omega) (by omega)
      refine ⟨s', ?_, by rwa [show k + (n + 1) = k + 1 + n by omega]⟩
      simp only [List.range'_succ, List.map_cons, requestBlocks, hreply, hone, hrest]

omit hset hfc hchain hrec hwork hpos in
theorem At.tick (h : At s₀ g branch k s) : At s₀ g branch k s.tick :=
  h.congr ⟨rfl, rfl, .refl _, Nat.le_succ _⟩ rfl rfl h.fetching.pending

/-- **A round**: it ends well, and the node is `MAX_BLOCKS_PER_SYNC` blocks
further up or at the tip of the peer. -/
theorem At.round (params : ChainParams) (env' : Env) {q : Node P} (hledger : q.ledger = ledger)
    (publicAddrs : List String) (hstart : start ≤ k) (h : At s₀ g branch k s)
    (hk : k ≤ branch.length) :
    ∃ s' poll, s.pollPeerConnection params env (connectionTo params env' q) publicAddrs =
        (s', .ok poll) ∧
      At s₀ g branch (min branch.length (k + maxBlocksPerSync.toNat)) s' := by
  subst hledger
  obtain ⟨remote, hremote, hlength⟩ := replay_tipHeight hchain hset.ahead.replayed
  have hbound := remote.toNat_lt
  have hreported : requestTip (connectionTo params env' q) = .ok remote :=
    requestTip_connectionTo params env' hremote (replay_tip hchain hset.ahead.replayed).1
  obtain ⟨height, htip, hheight⟩ := h.tipHeight (hset.ahead.chainOf hchain) hk
  unfold pollPeerConnection
  simp only [handshakePeer_connectionTo, hreported, htip, Option.getD_some]
  by_cases hle : remote ≤ height
  · -- at the tip of the peer already
    have hk' : min branch.length (k + maxBlocksPerSync.toNat) = k := by
      rw [UInt64.le_iff_toNat_le] at hle
      omega
    rw [if_pos hle, pollMissingParents_idle env _ h.fetching.pending, hk']
    exact ⟨_, _, rfl, h.tick⟩
  · rw [UInt64.not_le] at hle
    have htarget := toNat_syncTarget height remote
    rw [if_neg (UInt64.not_le.mpr hle), syncHeights_eq hle]
    rw [UInt64.lt_iff_toNat_lt] at hle
    obtain ⟨s₁, hblocks, h₁⟩ := h.run hfc hchain hrec hset hwork hpos params env' rfl
      ((syncTarget height remote).toNat - height.toNat) 2 hstart (by omega) (by omega)
    rw [hheight] at htarget hblocks h₁ ⊢
    rw [hblocks, show min branch.length (k + maxBlocksPerSync.toNat) =
      k + ((syncTarget height remote).toNat - k) by omega]
    simp only [pollMissingParents_idle env _ h₁.fetching.pending]
    exact ⟨_, _, rfl, h₁.tick⟩

/-- **Any number of turns**: every round ends well, and each of them counts. -/
theorem At.turns (params : ChainParams) (env' : Env) {q : Node P} (hledger : q.ledger = ledger)
    (turns : List (Turn P)) (hstart : start ≤ k) (h : At s₀ g branch k s)
    (hk : k ≤ branch.length) :
    ∃ s' results, takeTurns params env (connectionTo params env' q) s turns = (s', results) ∧
      (∀ result ∈ results, ∃ poll, result = .ok poll) ∧
      At s₀ g branch (min branch.length (k + maxBlocksPerSync.toNat * results.length)) s' := by
  induction turns generalizing s k with
  | nil =>
      refine ⟨s, [], rfl, by simp, ?_⟩
      rwa [List.length_nil, Nat.mul_zero, Nat.add_zero, Nat.min_eq_right hk]
  | cons turn rest ih =>
      cases turn with
      | poll publicAddrs =>
          obtain ⟨s₁, poll, hround, h₁⟩ := h.round hfc hchain hrec hset hwork hpos params env'
            hledger publicAddrs hstart hk
          obtain ⟨s', results, hrest, hok, h'⟩ := ih (by omega) h₁ (Nat.min_le_left _ _)
          refine ⟨s', .ok poll :: results, by simp only [takeTurns, hround, hrest], ?_, ?_⟩
          · simpa using hok
          · rwa [show min branch.length (k + maxBlocksPerSync.toNat *
              (Except.ok poll :: results : List (Except PollError PeerPoll)).length) =
              min branch.length (min branch.length (k + maxBlocksPerSync.toNat) +
                maxBlocksPerSync.toNat * results.length) by
              rw [List.length_cons, Nat.mul_add]
              omega]
      | submit transaction =>
          have hsubmitted : At s₀ g branch k (s.submitTransaction env transaction).1 :=
            h.congr ⟨rfl, rfl, .refl _, Nat.le_succ _⟩ rfl rfl h.fetching.pending
          exact ih hstart hsubmitted hk

omit hset hpos hrec in
/-- Nothing a node at its best tip knows has the work of a block above the tip. -/
theorem Fetching.lighter (hpos : ∀ b, 0 < work b) (hahead : Ahead s ledger g branch)
    (h : Fetching s g branch k s) (hbest : AtBestTip s) {b : P.Block}
    (hb : (g :: branch)[k]? = some b) (htip : P.ledger.tipHash s.ledger = some (P.block.hash b))
    {j : Nat} (hj : k < j) (hlength : j ≤ branch.length) {hash : BlockHash}
    {entry : ForkNode P.Block} (hentry : P.forkChoice.get s.forkChoice hash = some entry) :
    totalWork s.forkChoice hash < ((g :: branch.take j).map work).sum := by
  obtain ⟨best, hbest', hle⟩ := hwork.bestTip_max hentry
  rw [AtBestTip, htip, hbest', Option.map_some, Option.some.injEq] at hbest
  rw [← hbest, totalWork_eq hfc hwork (h.branch_take hchain hahead (Nat.le_refl k) hb)
    (h.items g List.mem_cons_self)] at hle
  have hless := sum_take_lt hpos (g :: branch) (Nat.succ_lt_succ hj) (by
    rw [List.length_cons]
    omega)
  rw [List.take_succ_cons, List.take_succ_cons] at hless
  exact Nat.lt_of_le_of_lt hle hless

end Laws

/-- **Round after round a node reaches its peer.**  Let two nodes have the same
configuration.  The first runs over a database written by nodes, is at its
best tip and waits for nothing; the second started with an empty database, and
its active chain continues that of the first, from the height `height` to
`remote`.  If no write of the first fails and its clock is not behind, then
whatever is submitted to it in between, none of its rounds with the second
fails; after `n` rounds its tip is the block of the second at the height
`height + n * MAX_BLOCKS_PER_SYNC`, or at `remote` if that comes first; and
once it is there, the two have the same ledger. -/
theorem rounds_reach_peer (hfc : ForkChoiceLaws P) (hchain : ChainLaws P) (hrec : RecordLaws P)
    (hroots : StateRootLaws P) (hhashes : HashLaws P) {tolerance : UInt64}
    {coinbase : P.Block → Prop} (hnext : NextBlockLaws P tolerance coinbase)
    {work : P.Block → Nat} {totalWork : P.ForkChoice → BlockHash → Nat}
    (hwork : WorkLaws P work totalWork) (hpos : ∀ b, 0 < work b) {consensus : Consensus}
    {db db' : Storage P} (hdb : Written (fun _ => True) db) {env : Env} (henv : env.Faultless)
    {io : Nat} {opened s : Node P} (hopen : initOrLoad env io db consensus = (db', .ok opened))
    {operations : List (Operation P)} (hs : opened.runAll env operations = s)
    (hidle : s.hasPendingSyncWork = false) (hbest : AtBestTip s)
    {peerDb : Storage P} {peerEnv : Env} {peerIo : Nat} {started q : Node P}
    (hstarted : initOrLoad peerEnv peerIo Storage.empty consensus = (peerDb, .ok started))
    {peerOperations : List (Operation P)} (hq : started.runAll peerEnv peerOperations = q)
    (hcontinues : ∀ {height : UInt64} {b : P.Block}, s.ledger.chain.blocks[height]? = some b →
      q.ledger.chain.blocks[height]? = some b)
    (hclock : ∀ i j, s.io ≤ i → j < q.io → peerEnv.clock j ≤ env.clock i)
    {height remote : UInt64} (hheight : P.ledger.tipHeight s.ledger = some height)
    (hremote : P.ledger.tipHeight q.ledger = some remote) (params : ChainParams)
    (turns : List (Turn P)) :
    ∃ s' results, takeTurns params env (connectionTo params peerEnv q) s turns = (s', results) ∧
      (∀ result ∈ results, ∃ poll, result = .ok poll) ∧
      (∃ (target : UInt64) (tip : P.Block), target.toNat =
          min remote.toNat (height.toNat + maxBlocksPerSync.toNat * results.length) ∧
        q.ledger.chain.blocks[target]? = some tip ∧ TipOf s'.ledger tip) ∧
      (remote.toNat ≤ height.toNat + maxBlocksPerSync.toNat * results.length →
        s'.ledger = q.ledger) := by
  obtain ⟨r, hsynced, hendorsed⟩ := allEndorsed_of_written hfc hchain hrec hdb hopen operations
  obtain ⟨r', hsynced', hendorsed'⟩ := allEndorsed_of_written hfc hchain hrec
    (.empty (E := fun _ => True)) hstarted peerOperations
  rw [hs] at hsynced hendorsed
  rw [hq] at hsynced' hendorsed'
  obtain ⟨g, branch, rfl, hactive⟩ := hsynced'.activeChain hfc hchain
  have hahead := hactive.ahead hfc hchain hhashes hsynced' hendorsed' hendorsed hcontinues
  obtain ⟨height', first, hheight', hfirst, hat⟩ := hahead.at hfc hchain hsynced hidle
  obtain rfl : height = height' := Option.some.inj (hheight.symm.trans hheight')
  have hconsensus : q.consensus = s.consensus := by
    have hgrown := (runAll_steps env operations opened).grown hfc
    have hgrown' := (runAll_steps peerEnv peerOperations started).grown hfc
    rw [hs] at hgrown
    rw [hq] at hgrown'
    obtain ⟨_, _, _, rfl⟩ := initOrLoad_eq hopen
    obtain ⟨_, _, _, rfl⟩ := initOrLoad_eq hstarted
    exact hgrown'.consensus.trans hgrown.consensus.symm
  obtain ⟨remote', hremote', hlength⟩ := replay_tipHeight hchain hahead.replayed
  obtain rfl : remote = remote' := Option.some.inj (hremote.symm.trans hremote')
  have hsynced₀ := hat.fetching.synced
  have hset : Setting env work totalWork s q.ledger g branch height.toNat := {
    faultless := henv
    ahead := hahead
    unambiguous := hahead.unambiguous hfc hhashes hendorsed hsynced₀
      (hat.fetching.items g List.mem_cons_self)
    timely := by
      have hvalidated : AllValidated peerEnv started.io q := by
        have hgenesis := genesisOnly_of_initOrLoad hfc hchain hrec hstarted
        rw [← hq]
        exact (runAll_steps peerEnv peerOperations started).allValidated hfc hchain hroots
          (hgenesis.synced hfc hchain) (Nat.le_refl _) (hgenesis.allValidated peerEnv)
      refine ⟨{now | ∃ i, s.io ≤ i ∧ env.clock i = now}, ?_, fun i hi => ⟨i, hi, rfl⟩⟩
      rw [← hconsensus]
      refine hactive.timely hfc hnext hvalidated ?_
      rintro now ⟨i, hi, rfl⟩ j hj
      exact hclock i j hi hj
    rooted := hsynced₀.rooted
    lighter :=
      hat.fetching.lighter hfc hchain hwork hpos hahead hbest hfirst (hat.tip hfirst).hash }
  have hk := (List.getElem?_eq_some_iff.mp hfirst).1
  rw [List.length_cons] at hk
  obtain ⟨s', results, hturns, hok, hend⟩ := hat.turns hfc hchain hrec hset hwork hpos params
    peerEnv rfl turns (Nat.le_refl _) (by omega)
  have hbound := remote.toNat_lt
  rw [← hlength] at hend
  refine ⟨s', results, hturns, hok, ?_, fun hdone => ?_⟩
  · have htarget : min remote.toNat (height.toNat + maxBlocksPerSync.toNat * results.length) <
        (g :: branch).length := by
      rw [List.length_cons]
      omega
    have htip := List.getElem?_eq_getElem htarget
    refine ⟨UInt64.ofNat (min remote.toNat (height.toNat +
      maxBlocksPerSync.toNat * results.length)), _, ?_, ?_, hend.tip htip⟩
    · exact UInt64.toNat_ofNat_of_lt' (show _ < 2 ^ 64 by omega)
    · rw [hactive.chain.lookup, UInt64.toNat_ofNat_of_lt' (show _ < 2 ^ 64 by omega), htip]
  · rw [Nat.min_eq_left hdone] at hend
    have hledger := hend.replayed hfc hchain hahead (by omega)
    rw [hlength, List.take_length, hahead.replayed] at hledger
    exact (Except.ok.inj hledger).symm

end Node

namespace Reference

/-- The variant of the crate takes the listed blocks only. -/
theorem listing_validateNext_ok {valid : List Block} {consensus : Consensus}
    {block parent : Block} {now : UInt64} :
    (listing valid).consensus.validateNextBlockWithTipAt consensus block parent now = .ok () ↔
      Follows (P := listing valid) futureTolerance now parent block ∧ block ∈ valid := by
  have hnext : paqus.consensus.validateNextBlockWithTipAt consensus block parent now = .ok () ↔ _ :=
    validateNext_ok
  by_cases hmem : block ∈ valid
  · simp only [hmem, if_true, and_true]
    exact hnext.trans ⟨fun h => ⟨h.after, h.before, h.height, h.previous⟩,
      fun h => ⟨h.after, h.before, h.height, h.previous⟩⟩
  · simp [hmem]

/-- The variant of the crate satisfies the laws of headers. -/
theorem listing_nextBlockLaws (valid : List Block) :
    NextBlockLaws (listing valid) futureTolerance (· ∈ valid) where
  tolerance_pos := nextBlockLaws.tolerance_pos
  next_follows h := (listing_validateNext_ok.mp h).1
  next_ok {consensus block parent now} _ := by
    have hwork : ProofOfWork (P := listing valid) consensus block := ⟨block.hash, rfl, rfl⟩
    rw [listing_validateNext_ok]
    simp [hwork]

end Reference

/-- The node behind gets a payment, fetches the missing block in one round and
finds nothing new in a second. -/
theorem Node.rounds_reach_peer_of_side_branch :
    (Reference.behindNode.takeTurns ⟨1, 1, "", "", #v[0, 0, 0, 0]⟩ Reference.calm
      (connectionTo ⟨1, 1, "", "", #v[0, 0, 0, 0]⟩ Reference.calm Reference.servingNode)
      [.submit (Reference.payment 2 0), .poll [], .poll []]).1.ledger =
        Reference.servingNode.ledger := by
  have hbest : AtBestTip Reference.behindNode := by
    unfold AtBestTip
    decide +kernel
  have hheight : (Reference.listing Reference.sideBranchWins).ledger.tipHeight
      Reference.behindNode.ledger = some 1 := by
    decide +kernel
  have hremote : (Reference.listing Reference.sideBranchWins).ledger.tipHeight
      Reference.servingNode.ledger = some 2 := by
    decide +kernel
  obtain ⟨s', results, hturns, -, -, hledger⟩ := Node.rounds_reach_peer
    (Reference.listing_forkChoiceLaws _) (Reference.listing_chainLaws _)
    (Reference.listing_recordLaws _) { Reference.stateRootLaws with } Reference.hashLaws
    (Reference.listing_nextBlockLaws _) (Reference.listing_workLaws _) (fun _ => Nat.succ_pos _)
    .empty Reference.calm_faultless Reference.initOrLoad_listedNode
    (s := Reference.behindNode) rfl (by decide +kernel) hbest
    Reference.initOrLoad_listedNode (q := Reference.servingNode) rfl
    Reference.servingNode_ahead.continues (fun _ _ _ _ => UInt64.le_refl _)
    hheight hremote ⟨1, 1, "", "", #v[0, 0, 0, 0]⟩
    [.submit (Reference.payment 2 0), .poll [], .poll []]
  have hresults : (Reference.behindNode.takeTurns ⟨1, 1, "", "", #v[0, 0, 0, 0]⟩ Reference.calm
      (connectionTo ⟨1, 1, "", "", #v[0, 0, 0, 0]⟩ Reference.calm Reference.servingNode)
      [.submit (Reference.payment 2 0), .poll [], .poll []]).2.length = 2 := by
    decide +kernel
  rw [hturns] at hresults ⊢
  refine hledger ?_
  simp only at hresults
  rw [hresults]
  decide

end PaqusNode
