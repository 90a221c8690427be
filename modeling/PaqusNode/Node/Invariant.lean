import PaqusNode.Node.Replay
import PaqusNode.Node.Sync

/-!
# PaqusNode.Node.Invariant

The node's central invariant: its index is a tree and its ledger is the
replay of one branch of it (`Synced`).  Under it a block that passes
validation has been replayed on its own branch, whichever of the two
validation paths was taken, so nothing after its insertion can fail except
a write to the database.
-/

namespace PaqusNode

namespace Node

variable {P : Paqus}

variable {s : Node P} {forkChoice : P.ForkChoice} {parent child : P.Ledger} {r hash : BlockHash}
  {block : P.Block}

/-! ## The invariant -/

/-- The index is a tree with root `r`, and the ledger is the replay of the
branch it ends in. -/
structure Synced (s : Node P) (r : BlockHash) : Prop where
  rooted : (indexed s.forkChoice).Rooted r
  replayed : ∃ t bs, P.ledger.tipHash s.ledger = some t ∧ (indexed s.forkChoice).Branch r t bs ∧
    ledgerForBranchTip s.forkChoice s.genesisAccounts t = .ok s.ledger

/-- The ledger's tip is the best tip. -/
def AtBestTip (s : Node P) : Prop :=
  P.ledger.tipHash s.ledger = (P.forkChoice.bestTip s.forkChoice).map ForkNode.hash

/-- The invariant is about three fields only. -/
theorem Synced.congr {s' : Node P} (h : Synced s r) (hledger : s'.ledger = s.ledger)
    (hfork : s'.forkChoice = s.forkChoice) (hgenesis : s'.genesisAccounts = s.genesisAccounts) :
    Synced s' r where
  rooted := hfork ▸ h.rooted
  replayed := by
    rw [hledger, hfork, hgenesis]
    exact h.replayed

/-! ## What validation establishes -/

/-- What the node knows of a block when it enters the index, `parent` being
the replay of the parent's branch and `child` that of the block's own. -/
structure Accepted (s : Node P) (block : P.Block) (forkChoice : P.ForkChoice)
    (parent child : P.Ledger) : Prop where
  height_ne : P.block.height block ≠ 0
  parent_replay :
    ledgerForBranchTip s.forkChoice s.genesisAccounts (P.block.previousHash block) = .ok parent
  state_root : validateCanonicalStateRoot parent block = .ok ()
  apply : P.ledger.applyBlock parent block = .ok child
  child_replay :
    ledgerForBranchTip forkChoice s.genesisAccounts (P.block.hash block) = .ok child

/-- Off the active tip nothing is accepted without a genesis state. -/
theorem genesisAccounts_of_valid (h : s.validateBlockStateForKnownParent block = .ok ())
    (hextends : extendsActiveTip s.ledger block = false) : s.genesisAccounts.isEmpty = false := by
  unfold validateBlockStateForKnownParent at h
  rw [hextends] at h
  cases hempty : s.genesisAccounts.isEmpty with
  | false => rfl
  | true => simp [hempty] at h

/-- The block applies to `parent`, the replay of its parent's branch, and gives
`child`. -/
structure Applies (s : Node P) (block : P.Block) (parent child : P.Ledger) : Prop where
  parent_replay :
    ledgerForBranchTip s.forkChoice s.genesisAccounts (P.block.previousHash block) = .ok parent
  state_root : validateCanonicalStateRoot parent block = .ok ()
  apply : P.ledger.applyBlock parent block = .ok child

/-- A block that applies passes the second validation, except off the active
tip of a node without a genesis state. -/
theorem Applies.validateBlockStateForKnownParent (h : Applies s block parent child)
    (hs : Synced s r) :
    s.validateBlockStateForKnownParent block =
      if s.genesisAccounts.isEmpty = false ∨
        P.ledger.tipHash s.ledger = some (P.block.previousHash block) then .ok ()
      else .error .missingGenesisState := by
  obtain ⟨hreplay, hroot, happly⟩ := h
  obtain ⟨t, bs, htip, -, hreplay'⟩ := hs.replayed
  unfold Node.validateBlockStateForKnownParent
  by_cases hextends : P.block.previousHash block = t
  · -- on the active tip the replay of the parent is the ledger
    have htrue : extendsActiveTip s.ledger block = true := by
      simp only [extendsActiveTip, htip, hextends, beq_self_eq_true]
    rw [hextends, hreplay', Except.ok.injEq] at hreplay
    subst hreplay
    simp only [htrue, if_true, hroot, happly, htip, hextends, or_true]
  · have hfalse : extendsActiveTip s.ledger block = false := by
      simp only [extendsActiveTip, htip, beq_eq_false_iff_ne]
      exact hextends
    have htip' : P.ledger.tipHash s.ledger ≠ some (P.block.previousHash block) := by
      rw [htip]
      exact fun heq => hextends (Option.some.inj heq).symm
    simp only [hfalse, Bool.false_eq_true, if_false, hreplay, hroot, happly, htip', or_false]
    cases s.genesisAccounts.isEmpty with
    | true => rfl
    | false => rfl

/-- Only a block above another one applies. -/
theorem Applies.height_ne (hchain : ChainLaws P) (h : Applies s block parent child) :
    P.block.height block ≠ 0 := by
  intro hzero
  obtain ⟨tipHash, tipHeight, hhash, hheight⟩ := ledgerForBranchTip_tip hchain h.parent_replay
  have hlink := (applyBlock_link hchain h.apply hhash hheight).2
  rw [hzero] at hlink
  simp at hlink

section Laws

variable (hfc : ForkChoiceLaws P) (hchain : ChainLaws P)

/-- Both validation paths end in the same place: the block applies to the
replay of its parent's branch. -/
theorem applies_of_valid (hs : Synced s r) (h : s.validateBlockStateForKnownParent block = .ok ()) :
    ∃ parent child, Applies s block parent child := by
  obtain ⟨t, bs, htip, -, hreplay⟩ := hs.replayed
  unfold validateBlockStateForKnownParent at h
  split at h
  · -- the fast path: the active ledger is the replay of the parent
    next hextends =>
    have hprev : P.block.previousHash block = t := by
      simp only [extendsActiveTip, htip, beq_iff_eq] at hextends
      exact hextends
    split at h
    · contradiction
    next hroot =>
    split at h
    · contradiction
    next child happly =>
    exact ⟨s.ledger, child, hprev ▸ hreplay, hroot, happly⟩
  · split at h
    · contradiction
    split at h
    · contradiction
    next parent hparent =>
    split at h
    · contradiction
    next hroot =>
    split at h
    · contradiction
    next child happly =>
    exact ⟨parent, child, hparent, hroot, happly⟩

include hfc in
/-- The index after an accepted block: still a tree, the block's parent and
the block itself on a branch. -/
theorem insert_rooted (hs : Synced s r) (hheight : P.block.height block ≠ 0)
    (hinsert : P.forkChoice.insertBlock s.forkChoice block = .ok (hash, forkChoice)) :
    (indexed forkChoice).Rooted r ∧ ∃ bs,
      (indexed s.forkChoice).Branch r (P.block.previousHash block) bs ∧
      (indexed forkChoice).Branch r hash (bs ++ [block]) := by
  obtain ⟨-, hfresh, hparent, -⟩ := hfc.insert_ok hinsert
  obtain ⟨entry, hentry⟩ := Option.isSome_iff_exists.mp (hparent (not_parentless hheight))
  have hknown : (indexed s.forkChoice).item (P.block.previousHash block) = some entry.block :=
    indexed_item_eq_some.mpr ⟨entry, hentry, rfl⟩
  have hblock : parentHash block = some (P.block.previousHash block) :=
    parentHash_eq_some.mpr ⟨hheight, rfl⟩
  have hext := indexed_extends hfc hinsert
  obtain ⟨bs, hbs⟩ := hs.rooted.branch hknown
  rw [indexed_insert hfc hinsert] at hext ⊢
  refine ⟨hs.rooted.insert (indexed_item_eq_none.mpr hfresh) hblock hknown, bs, hbs, ?_⟩
  exact .step (hbs.mono hext) (Forest.insert_item_self _ _) hblock

include hfc hchain in
/-- A block that applies and enters the index is accepted. -/
theorem Applies.accepted (h : Applies s block parent child) (hs : Synced s r)
    (hinsert : P.forkChoice.insertBlock s.forkChoice block = .ok (hash, forkChoice)) :
    Accepted s block forkChoice parent child := by
  have hheight := h.height_ne hchain
  obtain ⟨-, bs, hbs, -⟩ := insert_rooted hfc hs hheight hinsert
  have hext := indexed_extends hfc hinsert
  have hitem := indexed_item_of_insert hfc hinsert
  refine ⟨hheight, h.parent_replay, h.state_root, h.apply, ?_⟩
  rw [ledgerForBranchTip_step hfc (hbs.mono hext) hitem (parentHash_eq_some.mpr ⟨hheight, rfl⟩)]
  refine ⟨parent, ?_, h.apply⟩
  rw [ledgerForBranchTip_mono hfc hext _ hbs, h.parent_replay]

include hfc hchain in
theorem accepted_of_valid (hs : Synced s r)
    (hstate : s.validateBlockStateForKnownParent block = .ok ())
    (hinsert : P.forkChoice.insertBlock s.forkChoice block = .ok (hash, forkChoice)) :
    ∃ parent child, Accepted s block forkChoice parent child := by
  obtain ⟨parent, child, happlies⟩ := applies_of_valid hs hstate
  exact ⟨parent, child, happlies.accepted hfc hchain hs hinsert⟩

end Laws

/-! ## Where a run starts -/

/-- The orphan pool and the request queue are empty. -/
structure Idle (s : Node P) : Prop where
  orphanBlocks : s.orphanBlocks = ∅
  orphanChildrenByParent : s.orphanChildrenByParent = ∅
  missingParentRequests : s.missingParentRequests = []
  missingParentRequestSet : s.missingParentRequestSet = ∅
  missingParentRetryAt : s.missingParentRetryAt = ∅

/-- The node knows the genesis block `g` and nothing else. -/
structure GenesisOnly (s : Node P) (g : P.Block) : Prop where
  height : P.block.height g = 0
  index : ∀ hash, P.forkChoice.get s.forkChoice hash =
    if P.block.hash g = hash then some ⟨P.block.hash g, 0, g⟩ else none
  chain : P.ledger.insertBlock (Chain.new P.Block) g = .ok s.ledger.chain
  accounts : s.genesisAccounts = s.ledger.accounts
  idle : s.Idle

/-- A node that knows the genesis block only is in sync with it. -/
theorem GenesisOnly.synced (hfc : ForkChoiceLaws P) (hchain : ChainLaws P) {g : P.Block}
    (h : s.GenesisOnly g) : Synced s (P.block.hash g) := by
  have hitem : (indexed s.forkChoice).item (P.block.hash g) = some g :=
    indexed_item_eq_some.mpr ⟨_, (h.index _).trans (if_pos rfl), rfl⟩
  have hroot : Parentless g := hchain.insert_first h.chain
  refine ⟨⟨⟨g, hitem, hroot⟩, ?_⟩, P.block.hash g, [], (hchain.insert_tip _ h.chain).1,
    .root hitem hroot, ?_⟩
  · intro hash b hb
    obtain ⟨entry, hentry, rfl⟩ := indexed_item_eq_some.mp hb
    rw [h.index hash] at hentry
    split at hentry
    · next hhash =>
        subst hhash
        exact ⟨[], .root hitem hroot⟩
    · cases hentry
  · rw [ledgerForBranchTip_eq_ok hfc (.root hitem hroot) hitem]
    unfold replay
    rw [h.chain, h.accounts]
    rfl

/-! ## What connecting does -/

/-- How an accepted block leaves the node: filed as a side block, or the
ledger moved to the block's own replay and written. -/
inductive Connected (env : Env) (s : Node P) (block : P.Block) (hash : BlockHash)
    (child : P.Ledger) : Node P × Except NodeError Unit → Prop
  | side (hbest : (P.forkChoice.bestTip s.forkChoice).map ForkNode.hash ≠ some hash) :
      Connected env s block hash child (s.saveSideBlock env block)
  | active (hbest : (P.forkChoice.bestTip s.forkChoice).map ForkNode.hash = some hash)
      (mempool mempool' : Mempool P) (cache : CoreCache P) (k : Nat)
      {written : Node P × Except NodeError Unit}
      (hwrite : written =
        saveLedger env { s with ledger := child, mempool := mempool, cache := cache }) :
      Connected env s block hash child
        ({ written.1 with mempool := mempool', io := written.1.io + k }, written.2)

/-- A reorg that has all it asks for: the new ledger is written, and after a
successful write the disconnected transactions go back to the mempool. -/
theorem reorgToBestTip_eq (env : Env) {bestTip : ForkNode P.Block} {ancestor : BlockHash}
    {branch : List P.Block} {ledger : P.Ledger} (hfunded : s.genesisAccounts.isEmpty = false)
    (hbest : P.forkChoice.bestTip s.forkChoice = some bestTip)
    (hancestor : commonAncestor s.forkChoice (P.ledger.tipHash s.ledger) bestTip.hash =
      some ancestor)
    (hbranch : P.forkChoice.branchFromAncestor s.forkChoice ancestor bestTip.hash = some branch)
    (hledger : ledgerForBranchTip s.forkChoice s.genesisAccounts bestTip.hash = .ok ledger) :
    s.reorgToBestTip env = reconnect env s.ledger.chain.blocks.valuesList bestTip.hash
      (saveLedger env { s with ledger := ledger, cache := CoreCache.fromLedger ledger }) := by
  unfold reorgToBestTip
  simp only [hfunded, Bool.false_eq_true, if_false, hbest, hancestor, hbranch, hledger]

/-- A block that has passed validation and wins from a side branch gives the
reorg all it asks for. -/
theorem reorgToBestTip_of_accepted (hfc : ForkChoiceLaws P) (env : Env) (hs : Synced s r)
    (hstate : s.validateBlockStateForKnownParent block = .ok ())
    (hinsert : P.forkChoice.insertBlock s.forkChoice block = .ok (P.block.hash block, forkChoice))
    (hacc : Accepted s block forkChoice parent child)
    (hbest : (P.forkChoice.bestTip forkChoice).map ForkNode.hash = some (P.block.hash block))
    (hextends : extendsActiveTip s.ledger block = false) :
    reorgToBestTip env { s.tick with forkChoice := forkChoice } =
      reconnect env s.ledger.chain.blocks.valuesList (P.block.hash block)
        (saveLedger env { s.tick with
          forkChoice := forkChoice, ledger := child, cache := CoreCache.fromLedger child }) := by
  obtain ⟨t, bs, htip, hbranch, -⟩ := hs.replayed
  obtain ⟨bestTip, hbestTip, hhash⟩ := Option.map_eq_some_iff.mp hbest
  obtain ⟨-, bs', -, hbranch'⟩ := insert_rooted hfc hs hacc.height_ne hinsert
  obtain ⟨ancestor, branch, hancestor, hbr⟩ := commonAncestor_of_rooted hfc
    (hbranch.mono (indexed_extends hfc hinsert)) hbranch'
  have hfunded : s.genesisAccounts.isEmpty = false := genesisAccounts_of_valid hstate hextends
  rw [← hhash]
  exact reorgToBestTip_eq env (s := { s.tick with forkChoice := forkChoice }) hfunded hbestTip
    (by simpa only [tick, htip, hhash]) (by simpa only [tick, hhash])
    (by simpa only [tick, hhash] using hacc.child_replay)

/-- A reorg connects the block that has won. -/
theorem connected_of_reconnect (env : Env)
    (hbest : (P.forkChoice.bestTip s.forkChoice).map ForkNode.hash = some hash) :
    Connected env s block hash child (reconnect env s.ledger.chain.blocks.valuesList hash
      (saveLedger env { s with ledger := child, cache := CoreCache.fromLedger child })) := by
  rcases hsave : saveLedger env { s with ledger := child, cache := CoreCache.fromLedger child } with
    ⟨s', e | u⟩
  · exact .active hbest s.mempool s'.mempool _ 0 hsave.symm
  · unfold reconnect
    obtain ⟨mempool', hfold⟩ := foldl_reinsert env
      (disconnectedTransactions s.ledger.chain.blocks.valuesList
        (P.forkChoice.ancestorHashes s'.forkChoice hash)) s'
    simp only [hfold]
    exact .active hbest s.mempool mempool' _ _ hsave.symm

/-- An accepted block that has entered the index is filed as a side block or
becomes the tip of the ledger. -/
theorem connect_connected (hfc : ForkChoiceLaws P) (env : Env) (hs : Synced s r)
    (hstate : s.validateBlockStateForKnownParent block = .ok ())
    (hinsert : P.forkChoice.insertBlock s.forkChoice block = .ok (P.block.hash block, forkChoice))
    (hacc : Accepted s block forkChoice parent child) :
    Connected env { s.tick with forkChoice := forkChoice } block (P.block.hash block) child
      (connect env { s.tick with forkChoice := forkChoice } block (P.block.hash block)) := by
  obtain ⟨t, bs, htip, hbranch, hreplay⟩ := hs.replayed
  unfold connect
  split
  · next hbest => exact .side hbest
  next hbest =>
  have hbest : (P.forkChoice.bestTip forkChoice).map ForkNode.hash =
      some (P.block.hash block) := by
    simpa using hbest
  split
  · next hextends =>
      -- the block sits on the ledger's tip, so its parent's replay is the ledger
      have hprev : P.block.previousHash block = t := by
        simp only [extendsActiveTip, tick, htip, beq_iff_eq] at hextends
        exact hextends
      have hparent : s.ledger = parent := by
        have := hacc.parent_replay
        rw [hprev, hreplay] at this
        exact Except.ok.inj this
      have happly : P.ledger.applyBlock s.ledger block = .ok child := hparent ▸ hacc.apply
      simp only [extendTip, tick, happly]
      exact .active hbest (s.mempool.removeConfirmed block) _ _ 0 rfl
  · next hextends =>
      rw [reorgToBestTip_of_accepted hfc env hs hstate hinsert hacc hbest
        (by simpa [tick] using hextends)]
      exact connected_of_reconnect env hbest

/-- **Every way a block can end, under the invariant**: rejected with only
the clock read, or accepted and connected. -/
theorem applyKnownParentBlock_connected (hfc : ForkChoiceLaws P) (hchain : ChainLaws P) (env : Env)
    (hs : Synced s r) (block : P.Block) :
    (∃ e, s.applyKnownParentBlock env block = (s.tick, .error e)) ∨
      ∃ forkChoice parent child,
        s.validateBlockForKnownParent (env.clock s.io) block = .ok () ∧
        P.forkChoice.insertBlock s.forkChoice block = .ok (P.block.hash block, forkChoice) ∧
        Accepted s block forkChoice parent child ∧
        Connected env { s.tick with forkChoice := forkChoice } block (P.block.hash block) child
          (s.applyKnownParentBlock env block) := by
  rcases applyKnownParentBlock_cases env s block with h | ⟨hash, fc, hvalid, hstate, hinsert, h⟩
  · exact .inl h
  obtain ⟨parent, child, hacc⟩ := accepted_of_valid hfc hchain hs hstate hinsert
  obtain rfl := (hfc.insert_ok hinsert).1
  refine .inr ⟨fc, parent, child, hvalid, hinsert, hacc, ?_⟩
  rw [h]
  exact connect_connected hfc env hs hstate hinsert hacc

end Node

end PaqusNode
