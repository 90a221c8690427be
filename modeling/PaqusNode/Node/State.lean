import PaqusNode.Mempool
import PaqusNode.Miner
import PaqusNode.Cache
import PaqusNode.Storage

/-!
# PaqusNode.Node.State

The node (`runtime/node/node.rs`): its state, the validation of a block whose
parent is known, and how such a block moves the active chain.

A method taking `&mut self` and returning `Result` returns the node next to
the result: what an early `?` leaves behind is part of its meaning.  Every
reading of the clock and every database transaction consumes one entry of
the environment (`Env`).  Two fields of `Node` are not in the source: `io`
counts those interactions, and `durable` remembers what the last committed
transaction saw in memory.  No operation reads `durable`; it is there to
state what a restart gives back.
-/

namespace PaqusNode

def maxOrphanBlocks : Nat := 1024

def maxOrphanHeightDistance : UInt64 := 512

def orphanBlockTtlSecs : UInt64 := 10 * 60

def missingParentRetrySecs : UInt64 := 5

inductive NodeError where
  | consensus (error : ConsensusError)
  | forkChoice (error : ForkChoiceError)
  | ledger (error : LedgerError)
  | mempool (error : MempoolError)
  | storage (error : StorageError)
  | miningExhausted
  | missingGenesisState
  | checkpointMismatch
  | reorgRequired
  /-- A failed `assert_eq!` or `expect`: the process is gone. -/
  | panicked (message : String)
deriving DecidableEq, Repr

structure OrphanBlock (P : Paqus) where
  block : P.Block
  receivedAt : UInt64

/-- The ledger at the last successful `save_ledger`, and the fork-choice
index at the last successful write of any kind. -/
structure Durable (P : Paqus) where
  ledger : P.Ledger
  forkChoice : P.ForkChoice

structure Node (P : Paqus) where
  ledger : P.Ledger
  mempool : Mempool P
  storage : Storage P
  consensus : Consensus
  cache : CoreCache P
  forkChoice : P.ForkChoice
  genesisAccounts : BTreeMap Address P.Account
  orphanBlocks : BTreeMap BlockHash (OrphanBlock P)
  orphanChildrenByParent : BTreeMap BlockHash (List BlockHash)
  missingParentRequests : List BlockHash
  missingParentRequestSet : BTreeSet BlockHash
  missingParentRetryAt : BTreeMap BlockHash UInt64
  io : Nat
  durable : Durable P

variable {P : Paqus}

/-! ## Replaying a branch -/

/-- `ledger_for_branch_tip`: the ledger after replaying, from the genesis
accounts, the branch that ends in `tip`. -/
def ledgerForBranchTip (forkChoice : P.ForkChoice) (genesisAccounts : BTreeMap Address P.Account)
    (tip : BlockHash) : Except NodeError P.Ledger :=
  let genesisHash := (P.forkChoice.ancestorHashes forkChoice tip).getLast?.getD tip
  match P.forkChoice.get forkChoice genesisHash with
  | none => .error .reorgRequired
  | some genesis =>
  match P.ledger.insertBlock (Chain.new P.Block) genesis.block with
  | .error e => .error (.ledger e)
  | .ok chain =>
  match P.forkChoice.branchFromAncestor forkChoice genesisHash tip with
  | none => .error .reorgRequired
  | some branch =>
  match branch.foldlM P.ledger.applyBlock ⟨genesisAccounts, chain⟩ with
  | .error e => .error (.ledger e)
  | .ok ledger => .ok ledger

/-- The test `block.previous_hash() == tip_hash`, with an empty ledger
extended by a block of height 0. -/
def extendsActiveTip (ledger : P.Ledger) (block : P.Block) : Bool :=
  match P.ledger.tipHash ledger with
  | some tipHash => P.block.previousHash block == tipHash
  | none => P.block.height block == 0

/-- `validate_canonical_state_root`. -/
def validateCanonicalStateRoot (ledger : P.Ledger) (block : P.Block) : Except NodeError Unit :=
  match P.ledger.stateRootAfterBlock ledger block with
  | .error e => .error (.ledger e)
  | .ok expectedStateRoot =>
      if P.block.stateRoot block ≠ expectedStateRoot then
        .error (.ledger .invalidStateRoot)
      else if !P.block.isGenesis block ∧ P.block.stateRoot block = 0 then
        .error (.ledger .invalidStateRoot)
      else .ok ()

/-- `common_ancestor`. -/
def commonAncestor (forkChoice : P.ForkChoice) (oldTip : Option BlockHash) (newTip : BlockHash) :
    Option BlockHash :=
  match oldTip with
  | none => none
  | some oldTip =>
      let oldAncestors := P.forkChoice.ancestorHashes forkChoice oldTip
      (P.forkChoice.ancestorHashes forkChoice newTip).find? fun hash => oldAncestors.contains hash

/-- `next_difficulty_after_branch_tip`. -/
def nextDifficultyAfterBranchTip (consensus : Consensus) (forkChoice : P.ForkChoice)
    (tipHash : BlockHash) : Except NodeError UInt32 :=
  match P.forkChoice.get forkChoice tipHash with
  | none => .error (.forkChoice .missingParent)
  | some tip =>
      if tip.height < P.consensus.difficultyAdjustmentInterval then
        .ok consensus.config.difficulty
      else
        let firstHeight := tip.height - P.consensus.difficultyAdjustmentInterval
        match (P.forkChoice.ancestorHashes forkChoice tipHash).find? fun hash =>
            (P.forkChoice.get forkChoice hash).any fun node => node.height == firstHeight with
        | none => .error .reorgRequired
        | some firstHash =>
            match P.forkChoice.get forkChoice firstHash with
            | none => .error .reorgRequired
            | some first =>
                let blockCount := satSub tip.height first.height
                match P.consensus.retargetDifficulty consensus (P.block.difficulty tip.block)
                    (P.block.timestamp first.block) (P.block.timestamp tip.block) blockCount with
                | .error e => .error (.consensus e)
                | .ok difficulty => .ok difficulty

namespace Node

/-- Advance the environment by one interaction. -/
def tick (s : Node P) : Node P := { s with io := s.io + 1 }

/-! ## Validation -/

/-- `validate_block_for_known_parent`, at the clock reading `now`. -/
def validateBlockForKnownParent (s : Node P) (now : UInt64) (block : P.Block) :
    Except NodeError Unit :=
  if P.block.height block = 0 then
    match P.consensus.validateGenesisBlockAt s.consensus block now with
    | .error e => .error (.consensus e)
    | .ok () => .ok ()
  else
    match P.forkChoice.get s.forkChoice (P.block.previousHash block) with
    | none => .error (.forkChoice .missingParent)
    | some parent =>
        let difficultyCheck : Except NodeError Unit :=
          if s.consensus.config.difficulty ≠ 0 then
            match nextDifficultyAfterBranchTip s.consensus s.forkChoice parent.hash with
            | .error e => .error e
            | .ok expectedDifficulty =>
                if P.block.difficulty block ≠ expectedDifficulty then
                  .error (.consensus .unexpectedDifficulty)
                else .ok ()
          else .ok ()
        match difficultyCheck with
        | .error e => .error e
        | .ok () =>
        match P.consensus.validateNextBlockWithTipAt s.consensus block parent.block now with
        | .error e => .error (.consensus e)
        | .ok () =>
            if !P.consensus.validateCheckpoint (P.block.height block) (P.block.hash block) then
              .error .checkpointMismatch
            else .ok ()

/-- `validate_block_state_for_known_parent`: against the active ledger when
the block extends it, against a replay of the parent's branch otherwise. -/
def validateBlockStateForKnownParent (s : Node P) (block : P.Block) : Except NodeError Unit :=
  if extendsActiveTip s.ledger block then
    match validateCanonicalStateRoot s.ledger block with
    | .error e => .error e
    | .ok () =>
    match P.ledger.applyBlock s.ledger block with
    | .error e => .error (.ledger e)
    | .ok _ => .ok ()
  else if s.genesisAccounts.isEmpty then .error .missingGenesisState
  else
    match ledgerForBranchTip s.forkChoice s.genesisAccounts (P.block.previousHash block) with
    | .error e => .error e
    | .ok ledger =>
    match validateCanonicalStateRoot ledger block with
    | .error e => .error e
    | .ok () =>
    match P.ledger.applyBlock ledger block with
    | .error e => .error (.ledger e)
    | .ok _ => .ok ()

/-! ## Writing to storage -/

/-- `storage.save_ledger(&self.ledger)?`. -/
def saveLedger (env : Env) (s : Node P) : Node P × Except NodeError Unit :=
  match s.storage.saveLedger env s.io s.ledger with
  | (storage, .error e) => ({ s.tick with storage := storage }, .error (.storage e))
  | (storage, .ok ()) =>
      ({ s.tick with storage := storage, durable := ⟨s.ledger, s.forkChoice⟩ }, .ok ())

/-- `storage.save_side_block(&block)?`. -/
def saveSideBlock (env : Env) (s : Node P) (block : P.Block) : Node P × Except NodeError Unit :=
  match s.storage.saveSideBlock env s.io block with
  | (storage, .error e) => ({ s.tick with storage := storage }, .error (.storage e))
  | (storage, .ok ()) =>
      ({ s.tick with
        storage := storage
        durable := { s.durable with forkChoice := s.forkChoice } }, .ok ())

/-- `flush_to_storage`. -/
def flushToStorage (env : Env) (s : Node P) : Node P × Except NodeError Unit :=
  s.saveLedger env

/-! ## Moving the active chain -/

/-- The transactions of the blocks of `oldBlocks` that are not on the
winning branch, in chain order. -/
def disconnectedTransactions (oldBlocks : List P.Block) (winningHashes : List BlockHash) :
    List P.SignedTransaction :=
  (oldBlocks.filter fun block => !winningHashes.contains (P.block.hash block)).flatMap
    P.block.transactions

/-- One re-insertion of a reorg: `let _ = insert_validated(..)`. -/
def reinsert (env : Env) (s : Node P) (transaction : P.SignedTransaction) : Node P :=
  { s.tick with
    mempool := (s.mempool.insertValidatedAt s.ledger transaction (env.clock s.io)).1 }

/-- The end of `reorg_to_best_tip`, after the new ledger has been written: the
transactions of the blocks that are no longer on the chain go back to the
mempool. -/
def reconnect (env : Env) (oldBlocks : List P.Block) (bestTip : BlockHash) :
    Node P × Except NodeError Unit → Node P × Except NodeError Unit
  | (s, .error e) => (s, .error e)
  | (s, .ok ()) =>
      let winningHashes := P.forkChoice.ancestorHashes s.forkChoice bestTip
      ((disconnectedTransactions oldBlocks winningHashes).foldl (reinsert env) s, .ok ())

/-- `reorg_to_best_tip`. -/
def reorgToBestTip (env : Env) (s : Node P) : Node P × Except NodeError Unit :=
  if s.genesisAccounts.isEmpty then (s, .error .missingGenesisState)
  else
    let oldBlocks := s.ledger.chain.blocks.valuesList
    match P.forkChoice.bestTip s.forkChoice with
    | none => (s, .error .reorgRequired)
    | some bestTip =>
    match commonAncestor s.forkChoice (P.ledger.tipHash s.ledger) bestTip.hash with
    | none => (s, .error .reorgRequired)
    | some ancestor =>
    match P.forkChoice.branchFromAncestor s.forkChoice ancestor bestTip.hash with
    | none => (s, .error .reorgRequired)
    | some _winningBranch =>
    match ledgerForBranchTip s.forkChoice s.genesisAccounts bestTip.hash with
    | .error e => (s, .error e)
    | .ok ledger =>
        reconnect env oldBlocks bestTip.hash
          (saveLedger env { s with ledger := ledger, cache := CoreCache.fromLedger ledger })

/-- The cache after `block` has been applied to give `ledger`. -/
def refreshCache (cache : CoreCache P) (ledger : P.Ledger) (block : P.Block) : CoreCache P :=
  let refresh (cache : CoreCache P) (address : Address) : CoreCache P :=
    match ledger.account address with
    | some account => cache.insertAccount account
    | none => cache
  let cache := (P.block.transactions block).foldl
    (fun cache transaction =>
      refresh (refresh cache (P.transaction.sender transaction))
        (P.transaction.receiver transaction))
    (cache.insertBlock block)
  refresh cache (P.block.minerAddress block)

/-- The last part of `apply_known_parent_block`, for a block on top of the
active tip. -/
def extendTip (env : Env) (s : Node P) (block : P.Block) : Node P × Except NodeError Unit :=
  match P.ledger.applyBlock s.ledger block with
  | .error e => (s, .error (.ledger e))
  | .ok ledger =>
      saveLedger env { s with
        ledger := ledger
        mempool := s.mempool.removeConfirmed block
        cache := refreshCache s.cache ledger block }

/-- `apply_known_parent_block` once the block is in the fork-choice index. -/
def connect (env : Env) (s : Node P) (block : P.Block) (blockHash : BlockHash) :
    Node P × Except NodeError Unit :=
  if (P.forkChoice.bestTip s.forkChoice).map ForkNode.hash ≠ some blockHash then
    s.saveSideBlock env block
  else if extendsActiveTip s.ledger block then s.extendTip env block
  else s.reorgToBestTip env

/-- `apply_known_parent_block`. -/
def applyKnownParentBlock (env : Env) (s : Node P) (block : P.Block) :
    Node P × Except NodeError Unit :=
  match s.validateBlockForKnownParent (env.clock s.io) block with
  | .error e => (s.tick, .error e)
  | .ok () =>
  match s.validateBlockStateForKnownParent block with
  | .error e => (s.tick, .error e)
  | .ok () =>
  match P.forkChoice.insertBlock s.forkChoice block with
  | .error e => (s.tick, .error (.forkChoice e))
  | .ok (blockHash, forkChoice) =>
      connect env { s.tick with forkChoice := forkChoice } block blockHash

/-! ## What connecting a block can do -/

@[simp] theorem tick_io (s : Node P) : s.tick.io = s.io + 1 := rfl

/-- Only the chain side of the node differs: the orphan pool, the request
queue and the configuration are the same. -/
structure OnlyChain (s s' : Node P) : Prop where
  consensus : s'.consensus = s.consensus
  genesisAccounts : s'.genesisAccounts = s.genesisAccounts
  orphanBlocks : s'.orphanBlocks = s.orphanBlocks
  orphanChildrenByParent : s'.orphanChildrenByParent = s.orphanChildrenByParent
  missingParentRequests : s'.missingParentRequests = s.missingParentRequests
  missingParentRequestSet : s'.missingParentRequestSet = s.missingParentRequestSet
  missingParentRetryAt : s'.missingParentRetryAt = s.missingParentRetryAt
  io : s.io ≤ s'.io

theorem OnlyChain.refl (s : Node P) : OnlyChain s s :=
  ⟨rfl, rfl, rfl, rfl, rfl, rfl, rfl, Nat.le_refl _⟩

/-- One change to the chain after the other. -/
theorem OnlyChain.trans {s₁ s₂ s₃ : Node P} (h : OnlyChain s₁ s₂) (h' : OnlyChain s₂ s₃) :
    OnlyChain s₁ s₃ where
  consensus := h'.consensus.trans h.consensus
  genesisAccounts := h'.genesisAccounts.trans h.genesisAccounts
  orphanBlocks := h'.orphanBlocks.trans h.orphanBlocks
  orphanChildrenByParent := h'.orphanChildrenByParent.trans h.orphanChildrenByParent
  missingParentRequests := h'.missingParentRequests.trans h.missingParentRequests
  missingParentRequestSet := h'.missingParentRequestSet.trans h.missingParentRequestSet
  missingParentRetryAt := h'.missingParentRetryAt.trans h.missingParentRetryAt
  io := Nat.le_trans h.io h'.io

/-- A write changes the database (and what is remembered of it), nothing
else in memory. -/
theorem saveLedger_fst (env : Env) (s : Node P) :
    ∃ storage durable,
      (s.saveLedger env).1 = { s.tick with storage := storage, durable := durable } := by
  unfold saveLedger
  split
  · exact ⟨_, _, rfl⟩
  · exact ⟨_, _, rfl⟩

theorem saveSideBlock_fst (env : Env) (s : Node P) (block : P.Block) :
    ∃ storage durable,
      (s.saveSideBlock env block).1 = { s.tick with storage := storage, durable := durable } := by
  unfold saveSideBlock
  split
  · exact ⟨_, _, rfl⟩
  · exact ⟨_, _, rfl⟩

/-- Re-inserting transactions changes the mempool only. -/
theorem foldl_reinsert (env : Env) (transactions : List P.SignedTransaction) (s : Node P) :
    ∃ mempool, transactions.foldl (reinsert env) s =
      { s with mempool := mempool, io := s.io + transactions.length } := by
  induction transactions generalizing s with
  | nil => exact ⟨s.mempool, rfl⟩
  | cons t ts ih =>
      obtain ⟨mempool, h⟩ := ih (reinsert env s t)
      refine ⟨mempool, ?_⟩
      rw [List.foldl_cons, h, List.length_cons]
      simp only [reinsert, tick, Nat.add_assoc, Nat.add_comm 1]

/-- What connecting a block does to the node, whatever is written and
returned: nothing but a write, the ledger extended by the block, or the
ledger replaced by the replay of the best branch and transactions of the
disconnected blocks offered to the mempool again. -/
inductive ConnectsTo (env : Env) (s : Node P) (block : P.Block) : Node P → Prop
  | refused : ConnectsTo env s block s
  | side (storage : Storage P) (durable : Durable P) :
      ConnectsTo env s block { s.tick with storage := storage, durable := durable }
  | extended {ledger : P.Ledger} (happly : P.ledger.applyBlock s.ledger block = .ok ledger)
      (storage : Storage P) (durable : Durable P) :
      ConnectsTo env s block { s.tick with
        ledger := ledger, mempool := s.mempool.removeConfirmed block
        cache := refreshCache s.cache ledger block, storage := storage, durable := durable }
  | reorged {bestTip : ForkNode P.Block} {ledger : P.Ledger} {offered : List P.SignedTransaction}
      (hside : extendsActiveTip s.ledger block = false)
      (hledger : ledgerForBranchTip s.forkChoice s.genesisAccounts bestTip.hash = .ok ledger)
      (hoffered : offered.Sublist (disconnectedTransactions s.ledger.chain.blocks.valuesList
        (P.forkChoice.ancestorHashes s.forkChoice bestTip.hash)))
      (storage : Storage P) (durable : Durable P) :
      ConnectsTo env s block (offered.foldl (reinsert env) { s.tick with
        ledger := ledger, cache := CoreCache.fromLedger ledger
        storage := storage, durable := durable })

/-- A block that wins from a side branch starts a reorg. -/
theorem reorgToBestTip_connectsTo (env : Env) {s : Node P} {block : P.Block}
    (hside : extendsActiveTip s.ledger block = false) :
    ConnectsTo env s block (s.reorgToBestTip env).1 := by
  unfold reorgToBestTip
  split
  · exact .refused
  split
  · exact .refused
  split
  · exact .refused
  split
  · exact .refused
  split
  · exact .refused
  next ledger hledger =>
  obtain ⟨storage, durable, hsave⟩ := saveLedger_fst env
    { s with ledger := ledger, cache := CoreCache.fromLedger ledger }
  rcases hs : saveLedger env { s with ledger := ledger, cache := CoreCache.fromLedger ledger } with
    ⟨s', e | u⟩
  all_goals
    rw [hs] at hsave
    subst hsave
  · exact .reorged hside hledger (List.nil_sublist _) storage durable
  · exact .reorged hside hledger (.refl _) storage durable

/-- **Every way a block in the index can end.** -/
theorem connect_connectsTo (env : Env) (s : Node P) (block : P.Block) (hash : BlockHash) :
    ConnectsTo env s block (s.connect env block hash).1 := by
  unfold connect
  split
  · obtain ⟨storage, durable, hsave⟩ := saveSideBlock_fst env s block
    rw [hsave]
    exact .side storage durable
  split
  · unfold extendTip
    split
    · exact .refused
    next ledger happly =>
    obtain ⟨storage, durable, hsave⟩ := saveLedger_fst env { s with
      ledger := ledger
      mempool := s.mempool.removeConfirmed block
      cache := refreshCache s.cache ledger block }
    rw [hsave]
    exact .extended happly storage durable
  · next hside => exact reorgToBestTip_connectsTo env (Bool.not_eq_true _ ▸ hside)

/-- **Every way a block with a known parent can end**: rejected with only
the clock read, or entered into the fork-choice index and connected. -/
theorem applyKnownParentBlock_cases (env : Env) (s : Node P) (block : P.Block) :
    (∃ e, s.applyKnownParentBlock env block = (s.tick, .error e)) ∨
      ∃ hash forkChoice,
        s.validateBlockForKnownParent (env.clock s.io) block = .ok () ∧
        s.validateBlockStateForKnownParent block = .ok () ∧
        P.forkChoice.insertBlock s.forkChoice block = .ok (hash, forkChoice) ∧
        s.applyKnownParentBlock env block =
          connect env { s.tick with forkChoice := forkChoice } block hash := by
  unfold applyKnownParentBlock
  split
  · exact .inl ⟨_, rfl⟩
  next hvalid =>
  split
  · exact .inl ⟨_, rfl⟩
  next hstate =>
  split
  · exact .inl ⟨_, rfl⟩
  next hash forkChoice hinsert =>
  exact .inr ⟨hash, forkChoice, hvalid, hstate, hinsert, rfl⟩

/-- Connecting a block in the index leaves the index, the orphan pool and the
request queue alone. -/
theorem connect_frame (env : Env) (s : Node P) (block : P.Block) (hash : BlockHash) :
    OnlyChain s (s.connect env block hash).1 ∧
      (s.connect env block hash).1.forkChoice = s.forkChoice := by
  have h := connect_connectsTo env s block hash
  generalize (s.connect env block hash).1 = s' at h
  cases h with
  | refused => exact ⟨.refl s, rfl⟩
  | side => exact ⟨⟨rfl, rfl, rfl, rfl, rfl, rfl, rfl, Nat.le_succ _⟩, rfl⟩
  | extended => exact ⟨⟨rfl, rfl, rfl, rfl, rfl, rfl, rfl, Nat.le_succ _⟩, rfl⟩
  | @reorged _ ledger offered _ _ _ storage durable =>
      obtain ⟨mempool, hfold⟩ := foldl_reinsert env offered { s.tick with
        ledger := ledger, cache := CoreCache.fromLedger ledger
        storage := storage, durable := durable }
      rw [hfold]
      refine ⟨⟨rfl, rfl, rfl, rfl, rfl, rfl, rfl, ?_⟩, rfl⟩
      simp only [tick_io]
      omega

theorem connect_forkChoice (env : Env) (s : Node P) (block : P.Block) (hash : BlockHash) :
    (s.connect env block hash).1.forkChoice = s.forkChoice :=
  (connect_frame env s block hash).2

/-- Connecting a block never touches the orphan pool or the request queue. -/
theorem applyKnownParentBlock_onlyChain (env : Env) (s : Node P) (block : P.Block) :
    OnlyChain s (s.applyKnownParentBlock env block).1 := by
  rcases applyKnownParentBlock_cases env s block with ⟨e, h⟩ | ⟨hash, forkChoice, -, -, -, h⟩
  · rw [h]
    exact ⟨rfl, rfl, rfl, rfl, rfl, rfl, rfl, Nat.le_succ _⟩
  · rw [h]
    have hbefore : OnlyChain s { s.tick with forkChoice := forkChoice } :=
      ⟨rfl, rfl, rfl, rfl, rfl, rfl, rfl, Nat.le_succ _⟩
    exact hbefore.trans (connect_frame env _ block hash).1

end Node

end PaqusNode
