import Mathlib.Logic.Relation
import PaqusNode.Node.Invariant
import PaqusNode.Node.Open

/-!
# PaqusNode.Node.Run

Every operation of the node is a sequence of small steps: connecting one
block, writing the ledger, or bookkeeping that leaves the chain alone.  An
invariant of the steps is therefore an invariant of every run of
`apply_block`, `mine_block` and `flush_to_storage`, and holds between any
two writes of such a run as well.
-/

namespace PaqusNode

namespace Node

variable {P : Paqus}

variable {env : Env} {s s' : Node P} {child : P.Ledger} {r : BlockHash} {block : P.Block}

/-! ## Steps -/

/-- What the node does to its mempool outside of a reorg. -/
inductive PoolStep (s : Node P) : Mempool P → Prop
  | prune (now : UInt64) : PoolStep s (s.mempool.pruneExpired now)
  | insert (transaction : P.SignedTransaction) (now : UInt64) :
      PoolStep s (s.mempool.insertValidatedAt s.ledger transaction now).1

/-- One step of a running node. -/
inductive Step (env : Env) : Node P → Node P → Prop
  | connect (s : Node P) (block : P.Block) : Step env s (s.applyKnownParentBlock env block).1
  | save (s : Node P) : Step env s (s.saveLedger env).1
  | sync {s s' : Node P} (h : OnlySync s s') : Step env s s'
  | pool {s : Node P} {mempool : Mempool P} (h : PoolStep s mempool) :
      Step env s { s with mempool := mempool }

/-- Any number of steps. -/
abbrev Steps (env : Env) : Node P → Node P → Prop := Relation.ReflTransGen (Step env)

theorem Steps.connect (env : Env) (s : Node P) (block : P.Block) :
    Steps env s (s.applyKnownParentBlock env block).1 :=
  .single (.connect s block)

theorem Steps.sync (h : OnlySync s s') : Steps env s s' :=
  .single (.sync h)

/-- **Invariant rule.** -/
theorem Steps.invariant (I : Node P → Prop) (hrun : Steps env s s')
    (hstep : ∀ {s s'}, I s → Step env s s' → I s') (hs : I s) : I s' := by
  induction hrun with
  | refl => exact hs
  | tail _ h ih => exact hstep ih h

/-! ## Operations are sequences of steps -/

/-- The inner loop is a sequence of steps. -/
theorem processChildren_steps (env : Env) (children : List BlockHash) (s : Node P)
    (parents : List BlockHash) : Steps env s (processChildren env s parents children).1 := by
  induction children generalizing s parents with
  | nil => exact .refl
  | cons child rest ih =>
      unfold processChildren
      split
      · exact ih s parents
      next orphan horphan =>
      have htake : Steps env s { s with orphanBlocks := s.orphanBlocks.erase child } :=
        .sync ⟨rfl, rfl, rfl, rfl, rfl, rfl, rfl, rfl, Nat.le_refl _⟩
      have hconnect := htake.trans (Steps.connect env _ orphan.block)
      simp only
      split
      · next s' hs =>
          rw [hs] at hconnect
          exact hconnect.trans (ih _ _)
      · next s' hs =>
          rw [hs] at hconnect
          exact (hconnect.trans (Steps.sync (cacheOrphanBlock_onlySync env _ _))).trans (ih _ _)
      · next s' e he hs =>
          rw [hs] at hconnect
          exact hconnect.trans (ih _ _)

/-- So is the outer one. -/
theorem processParents_steps (env : Env) (s : Node P) (parents : List BlockHash) :
    Steps env s (s.processParents env parents) := by
  induction s, parents using processParents.induct env with
  | case1 s => unfold processParents; exact .refl
  | case2 s parent parents hnone ih =>
      unfold processParents
      simp only [hnone]
      exact ih
  | case3 s parent parents children hsome r ih =>
      unfold processParents
      simp only [hsome]
      have htake : Steps env s
          { s with orphanChildrenByParent := s.orphanChildrenByParent.erase parent } :=
        .sync ⟨rfl, rfl, rfl, rfl, rfl, rfl, rfl, rfl, Nat.le_refl _⟩
      exact (htake.trans (processChildren_steps env children _ parents)).trans ih

theorem processOrphansForParent_steps (env : Env) (s : Node P) (hash : BlockHash) :
    Steps env s (s.processOrphansForParent env hash) :=
  (Steps.sync (pruneOrphansNow_onlySync env s)).trans (processParents_steps env _ _)

/-- What `apply_block` does after the block itself is a sequence of steps. -/
theorem applyBlock_steps_of_connect (env : Env) (s : Node P) (block : P.Block) :
    Steps env ((s.pruneOrphansNow env).applyKnownParentBlock env block).1
      (s.applyBlock env block).1 := by
  unfold applyBlock
  split
  · next s' hs =>
      rw [hs]
      exact processOrphansForParent_steps env s' _
  · next s' hs =>
      rw [hs]
      exact .sync (cacheOrphanBlock_onlySync env s' block)
  all_goals
    next hs =>
      rw [hs]

/-- `apply_block` is a sequence of steps. -/
theorem applyBlock_steps (env : Env) (s : Node P) (block : P.Block) :
    Steps env s (s.applyBlock env block).1 :=
  ((Steps.sync (pruneOrphansNow_onlySync env s)).trans
    (Steps.connect env (s.pruneOrphansNow env) block)).trans
      (applyBlock_steps_of_connect env s block)

theorem applyBlocks_steps (env : Env) (blocks : List P.Block) (s : Node P) :
    Steps env s (s.applyBlocks env blocks) := by
  induction blocks generalizing s with
  | nil => exact .refl
  | cons block rest ih => exact (applyBlock_steps env s block).trans (ih _)

/-- `mine_block` is a sequence of steps. -/
theorem mineBlock_steps (env : Env) (s : Node P) (minerAddress : Address)
    (timestamp maxAttempts : UInt64) (transactionLimit : Nat) :
    Steps env s (s.mineBlock env minerAddress timestamp maxAttempts transactionLimit).1 := by
  have hprune : Steps env s { s with mempool := s.mempool.pruneExpired timestamp } :=
    .single (.pool (.prune timestamp))
  unfold mineBlock
  simp only
  split
  · exact hprune
  split
  · exact hprune
  · exact hprune
  next result _ =>
  have happly := hprune.trans (applyBlock_steps env _ result.block)
  split
  · next s' e hs =>
      rw [hs] at happly
      exact happly
  · next s' hs =>
      rw [hs] at happly
      exact happly

/-! ## Runs -/

/-- The calls a node receives while it runs. -/
inductive Operation (P : Paqus)
  | applyBlock (block : P.Block)
  | mineBlock (minerAddress : Address) (timestamp maxAttempts : UInt64) (transactionLimit : Nat)
  | flushToStorage
  | submitTransaction (transaction : P.SignedTransaction)
  | drainMissingParentRequests
  | retryMissingParentRequest (hash : BlockHash)

/-- One call, its result discarded. -/
def Operation.run (env : Env) (s : Node P) : Operation P → Node P
  | .applyBlock block => (s.applyBlock env block).1
  | .mineBlock minerAddress timestamp maxAttempts transactionLimit =>
      (s.mineBlock env minerAddress timestamp maxAttempts transactionLimit).1
  | .flushToStorage => (s.flushToStorage env).1
  | .submitTransaction transaction => (s.submitTransaction env transaction).1
  | .drainMissingParentRequests => (s.drainMissingParentRequests env).1
  | .retryMissingParentRequest hash => s.retryMissingParentRequest env hash

/-- A run: one call after the other. -/
def runAll (env : Env) (s : Node P) (operations : List (Operation P)) : Node P :=
  operations.foldl (Operation.run env) s

/-- **Every operation is a sequence of steps.** -/
theorem Operation.run_steps (env : Env) (s : Node P) (operation : Operation P) :
    Steps env s (operation.run env s) := by
  cases operation with
  | applyBlock block => exact applyBlock_steps env s block
  | mineBlock minerAddress timestamp maxAttempts transactionLimit =>
      exact mineBlock_steps env s minerAddress timestamp maxAttempts transactionLimit
  | flushToStorage => exact .single (.save s)
  | submitTransaction transaction =>
      exact (Steps.sync (OnlySync.tick s)).tail (.pool (.insert transaction _))
  | drainMissingParentRequests =>
      exact Steps.sync ((OnlySync.tick s).trans
        ⟨rfl, rfl, rfl, rfl, rfl, rfl, rfl, rfl, Nat.le_refl _⟩)
  | retryMissingParentRequest hash =>
      exact Steps.sync ((OnlySync.tick s).trans (queueMissingParentRequestAt_onlySync _ _ _))

/-- A run is a sequence of steps. -/
theorem runAll_steps (env : Env) (operations : List (Operation P)) (s : Node P) :
    Steps env s (s.runAll env operations) := by
  induction operations generalizing s with
  | nil => exact .refl
  | cons operation rest ih => exact (operation.run_steps env s).trans (ih _)

/-! ## What a run never takes back -/

/-- Connecting a block leaves the fork-choice index alone or adds the block. -/
theorem applyKnownParentBlock_forkChoice (env : Env) (s : Node P) (block : P.Block) :
    ((s.applyKnownParentBlock env block).1.forkChoice = s.forkChoice ∧
        (s.applyKnownParentBlock env block).2 ≠ .ok ()) ∨
      ∃ hash, P.forkChoice.insertBlock s.forkChoice block =
        .ok (hash, (s.applyKnownParentBlock env block).1.forkChoice) := by
  rcases applyKnownParentBlock_cases env s block with ⟨e, h⟩ | ⟨hash, fc, -, -, hinsert, h⟩
  · rw [h]
    exact .inl ⟨rfl, by simp⟩
  · rw [h, connect_forkChoice]
    exact .inr ⟨hash, hinsert⟩

/-- The index has grown, the configuration is the same and time has passed. -/
structure Grown (s s' : Node P) : Prop where
  consensus : s'.consensus = s.consensus
  genesisAccounts : s'.genesisAccounts = s.genesisAccounts
  index : (indexed s.forkChoice).Extends (indexed s'.forkChoice)
  io : s.io ≤ s'.io

theorem Grown.refl (s : Node P) : Grown s s := ⟨rfl, rfl, .refl _, Nat.le_refl _⟩

theorem Grown.trans {s₁ s₂ s₃ : Node P} (h : Grown s₁ s₂) (h' : Grown s₂ s₃) : Grown s₁ s₃ where
  consensus := h'.consensus.trans h.consensus
  genesisAccounts := h'.genesisAccounts.trans h.genesisAccounts
  index := h.index.trans h'.index
  io := Nat.le_trans h.io h'.io

/-- A step adds to the index and takes nothing out of it. -/
theorem Step.grown (hfc : ForkChoiceLaws P) (hstep : Step env s s') : Grown s s' := by
  cases hstep with
  | connect block =>
      have hframe := applyKnownParentBlock_onlyChain env s block
      refine ⟨hframe.consensus, hframe.genesisAccounts, ?_, hframe.io⟩
      rcases applyKnownParentBlock_forkChoice env s block with ⟨h, -⟩ | ⟨hash, hinsert⟩
      · rw [h]
        exact .refl _
      · exact indexed_extends hfc hinsert
  | save =>
      obtain ⟨storage, durable, hsave⟩ := saveLedger_fst env s
      rw [hsave]
      exact ⟨rfl, rfl, .refl _, Nat.le_succ _⟩
  | sync h =>
      refine ⟨h.consensus, h.genesisAccounts, ?_, h.io⟩
      rw [h.forkChoice]
      exact .refl _
  | pool _ => exact ⟨rfl, rfl, .refl _, Nat.le_refl _⟩

theorem Steps.grown (hfc : ForkChoiceLaws P) (hrun : Steps env s s') : Grown s s' :=
  hrun.invariant (Grown s) (fun h hstep => h.trans (hstep.grown hfc)) (.refl s)

/-! ## The invariant along a run -/

/-- The fields an accepted block leaves behind. -/
theorem Connected.fields {hash : BlockHash} {result : Node P × Except NodeError Unit}
    (h : Connected env s block hash child result) :
    result.1.forkChoice = s.forkChoice ∧ result.1.genesisAccounts = s.genesisAccounts ∧
      result.1.consensus = s.consensus ∧ s.io ≤ result.1.io ∧
      ((result.1.ledger = s.ledger ∧
          (P.forkChoice.bestTip s.forkChoice).map ForkNode.hash ≠ some hash) ∨
        (result.1.ledger = child ∧
          (P.forkChoice.bestTip s.forkChoice).map ForkNode.hash = some hash)) := by
  cases h with
  | side hbest =>
      obtain ⟨storage, durable, hsave⟩ := saveSideBlock_fst env s block
      rw [hsave]
      exact ⟨rfl, rfl, rfl, Nat.le_succ _, .inl ⟨rfl, hbest⟩⟩
  | active hbest mempool mempool' cache k hwrite =>
      obtain ⟨storage, durable, hsave⟩ := saveLedger_fst env
        { s with ledger := child, mempool := mempool, cache := cache }
      subst hwrite
      simp only [hsave]
      refine ⟨rfl, rfl, rfl, ?_, .inr ⟨rfl, hbest⟩⟩
      simp only [tick_io]
      omega

/-- Writes fail with errors of the database. -/
theorem Connected.error_storage {hash : BlockHash} {result : Node P × Except NodeError Unit}
    {e : NodeError} (h : Connected env s block hash child result) (herror : result.2 = .error e) :
    ∃ error, e = .storage error := by
  cases h with
  | side hbest =>
      unfold saveSideBlock at herror
      split at herror
      · cases herror
        exact ⟨_, rfl⟩
      · cases herror
  | active hbest mempool mempool' cache k hwrite =>
      subst hwrite
      simp only [saveLedger] at herror
      split at herror
      · cases herror
        exact ⟨_, rfl⟩
      · cases herror

section Laws

variable (hfc : ForkChoiceLaws P) (hchain : ChainLaws P)

include hfc hchain

omit hchain in
/-- The invariant after a block has been indexed and the ledger left alone. -/
theorem Synced.side {hash : BlockHash} {parent : P.Ledger} (hs : Synced s r)
    (hacc : Accepted s block s'.forkChoice parent child)
    (hinsert : P.forkChoice.insertBlock s.forkChoice block = .ok (hash, s'.forkChoice))
    (hgenesis : s'.genesisAccounts = s.genesisAccounts) (hledger : s'.ledger = s.ledger) :
    Synced s' r := by
  obtain ⟨hrooted, -, -, -⟩ := insert_rooted hfc hs hacc.height_ne hinsert
  have hext := indexed_extends hfc hinsert
  obtain ⟨t, bs, htip, hbranch, hreplay⟩ := hs.replayed
  refine ⟨hrooted, t, bs, by rw [hledger, htip], hbranch.mono hext, ?_⟩
  rw [hledger, hgenesis, ledgerForBranchTip_mono hfc hext _ hbranch, hreplay]

/-- The invariant after a block has been indexed and the ledger moved to it. -/
theorem Synced.active {parent : P.Ledger} (hs : Synced s r)
    (hacc : Accepted s block s'.forkChoice parent child)
    (hinsert : P.forkChoice.insertBlock s.forkChoice block =
      .ok (P.block.hash block, s'.forkChoice)) (hgenesis : s'.genesisAccounts = s.genesisAccounts)
    (hledger : s'.ledger = child) : Synced s' r := by
  obtain ⟨hrooted, bs, -, hbranch⟩ := insert_rooted hfc hs hacc.height_ne hinsert
  refine ⟨hrooted, P.block.hash block, bs ++ [block], ?_, hbranch, ?_⟩
  · rw [hledger]
    exact (applyBlock_tip hchain hacc.apply).1
  · rw [hledger, hgenesis]
    exact hacc.child_replay

/-- **One step keeps the invariant**, and keeps the ledger at the best tip. -/
theorem Step.synced (hs : Synced s r) (hstep : Step env s s') :
    Synced s' r ∧ (AtBestTip s → AtBestTip s') := by
  cases hstep with
  | save =>
      obtain ⟨storage, durable, hsave⟩ := saveLedger_fst env s
      rw [hsave]
      exact ⟨hs.congr rfl rfl rfl, id⟩
  | sync h =>
      refine ⟨hs.congr h.ledger h.forkChoice h.genesisAccounts, ?_⟩
      intro hbest
      rw [AtBestTip, h.ledger, h.forkChoice]
      exact hbest
  | pool _ => exact ⟨hs.congr rfl rfl rfl, id⟩
  | connect block =>
      rcases applyKnownParentBlock_connected hfc hchain env hs block with
        ⟨e, h⟩ | ⟨fc, parent, child, -, hinsert, hacc, hconn⟩
      · rw [h]
        exact ⟨hs.congr rfl rfl rfl, id⟩
      obtain ⟨hfork, hgenesis, -, -, hledger⟩ := hconn.fields
      simp only [tick] at hfork hgenesis hledger
      subst hfork
      rcases hledger with ⟨hledger, hbest⟩ | ⟨hledger, hbest⟩
      · refine ⟨hs.side hfc hacc hinsert hgenesis hledger, ?_⟩
        intro hat
        rw [AtBestTip, hledger]
        rcases hfc.insert_bestTip hinsert with hsame | hnew
        · rw [hsame]
          exact hat
        · rw [hnew] at hbest
          simp at hbest
      · refine ⟨hs.active hfc hchain hacc hinsert hgenesis hledger, ?_⟩
        intro _
        rw [AtBestTip, hledger, (applyBlock_tip hchain hacc.apply).1, hbest]

theorem Steps.synced (hs : Synced s r) (hrun : Steps env s s') : Synced s' r :=
  hrun.invariant (Synced · r) (fun h hstep => (hstep.synced hfc hchain h).1) hs

theorem Steps.atBestTip (hs : Synced s r) (hbest : AtBestTip s) (hrun : Steps env s s') :
    AtBestTip s' :=
  (hrun.invariant (fun s => Synced s r ∧ AtBestTip s)
    (fun h hstep => ⟨(hstep.synced hfc hchain h.1).1, (hstep.synced hfc hchain h.1).2 h.2⟩)
    ⟨hs, hbest⟩).2

omit hchain in
/-- **The ledger is a function of the tip**: back at a tip it has been at, the
node has the ledger it had there. -/
theorem Synced.ledger_eq (hs : Synced s r) (hs' : Synced s' r) (hgrown : Grown s s')
    (htip : P.ledger.tipHash s'.ledger = P.ledger.tipHash s.ledger) : s'.ledger = s.ledger := by
  obtain ⟨t, bs, ht, hbranch, hreplay⟩ := hs.replayed
  obtain ⟨t', bs', ht', hbranch', hreplay'⟩ := hs'.replayed
  rw [ht', ht, Option.some.injEq] at htip
  subst htip
  rw [hgrown.genesisAccounts, ledgerForBranchTip_mono hfc hgrown.index _ hbranch, hreplay]
    at hreplay'
  exact (Except.ok.inj hreplay').symm

/-- The tip of the ledger is indexed. -/
theorem Synced.tip (hs : Synced s r) :
    ∃ t tip bs, P.ledger.tipHash s.ledger = some t ∧
      P.ledger.tipHeight s.ledger = some (P.block.height tip) ∧
      (indexed s.forkChoice).item t = some tip ∧ (indexed s.forkChoice).Branch r t bs := by
  obtain ⟨t, bs, htip, hbranch, hreplay⟩ := hs.replayed
  obtain ⟨tip, hitem⟩ := hbranch.tip_known
  obtain ⟨g, hg, -⟩ := hbranch.root_item
  obtain ⟨-, hlast⟩ := chainOf_of_foldlM hchain
    (replay_chain hchain ((ledgerForBranchTip_eq_ok hfc hbranch hg).mp hreplay))
  exact ⟨t, tip, bs, htip, (hlast _ tip (getLast?_branch hbranch hg hitem)).height, hitem, hbranch⟩

/-- The chain of the ledger is the branch of its tip. -/
theorem Synced.chainOf {t : BlockHash} {g : P.Block} {bs : List P.Block} (hs : Synced s r)
    (htip : P.ledger.tipHash s.ledger = some t) (hbranch : (indexed s.forkChoice).Branch r t bs)
    (hg : (indexed s.forkChoice).item r = some g) : ChainOf s.ledger.chain (g :: bs) := by
  obtain ⟨t', bs', htip', hbranch', hreplay⟩ := hs.replayed
  rw [htip, Option.some.injEq] at htip'
  subst htip'
  obtain ⟨-, rfl⟩ := hbranch.unique hbranch'
  exact (chainOf_of_foldlM hchain
    (replay_chain hchain ((ledgerForBranchTip_eq_ok hfc hbranch hg).mp hreplay))).1

end Laws

end Node

end PaqusNode
