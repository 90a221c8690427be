import PaqusNode.Node.Orphans

/-!
# PaqusNode.Node.Difficulty

The difficulty of the next block, which the node computes in two ways: the
validator walks the fork-choice ancestors of the parent, the miner reads two
blocks from the database by their height.  Both give the difficulty of the
branch (`difficultyAbove`), the second one as long as the database holds the
ledger in memory, which it does when no write fails.
-/

namespace PaqusNode

variable {P : Paqus}

/-! ## Through the database -/

/-- On a linked chain the block of a height is the one at that position. -/
theorem ChainOf.find?_height {chain : Chain P.Block} {bs : List P.Block} (hof : ChainOf chain bs)
    {height : UInt64} {b : P.Block} (hb : bs[height.toNat]? = some b) :
    bs.reverse.find? (fun block => P.block.height block == height) = some b := by
  have hheight : P.block.height b = height := UInt64.toNat_inj.mp (hof.height hb)
  have hsome : (bs.reverse.find? fun block => P.block.height block == height).isSome := by
    refine List.find?_isSome.mpr ⟨b, List.mem_reverse.mpr (List.mem_of_getElem? hb), ?_⟩
    simpa using hheight
  obtain ⟨c, hc⟩ := Option.isSome_iff_exists.mp hsome
  have hcheight : P.block.height c = height := by simpa using List.find?_some hc
  obtain ⟨i, hi⟩ := List.getElem?_of_mem (List.mem_reverse.mp (List.mem_of_find?_eq_some hc))
  have hpos : i = height.toNat := by rw [← hof.height hi, hcheight]
  rw [hpos, hb] at hi
  rw [hc, hi]

/-- **The miner's difficulty is that of the stored chain.** -/
theorem Node.nextDifficulty_eq (hchain : ChainLaws P) (hrec : RecordLaws P)
    (hinterval : 1 ≤ P.consensus.difficultyAdjustmentInterval) {s : Node P} {g : P.Block}
    {bs : List P.Block} {blocks : BlockHash → Option P.Block}
    (h : Stored s.storage s.ledger s.genesisAccounts g bs blocks) :
    s.nextDifficulty = difficultyAbove s.consensus (g :: bs) := by
  obtain ⟨hof, htip⟩ := chainOf_of_foldlM hchain (replay_chain hchain h.replayed)
  obtain ⟨tip, hlast⟩ : ∃ tip, (g :: bs).getLast? = some tip :=
    ⟨_, List.getLast?_eq_some_getLast (List.cons_ne_nil g bs)⟩
  have hload : ∀ {height : UInt64} {b : P.Block}, (g :: bs)[height.toNat]? = some b →
      s.storage.loadBlockByHeight height = .ok (some b) := by
    intro height b hb
    have := Storage.loadBlockByHeight_of_rows hrec h.holds.rows hof hb
    rwa [UInt64.ofNat_toNat] at this
  have htipAt : (g :: bs)[(P.block.height tip).toNat]? = some tip := by
    rw [List.getLast?_eq_getElem?] at hlast
    rw [hof.height hlast, hlast]
  have hne : P.consensus.difficultyAdjustmentInterval ≠ 0 := by
    intro hzero
    rw [hzero] at hinterval
    exact absurd hinterval (by decide)
  unfold nextDifficulty nextDifficultyAfterTip difficultyAbove Storage.difficultyWindow
  simp only [(htip s.ledger.accounts tip hlast).height, hlast, hne, false_or]
  by_cases hlt : P.block.height tip < P.consensus.difficultyAdjustmentInterval
  · simp only [if_pos hlt]
  -- the first block of the window is on the chain
  have hle : P.consensus.difficultyAdjustmentInterval ≤ P.block.height tip := UInt64.not_lt.mp hlt
  have hbound : (P.block.height tip - P.consensus.difficultyAdjustmentInterval).toNat <
      (g :: bs).length := by
    have hlen := (List.getElem?_eq_some_iff.mp htipAt).1
    rw [UInt64.toNat_sub_of_le _ _ hle]
    omega
  have hfirst := List.getElem?_eq_getElem hbound
  have hheight := hof.height hfirst
  rw [UInt64.toNat_inj] at hheight
  simp only [if_neg hlt, hload htipAt, hload hfirst, hof.find?_height hfirst, hheight]
  generalize P.consensus.retargetDifficulty s.consensus _ _ _ _ = result
  cases result <;> rfl

/-! ## Without failures the database holds the ledger in memory -/

namespace Node

section Laws

variable (hfc : ForkChoiceLaws P) (hchain : ChainLaws P) (hrec : RecordLaws P)

include hfc hchain hrec

theorem saveLedger_mirrors {env : Env} (henv : env.Faultless) {s : Node P} {r : BlockHash}
    (hs : Synced s r) (h : Backed s r) : Backs s.ledger (s.saveLedger env).1 r := by
  obtain ⟨after, hwrite⟩ := hs.writeLedger_isOk hfc hchain hrec s.storage
  refine saveLedger_backs hfc hchain hrec hs h ?_
  rw [hwrite, Storage.saveLedger, hwrite]
  simp only [Storage.commit, Storage.flush, henv.commit, henv.flush]

/-- **One step keeps the database in step with the ledger.** -/
theorem Step.mirrors {env : Env} (henv : env.Faultless) {s s' : Node P} {r : BlockHash}
    (hs : Synced s r) (h : Backs s.ledger s r) (hstep : Step env s s') :
    Backs s'.ledger s' r := by
  cases hstep with
  | save =>
      obtain ⟨storage, durable, hsave⟩ := saveLedger_fst env s
      have hledger : (s.saveLedger env).1.ledger = s.ledger := by rw [hsave]; rfl
      rw [hledger]
      exact saveLedger_mirrors hfc hchain hrec henv hs ⟨_, h⟩
  | sync hsync =>
      rw [hsync.ledger]
      refine h.congr hsync.storage hsync.genesisAccounts ?_
      rw [hsync.forkChoice]
      exact .refl _
  | pool _ => exact h.congr rfl rfl (.refl _)
  | connect block =>
      rcases applyKnownParentBlock_connected hfc hchain env hs block with
        ⟨e, hrej⟩ | ⟨fc, parent, child, -, hinsert, hacc, hconn⟩
      · rw [hrej]
        exact h.congr rfl rfl (.refl _)
      generalize s.applyKnownParentBlock env block = result at hconn
      cases hconn with
      | side hbest =>
          obtain ⟨storage, durable, hsave⟩ := saveSideBlock_fst env
            { s.tick with forkChoice := fc } block
          have hside : Backs s.ledger
              (saveSideBlock env { s.tick with forkChoice := fc } block).1 r :=
            saveSideBlock_backs hfc h rfl rfl hinsert hacc.height_ne
          rw [hsave] at hside ⊢
          exact hside
      | active hbest mempool mempool' cache k hwrite =>
          have hs₁ : Synced { s.tick with
              forkChoice := fc, ledger := child, mempool := mempool, cache := cache } r :=
            hs.active hfc hchain hacc hinsert rfl rfl
          have h₁ : Backed { s.tick with
              forkChoice := fc, ledger := child, mempool := mempool, cache := cache } r :=
            ⟨s.ledger, h.congr rfl rfl (indexed_extends hfc hinsert)⟩
          obtain ⟨storage, durable, hsave⟩ := saveLedger_fst env { s.tick with
            forkChoice := fc, ledger := child, mempool := mempool, cache := cache }
          have hactive := saveLedger_mirrors hfc hchain hrec henv hs₁ h₁
          subst hwrite
          rw [hsave] at hactive ⊢
          exact hactive.congr rfl rfl (.refl _)

theorem Steps.mirrors {env : Env} (henv : env.Faultless) {s s' : Node P} {r : BlockHash}
    (hs : Synced s r) (h : Backs s.ledger s r) (hrun : Steps env s s') : Backs s'.ledger s' r :=
  (hrun.invariant (fun s => Synced s r ∧ Backs s.ledger s r)
    (fun h hstep => ⟨(hstep.synced hfc hchain h.1).1, hstep.mirrors hfc hchain hrec henv h.1 h.2⟩)
    ⟨hs, h⟩).2

omit hfc hchain hrec in
/-- A node just opened holds its ledger. -/
theorem Opened.backs {s : Node P} {db : Storage P} {ledger : P.Ledger}
    {genesisAccounts : BTreeMap Address P.Account} {g : P.Block} {branch : List P.Block}
    {blocks : BlockHash → Option P.Block} (h : s.Opened db ledger genesisAccounts g branch blocks)
    (hstored : Stored db ledger genesisAccounts g branch blocks) :
    Backs s.ledger s (P.block.hash g) := by
  refine ⟨g, branch, blocks, rfl, ?_, h.chained⟩
  rw [h.storage, h.ledger, h.genesisAccounts]
  exact hstored

/-- Where the database holds the ledger, the two computations agree on its
tip. -/
theorem Synced.nextDifficulty_eq (hinterval : 1 ≤ P.consensus.difficultyAdjustmentInterval)
    {s : Node P} {r : BlockHash} (hs : Synced s r) (h : Backs s.ledger s r) :
    ∃ tip, P.ledger.tipHash s.ledger = some tip ∧
      s.nextDifficulty = nextDifficultyAfterBranchTip s.consensus s.forkChoice tip := by
  obtain ⟨t, branch, htip, hbranch, hreplay⟩ := hs.replayed
  obtain ⟨g', hg', -⟩ := hbranch.root_item
  obtain ⟨g, bs, blocks, hg, hstored, hin⟩ := h
  have hroot : g' = g := by
    have hitem := hin g List.mem_cons_self
    rw [hg, hg'] at hitem
    exact Option.some.inj hitem
  subst hroot
  -- both lists of blocks are the blocks of the ledger's chain
  have hreplay' := (ledgerForBranchTip_eq_ok hfc hbranch hg').mp hreplay
  obtain ⟨hof, -⟩ := chainOf_of_foldlM hchain (replay_chain hchain hreplay')
  obtain ⟨hof', -⟩ := chainOf_of_foldlM hchain (replay_chain hchain hstored.replayed)
  have hsame : g' :: branch = g' :: bs := hof.values.symm.trans hof'.values
  refine ⟨t, htip, ?_⟩
  rw [nextDifficultyAfterBranchTip_eq hfc s.consensus hbranch hg', hsame]
  exact Node.nextDifficulty_eq hchain hrec hinterval hstored

/-- **Miner and validator compute the same difficulty.**  In every state a
node reaches by `apply_block` calls whose writes succeed, `next_difficulty`,
which reads the database by height, and `next_difficulty_after_branch_tip` of
the ledger's tip, which walks the index, give the same value or the same
error. -/
theorem nextDifficulty_eq_afterBranchTip (hinterval : 1 ≤ P.consensus.difficultyAdjustmentInterval)
    {db db' : Storage P} (hdb : Written (fun _ => True) db) {env : Env} (henv : env.Faultless)
    {io : Nat} {consensus : Consensus} {s₀ : Node P}
    (hopen : initOrLoad env io db consensus = (db', .ok s₀)) (blocks : List P.Block) :
    ∃ tip, P.ledger.tipHash (s₀.applyBlocks env blocks).ledger = some tip ∧
      (s₀.applyBlocks env blocks).nextDifficulty =
        nextDifficultyAfterBranchTip (s₀.applyBlocks env blocks).consensus
          (s₀.applyBlocks env blocks).forkChoice tip := by
  obtain ⟨_, _, g, _, _, hstored, hopened⟩ := hdb.opened hfc hchain hrec hopen
  have hrun := applyBlocks_steps env blocks s₀
  exact (hrun.synced hfc hchain hopened.synced).nextDifficulty_eq hfc hchain hrec hinterval
    (hrun.mirrors hfc hchain hrec henv hopened.synced (hopened.backs hstored))

end Laws

end Node

/-- The side branch that wins, and ten more blocks on top of it. -/
def Reference.longBranch : List Reference.Block :=
  Reference.sideBranchWins ++ (List.range 10).map fun i =>
    Reference.block (BitVec.ofNat 512 (5 + i)) (UInt64.ofNat (3 + i)) (BitVec.ofNat 512 (4 + i)) []

/-- After a reorg and past the first window. -/
theorem Node.nextDifficulty_eq_of_longBranch :
    (Reference.genesisNode.applyBlocks Reference.calm Reference.longBranch).nextDifficulty =
      nextDifficultyAfterBranchTip
        (Reference.genesisNode.applyBlocks Reference.calm Reference.longBranch).consensus
        (Reference.genesisNode.applyBlocks Reference.calm Reference.longBranch).forkChoice 14 := by
  obtain ⟨tip, htip, h⟩ := Node.nextDifficulty_eq_afterBranchTip Reference.forkChoiceLaws
    Reference.chainLaws Reference.recordLaws (by decide) .empty Reference.calm_faultless
    (Reference.opened_eq_some Reference.opened_calm) Reference.longBranch
  have hfourteen : Reference.paqus.ledger.tipHash
      (Reference.genesisNode.applyBlocks Reference.calm Reference.longBranch).ledger = some 14 := by
    decide +kernel
  rw [hfourteen] at htip
  rw [Option.some.inj htip]
  exact h

end PaqusNode
