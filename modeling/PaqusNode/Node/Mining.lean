import PaqusNode.Node.Atomic
import PaqusNode.Node.Difficulty

/-!
# PaqusNode.Node.Mining

Mining while the node keeps running (`mine_once_unlocked` of `main.rs`): a
candidate is prepared in one critical section, its nonce is searched without
the lock, and the block is committed in a second critical section, between
which other threads may call the node.  What ties the sections together is
one comparison, of the tip with the candidate's parent; it is enough because
the ledger and the difficulty of the next block depend on the tip alone.

A mined block is then judged like any other.  It carries the clock reading
of the first section as its timestamp, whatever the timestamp of its parent.
-/

namespace PaqusNode

variable {P : Paqus}

/-! ## What the miner builds -/

theorem satAdd_one_ne_zero (n : UInt64) : satAdd n 1 ≠ 0 := by
  intro h
  have hzero := congrArg UInt64.toNat h
  rw [toNat_satAdd] at hzero
  simp only [UInt64.reduceToNat] at hzero
  omega

/-- The candidate on top of a tip. -/
theorem prepareCandidateBlock_ok {pool : Mempool P} {ledger : P.Ledger} {miner : Address}
    {timestamp : UInt64} {limit : Nat} {difficulty : UInt32} {candidate : P.Block}
    {tipHash : BlockHash} {tipHeight : UInt64}
    (h : prepareCandidateBlock pool ledger miner timestamp limit difficulty = .ok candidate)
    (hhash : P.ledger.tipHash ledger = some tipHash)
    (hheight : P.ledger.tipHeight ledger = some tipHeight) :
    ∃ subsidy stateRoot block,
      P.ledger.mintableSubsidy ledger (satAdd tipHeight 1) = .ok subsidy ∧
      block = freshBlock (satAdd tipHeight 1) tipHash miner timestamp subsidy
        (pool.selectForBlock limit) ∧
      P.ledger.stateRootAfterBlock ledger block = .ok stateRoot ∧
      candidate = P.block.setDifficulty (P.block.setStateRoot block stateRoot) difficulty := by
  unfold prepareCandidateBlock Mempool.createCandidateBlock Mempool.candidateBlock
    Mempool.candidateHeight at h
  simp only [hhash, hheight, Option.getD_some, satAdd_one_ne_zero, false_and, if_false] at h
  cases hsubsidy : P.ledger.mintableSubsidy ledger (satAdd tipHeight 1) with
  | error e => simp [hsubsidy, Except.map] at h
  | ok subsidy =>
      simp only [hsubsidy, Except.map] at h
      split at h
      · cases h
      next block hblock =>
      split at hblock
      · cases hblock
      next stateRoot hroot =>
      cases hblock
      cases h
      exact ⟨subsidy, stateRoot, _, rfl, rfl, hroot, rfl⟩

/-- The header of the candidate. -/
theorem header_candidate (hheader : HeaderLaws P) {height : UInt64} {previousHash : BlockHash}
    {miner : Address} {timestamp : UInt64} {subsidy : UInt32}
    {transactions : List P.SignedTransaction} (stateRoot : Hash) (difficulty : UInt32) :
    header (P.block.setDifficulty (P.block.setStateRoot
      (freshBlock height previousHash miner timestamp subsidy transactions) stateRoot) difficulty) =
      ⟨height, previousHash, difficulty, timestamp, stateRoot⟩ := by
  obtain ⟨root, hroot⟩ := hheader.withCoinbase height previousHash miner
    P.consensus.difficultyStart timestamp 0 (some (subsidy, feeSum transactions)) transactions
  rw [hheader.setDifficulty, hheader.setStateRoot, freshBlock, hroot]

/-- The search sets the nonce and finds a proof of work, if one is asked for. -/
theorem mineLoop_ok (hheader : HeaderLaws P) {block : P.Block} {consensus : Consensus}
    {config : MiningConfig} {fuel attempt : Nat} {result : MiningResult P}
    (hdifficulty : P.block.difficulty block = config.difficulty)
    (h : mineLoop block consensus config fuel attempt = .ok (some result)) :
    ∃ nonce, result.block = P.block.setNonce block nonce ∧
      (config.difficulty ≠ 0 → ProofOfWork consensus result.block) := by
  induction fuel generalizing block attempt with
  | zero => cases h
  | succ fuel ih =>
      have hnonce : P.block.difficulty (P.block.setNonce block (UInt64.ofNat attempt)) =
          config.difficulty :=
        (congrArg Header.difficulty (hheader.setNonce block _)).trans hdifficulty
      unfold mineLoop at h
      simp only at h
      split at h
      · next hzero =>
          cases h
          exact ⟨_, rfl, fun hne => absurd hzero hne⟩
      split at h
      · cases h
      next hash hhash =>
      split at h
      · next hwork =>
          cases h
          exact ⟨_, rfl, fun _ => ⟨hash, hhash, hnonce.symm ▸ hwork⟩⟩
      · obtain ⟨nonce, hblock, hwork⟩ := ih hnonce h
        rw [hheader.setNonce_setNonce] at hblock
        exact ⟨nonce, hblock, hwork⟩

namespace Node

/-! ## Mining without the lock -/

/-- The errors of `mine_once_unlocked`, by the step that failed. -/
inductive MineError where
  | nextDifficulty (error : NodeError)
  /-- "failed to prepare mining candidate: …" -/
  | prepare (error : ConsensusError)
  /-- "mining failed: …" -/
  | mining (error : ConsensusError)
  /-- "failed to apply mined block: …" -/
  | apply (error : NodeError)
  /-- "failed to flush mined block: …" -/
  | flush (error : NodeError)
deriving DecidableEq, Repr

/-- What the first critical section hands to the search. -/
structure MiningJob (P : Paqus) where
  candidate : P.Block
  consensus : Consensus
  config : MiningConfig

/-- The first critical section of `mine_once_unlocked`; `timestamp` is read
before the lock is taken, `transactionLimit` is `MAX_BLOCK_TXS`. -/
def prepareMining (s : Node P) (minerAddress : Address) (timestamp mineAttempts : UInt64)
    (transactionLimit : Nat) : Node P × Except MineError (MiningJob P) :=
  let s := { s with mempool := s.mempool.pruneExpired timestamp }
  match s.nextDifficulty with
  | .error e => (s, .error (.nextDifficulty e))
  | .ok difficulty =>
  match prepareCandidateBlock s.mempool s.ledger minerAddress timestamp transactionLimit
      difficulty with
  | .error e => (s, .error (.prepare e))
  | .ok candidate =>
      (s, .ok ⟨candidate, s.consensus, ⟨difficulty, mineAttempts, transactionLimit⟩⟩)

/-- The search, which reads nothing of the node. -/
def MiningJob.search (job : MiningJob P) : Except MineError (Option (MiningResult P)) :=
  (minePreparedBlock job.candidate job.consensus job.config).mapError .mining

/-- The second critical section, for a block found on top of `parentHash`. -/
def commitMined (env : Env) (s : Node P) (parentHash : BlockHash) (result : MiningResult P) :
    Node P × Except MineError (Option P.Block) :=
  if P.ledger.tipHash s.ledger ≠ some parentHash then (s, .ok none)
  else
    match s.applyBlock env result.block with
    | (s, .error e) => (s, .error (.apply e))
    | (s, .ok ()) =>
    match s.flushToStorage env with
    | (s, .error e) => (s, .error (.flush e))
    | (s, .ok ()) => (s, .ok (some result.block))

/-- `mine_once_unlocked`, the calls `foreign` of other threads falling between
its critical sections. -/
def mineOnceUnlocked (env : Env) (s : Node P) (minerAddress : Address)
    (timestamp mineAttempts : UInt64) (transactionLimit : Nat) (foreign : List (Operation P)) :
    Node P × Except MineError (Option P.Block) :=
  match s.prepareMining minerAddress timestamp mineAttempts transactionLimit with
  | (s, .error e) => (s, .error e)
  | (s, .ok job) =>
  match job.search with
  | .error e => (s.runAll env foreign, .error e)
  | .ok none => (s.runAll env foreign, .ok none)
  | .ok (some result) =>
      commitMined env (s.runAll env foreign) (P.block.previousHash job.candidate) result

/-- What the first critical section has looked at. -/
theorem prepareMining_ok {s s' : Node P} {minerAddress : Address}
    {timestamp mineAttempts : UInt64} {transactionLimit : Nat} {job : MiningJob P}
    (h : s.prepareMining minerAddress timestamp mineAttempts transactionLimit = (s', .ok job)) :
    s' = { s with mempool := s.mempool.pruneExpired timestamp } ∧
      job.consensus = s'.consensus ∧ s'.nextDifficulty = .ok job.config.difficulty ∧
      prepareCandidateBlock s'.mempool s'.ledger minerAddress timestamp transactionLimit
        job.config.difficulty = .ok job.candidate := by
  unfold prepareMining at h
  simp only at h
  split at h
  · cases h
  next difficulty hdifficulty =>
  split at h
  · cases h
  next candidate hcandidate =>
  cases h
  exact ⟨rfl, rfl, hdifficulty, hcandidate⟩

theorem prepareMining_steps (env : Env) {s s' : Node P} {minerAddress : Address}
    {timestamp mineAttempts : UInt64} {transactionLimit : Nat} {job : MiningJob P}
    (h : s.prepareMining minerAddress timestamp mineAttempts transactionLimit = (s', .ok job)) :
    Steps env s s' := by
  obtain ⟨rfl, -⟩ := prepareMining_ok h
  exact .single (.pool (.prune timestamp))

/-- A job on top of the tip `tipHash` for some transactions, and the block its
search has found. -/
structure Mined (s : Node P) (minerAddress : Address) (timestamp : UInt64)
    (transactions : List P.SignedTransaction) (tipHash : BlockHash) (job : MiningJob P)
    (block : P.Block) : Prop where
  tip : P.ledger.tipHash s.ledger = some tipHash
  parent : P.block.previousHash job.candidate = tipHash
  nextDifficulty : s.nextDifficulty = .ok (P.block.difficulty block)
  work : P.block.difficulty block ≠ 0 → ProofOfWork s.consensus block
  built : ∃ tipHeight subsidy stateRoot fresh nonce,
    P.ledger.tipHeight s.ledger = some tipHeight ∧
    P.ledger.mintableSubsidy s.ledger (satAdd tipHeight 1) = .ok subsidy ∧
    fresh = freshBlock (satAdd tipHeight 1) tipHash minerAddress timestamp subsidy transactions ∧
    P.ledger.stateRootAfterBlock s.ledger fresh = .ok stateRoot ∧
    block = minedBlock fresh stateRoot (P.block.difficulty block) nonce ∧
    header block = ⟨satAdd tipHeight 1, tipHash, P.block.difficulty block, timestamp, stateRoot⟩

/-- **What mining puts together**, in a node whose ledger has a tip. -/
theorem mined_of_search (hheader : HeaderLaws P) {s s' : Node P} {minerAddress : Address}
    {timestamp mineAttempts : UInt64} {transactionLimit : Nat} {job : MiningJob P}
    {result : MiningResult P} {tipHash : BlockHash} {tipHeight : UInt64}
    (hprepare : s.prepareMining minerAddress timestamp mineAttempts transactionLimit =
      (s', .ok job))
    (hsearch : job.search = .ok (some result)) (hhash : P.ledger.tipHash s'.ledger = some tipHash)
    (hheight : P.ledger.tipHeight s'.ledger = some tipHeight) :
    Mined s' minerAddress timestamp (s'.mempool.selectForBlock transactionLimit) tipHash job
      result.block := by
  obtain ⟨-, hconsensus, hdifficulty, hcandidate⟩ := prepareMining_ok hprepare
  obtain ⟨subsidy, stateRoot, fresh, hsubsidy, hfresh, hroot, hjob⟩ :=
    prepareCandidateBlock_ok hcandidate hhash hheight
  have hcandidateHeader : header job.candidate =
      ⟨satAdd tipHeight 1, tipHash, job.config.difficulty, timestamp, stateRoot⟩ := by
    rw [hjob, hfresh]
    exact header_candidate hheader stateRoot job.config.difficulty
  have hmined : minePreparedBlock job.candidate job.consensus job.config = .ok (some result) := by
    unfold MiningJob.search at hsearch
    cases hmine : minePreparedBlock job.candidate job.consensus job.config with
    | error e => simp [hmine, Except.mapError] at hsearch
    | ok found => simpa [hmine, Except.mapError] using hsearch
  obtain ⟨nonce, hblock, hwork⟩ :=
    mineLoop_ok hheader (congrArg Header.difficulty hcandidateHeader) hmined
  have hblockHeader : header result.block =
      ⟨satAdd tipHeight 1, tipHash, job.config.difficulty, timestamp, stateRoot⟩ := by
    rw [hblock, hheader.setNonce, hcandidateHeader]
  have hblockDifficulty : P.block.difficulty result.block = job.config.difficulty :=
    congrArg Header.difficulty hblockHeader
  refine ⟨hhash, congrArg Header.previousHash hcandidateHeader, ?_, ?_,
    tipHeight, subsidy, stateRoot, fresh, nonce, hheight, hsubsidy, hfresh, hroot, ?_, ?_⟩
  · rw [hdifficulty, hblockDifficulty]
  · rw [hblockDifficulty, ← hconsensus]
    exact hwork
  · rw [hblockDifficulty, hblock, hjob]
    rfl
  · rw [hblockDifficulty]
    exact hblockHeader

end Node

/-! ## A node to mine on -/

namespace Reference

/-- The clock stands at `now` and no write fails. -/
def clockAt (now : UInt64) : Env := ⟨fun _ => now, fun _ => none, fun _ => none⟩

/-- A block on top of genesis, stamped 100 seconds ahead of the clock `calm`. -/
def earlyBlock : Block := { block 2 1 1 [] with timestamp := 100 }

/-- The node that has taken in that block. -/
def aheadNode : Node paqus := genesisNode.runAll calm [.applyBlock earlyBlock]

/-- The node after the first critical section of mining at `now`. -/
def preparedNode (now : UInt64) : Node paqus := (aheadNode.prepareMining 1 now 1 10).1

/-- The job it has prepared. -/
def preparedJob (now : UInt64) : Option (Node.MiningJob paqus) :=
  (aheadNode.prepareMining 1 now 1 10).2.toOption

/-- What the search for that job finds. -/
def found (now : UInt64) : Option (MiningResult paqus) :=
  (preparedJob now).bind fun job => job.search.toOption.join

theorem prepareMining_eq {now : UInt64} {job : Node.MiningJob paqus}
    (h : preparedJob now = some job) :
    aheadNode.prepareMining 1 now 1 10 = (preparedNode now, .ok job) :=
  eq_mk_ok_of_toOption h

theorem search_eq {now : UInt64} {job : Node.MiningJob paqus} {result : MiningResult paqus}
    (hjob : preparedJob now = some job) (h : found now = some result) :
    job.search = .ok (some result) := by
  unfold found at h
  rw [hjob, Option.bind_some, Option.join_eq_some_iff] at h
  exact Except.eq_ok_of_toOption h

end Reference

namespace Node

/-! ## The same tip again -/

section Laws

variable (hfc : ForkChoiceLaws P) (hchain : ChainLaws P) (hrec : RecordLaws P)

include hfc

/-- A block on top of an indexed block gets the same first verdict however the
index has grown. -/
theorem validateBlockForKnownParent_grown {s s' : Node P} {r : BlockHash} {bs : List P.Block}
    {block : P.Block} (hgrown : Grown s s')
    (hbranch : (indexed s.forkChoice).Branch r (P.block.previousHash block) bs) (now : UInt64) :
    s'.validateBlockForKnownParent now block = s.validateBlockForKnownParent now block := by
  obtain ⟨parent, hparent⟩ := hbranch.tip_known
  unfold validateBlockForKnownParent
  rw [hgrown.consensus, get_of_indexed hfc hparent,
    get_of_indexed hfc (hgrown.index.item hparent)]
  simp only [nextDifficultyAfterBranchTip_mono hfc hgrown.index s.consensus hbranch]

omit hfc in
/-- A block on top of the active tip gets the same second verdict from the same
ledger. -/
theorem validateBlockStateForKnownParent_onTip {s s' : Node P} {block : P.Block}
    (hledger : s'.ledger = s.ledger)
    (htip : P.ledger.tipHash s.ledger = some (P.block.previousHash block)) :
    s'.validateBlockStateForKnownParent block = s.validateBlockStateForKnownParent block := by
  have hextends : extendsActiveTip s.ledger block = true := by
    unfold extendsActiveTip
    simp [htip]
  unfold validateBlockStateForKnownParent
  rw [hledger]
  simp only [hextends, if_true]

include hchain hrec

/-- **Mining with the lock released is safe.**  Whatever other threads do
between the two critical sections, the second one applies the block only if
the tip is the candidate's parent; then the ledger and the difficulty expected
of the next block are those of the first section, and the block passes or
fails validation, at any clock reading, as it would have there. -/
theorem commit_on_prepared_tip (hheader : HeaderLaws P) {db db' : Storage P}
    (hdb : Written (fun _ => True) db) {env : Env} {io : Nat} {consensus : Consensus}
    {s₀ : Node P} (hopen : initOrLoad env io db consensus = (db', .ok s₀))
    (before : List (Operation P)) {minerAddress : Address} {timestamp mineAttempts : UInt64}
    {transactionLimit : Nat} {s : Node P} {job : MiningJob P} {result : MiningResult P}
    (hprepare : (s₀.runAll env before).prepareMining minerAddress timestamp mineAttempts
      transactionLimit = (s, .ok job))
    (hsearch : job.search = .ok (some result)) (foreign : List (Operation P)) :
    (P.ledger.tipHash (s.runAll env foreign).ledger ≠ some (P.block.previousHash job.candidate) →
      (s₀.runAll env before).mineOnceUnlocked env minerAddress timestamp mineAttempts
        transactionLimit foreign = (s.runAll env foreign, .ok none)) ∧
    (P.ledger.tipHash (s.runAll env foreign).ledger = some (P.block.previousHash job.candidate) →
      (s.runAll env foreign).ledger = s.ledger ∧
      nextDifficultyAfterBranchTip (s.runAll env foreign).consensus
          (s.runAll env foreign).forkChoice (P.block.previousHash job.candidate) =
        nextDifficultyAfterBranchTip s.consensus s.forkChoice
          (P.block.previousHash job.candidate) ∧
      (env.Faultless → 1 ≤ P.consensus.difficultyAdjustmentInterval →
        (s.runAll env foreign).nextDifficulty = s.nextDifficulty ∧
        nextDifficultyAfterBranchTip (s.runAll env foreign).consensus
            (s.runAll env foreign).forkChoice (P.block.previousHash job.candidate) =
          .ok (P.block.difficulty result.block)) ∧
      (∀ now, (s.runAll env foreign).validateBlockForKnownParent now result.block =
        s.validateBlockForKnownParent now result.block) ∧
      (s.runAll env foreign).validateBlockStateForKnownParent result.block =
        s.validateBlockStateForKnownParent result.block) := by
  obtain ⟨_, _, g, _, _, hstored, hopened⟩ := hdb.opened hfc hchain hrec hopen
  have hbefore : Steps env s₀ s :=
    (runAll_steps env before s₀).trans (prepareMining_steps env hprepare)
  have hafter : Steps env s₀ (s.runAll env foreign) := hbefore.trans (runAll_steps env foreign s)
  have hs := hbefore.synced hfc hchain hopened.synced
  have hrun := runAll_steps env foreign s
  have hs' := hrun.synced hfc hchain hs
  have hgrown := hrun.grown hfc
  obtain ⟨t, bs, htip, hbranch, hreplay⟩ := hs.replayed
  obtain ⟨_, tipHeight, -, hheight⟩ := ledgerForBranchTip_tip hchain hreplay
  have hmined := mined_of_search hheader hprepare hsearch htip hheight
  have hparent : P.block.previousHash result.block = t := by
    obtain ⟨_, _, _, _, _, -, -, -, -, -, hblock⟩ := hmined.built
    exact congrArg Header.previousHash hblock
  have hdifficulty := nextDifficultyAfterBranchTip_mono hfc hgrown.index s.consensus hbranch
  rw [hmined.parent]
  refine ⟨fun hne => ?_, fun hsame => ?_⟩
  · unfold mineOnceUnlocked commitMined
    simp only [hprepare, hsearch, hmined.parent, ne_eq, hne, not_false_eq_true, if_true]
  · have hledger := hs.ledger_eq hfc hs' hgrown (hsame.trans htip.symm)
    rw [← hparent] at hbranch htip
    refine ⟨hledger, by rw [hgrown.consensus, hdifficulty], ?_,
      validateBlockForKnownParent_grown hfc hgrown hbranch,
      validateBlockStateForKnownParent_onTip hledger htip⟩
    intro henv hinterval
    have hstart := hopened.backs hstored
    -- without failures the miner's difficulty is the validator's, in both sections
    obtain ⟨t₁, ht₁, hnext⟩ := hs.nextDifficulty_eq hfc hchain hrec hinterval
      (hbefore.mirrors hfc hchain hrec henv hopened.synced hstart)
    obtain ⟨t₂, ht₂, hnext'⟩ := hs'.nextDifficulty_eq hfc hchain hrec hinterval
      (hafter.mirrors hfc hchain hrec henv hopened.synced hstart)
    rw [hmined.tip, Option.some.injEq] at ht₁
    rw [hsame, Option.some.injEq] at ht₂
    subst ht₁ ht₂
    rw [hnext', hgrown.consensus, hdifficulty, ← hnext]
    exact ⟨rfl, hmined.nextDifficulty⟩

end Laws

/-- A payment and a side block arrive while the node mines; the tip stays. -/
theorem commit_on_prepared_tip_of_sideBlock :
    ∃ result, Reference.found 120 = some result ∧
      ((Reference.preparedNode 120).runAll Reference.calm
        [.submitTransaction (Reference.payment 2 0),
          .applyBlock (Reference.block 3 1 1 [])]).ledger =
        (Reference.preparedNode 120).ledger ∧
      ((Reference.preparedNode 120).runAll Reference.calm
        [.submitTransaction (Reference.payment 2 0),
          .applyBlock (Reference.block 3 1 1 [])]).validateBlockStateForKnownParent
          result.block =
        (Reference.preparedNode 120).validateBlockStateForKnownParent result.block := by
  have hjob : Reference.preparedJob 120 = some _ := (Option.some_get (by decide +kernel)).symm
  have hfound : Reference.found 120 = some _ := (Option.some_get (by decide +kernel)).symm
  obtain ⟨hledger, -, -, -, hstate⟩ := (commit_on_prepared_tip Reference.forkChoiceLaws
    Reference.chainLaws Reference.recordLaws Reference.headerLaws .empty
    (Reference.opened_eq_some Reference.opened_calm) [.applyBlock Reference.earlyBlock]
    (Reference.prepareMining_eq hjob) (Reference.search_eq hjob hfound)
    [.submitTransaction (Reference.payment 2 0), .applyBlock (Reference.block 3 1 1 [])]).2
    (by decide +kernel)
  exact ⟨_, hfound, hledger, hstate⟩

/-! ## The node's verdict on its own block -/

/-- The timestamp of the active tip. -/
def tipTimestamp (s : Node P) : Option UInt64 :=
  ((P.ledger.tipHash s.ledger).bind (P.forkChoice.get s.forkChoice)).map fun tip =>
    P.block.timestamp tip.block

/-- The difficulty read from the database is the one expected above the tip,
unless the configuration asks for none. -/
def DifficultyCurrent (s : Node P) : Prop :=
  s.consensus.config.difficulty ≠ 0 → ∀ tip, P.ledger.tipHash s.ledger = some tip →
    s.nextDifficulty = nextDifficultyAfterBranchTip s.consensus s.forkChoice tip

/-- The difficulty read from the database is one a block of the index can
have. -/
def DifficultyAdmissible (s : Node P) : Prop :=
  ∀ difficulty, s.nextDifficulty = .ok difficulty → 1 ≤ difficulty ∧ difficulty ≤ 256

/-- There is a height above the tip. -/
def RoomAbove (s : Node P) : Prop :=
  ∀ height ∈ P.ledger.tipHeight s.ledger, height.toNat + 1 < 2 ^ 64

section Laws

variable {s s' : Node P} {tipHash r : BlockHash} {block : P.Block}
  {transactions : List P.SignedTransaction} {timestamp now : UInt64} {minerAddress : Address}
  {job : MiningJob P} {coinbase : P.Block → Prop}

variable (hfc : ForkChoiceLaws P) (hchain : ChainLaws P) (hrec : RecordLaws P)

include hfc

/-- What the first validation says of a block with a known parent is what
`apply_block` returns. -/
theorem applyBlock_of_invalid {env : Env} {parent : ForkNode P.Block} {e : NodeError}
    (hparent : P.forkChoice.get s.forkChoice (P.block.previousHash block) = some parent)
    (hinvalid : s.validateBlockForKnownParent (env.clock (s.io + 1)) block = .error e) :
    (s.applyBlock env block).2 = .error e := by
  have hsync := pruneOrphansNow_onlySync env s
  have hio := (pruneOrphansNow_requests env s).2.2.2
  have hkind := validateBlockForKnownParent_error hfc hparent hinvalid
  have hreject : ((s.pruneOrphansNow env).applyKnownParentBlock env block).2 = .error e := by
    unfold applyKnownParentBlock
    rw [hio, hsync.validateBlockForKnownParent, hinvalid]
  refine applyBlock_eq_error.mpr ⟨hreject, ?_, ?_, ?_⟩
  all_goals
    rintro rfl
    simp at hkind

/-- A block that no index takes is refused, whatever else is right with it. -/
theorem applyBlock_of_inadmissible {env : Env} {parent : ForkNode P.Block}
    (hparent : P.forkChoice.get s.forkChoice (P.block.previousHash block) = some parent)
    (hknown : ∀ entry, P.forkChoice.get s.forkChoice (P.block.hash block) = some entry →
      entry.block = block)
    (hvalid : s.validateBlockForKnownParent (env.clock (s.io + 1)) block = .ok ())
    (hstate : s.validateBlockStateForKnownParent block = .ok ()) (hadmissible : ¬Admissible block) :
    (s.applyBlock env block).2 ≠ .ok () := by
  have hsync := pruneOrphansNow_onlySync env s
  have hio := (pruneOrphansNow_requests env s).2.2.2
  cases hinsert : P.forkChoice.insertBlock s.forkChoice block with
  | ok result => exact absurd (hfc.insert_admissible hinsert) hadmissible
  | error e =>
      have hreject : ((s.pruneOrphansNow env).applyKnownParentBlock env block).2 =
          .error (.forkChoice e) := by
        unfold applyKnownParentBlock
        rw [hio, hsync.validateBlockForKnownParent, hvalid,
          hsync.validateBlockStateForKnownParent, hstate, hsync.forkChoice, hinsert]
      have hmissing : e ≠ .missingParent := by
        rintro rfl
        have hnone := (hfc.insert_missing hinsert).2
        rw [hparent] at hnone
        cases hnone
      have hduplicate : e ≠ .duplicateBlock := by
        rintro rfl
        obtain ⟨entry, hentry⟩ := Option.isSome_iff_exists.mp (hfc.insert_duplicate hinsert)
        exact hadmissible (hknown entry hentry ▸ hfc.get_admissible hentry)
      have herror : (s.applyBlock env block).2 = .error (.forkChoice e) :=
        applyBlock_eq_error.mpr ⟨hreject, by simpa using hmissing, by simpa using hduplicate,
          nofun⟩
      rw [herror]
      exact nofun

include hchain hrec

/-- A block of admissible difficulty that applies to the replay of its known
parent is accepted exactly if it passes the first validation, when no write
fails. -/
theorem applyBlock_ok_iff {env : Env} (henv : env.Faultless) (hs : Synced s r)
    {parent : ForkNode P.Block}
    (hparent : P.forkChoice.get s.forkChoice (P.block.previousHash block) = some parent)
    (hadmissible : Admissible block) (hstate : s.validateBlockStateForKnownParent block = .ok ()) :
    (s.applyBlock env block).2 = .ok () ↔
      s.validateBlockForKnownParent (env.clock (s.io + 1)) block = .ok () := by
  cases hvalid : s.validateBlockForKnownParent (env.clock (s.io + 1)) block with
  | error e => simp [applyBlock_of_invalid hfc hparent hvalid]
  | ok u =>
      have hsync := pruneOrphansNow_onlySync env s
      have hio := (pruneOrphansNow_requests env s).2.2.2
      have hs' : Synced (s.pruneOrphansNow env) r :=
        hs.congr hsync.ledger hsync.forkChoice hsync.genesisAccounts
      rw [← hsync.validateBlockStateForKnownParent] at hstate
      rw [← hsync.validateBlockForKnownParent, ← hio] at hvalid
      simp only [iff_true]
      unfold applyBlock
      rcases applyKnownParentBlock_of_valid hfc hchain hrec henv hs' hadmissible hvalid hstate with
        hok | ⟨-, hdup⟩
      · rcases happly : (s.pruneOrphansNow env).applyKnownParentBlock env block with ⟨s', e | u⟩
        · rw [happly] at hok
          cases hok
        · rfl
      · rw [hdup]

omit hfc hchain hrec in
/-- A mined block that applies to the ledger passes the second validation. -/
theorem Mined.validateBlockState (hcandidate : CandidateLaws P coinbase) {child : P.Ledger}
    (h : Mined s minerAddress timestamp transactions tipHash job block)
    (happly : P.ledger.applyBlock s.ledger block = .ok child) :
    s.validateBlockStateForKnownParent block = .ok () := by
  obtain ⟨tipHeight, subsidy, stateRoot, fresh, nonce, -, -, -, hroot, hblock, hheader⟩ := h.built
  have hprevious : P.block.previousHash block = tipHash := congrArg Header.previousHash hheader
  have hextends : extendsActiveTip s.ledger block = true := by
    unfold extendsActiveTip
    simp [h.tip, hprevious]
  have hroot' : P.ledger.stateRootAfterBlock s.ledger block = .ok stateRoot := by
    rw [hblock, hcandidate.root_minedBlock, hroot]
  have hset : P.block.stateRoot block = stateRoot := congrArg Header.stateRoot hheader
  have hcanonical : validateCanonicalStateRoot s.ledger block = .ok () := by
    unfold validateCanonicalStateRoot
    simp only [hroot', hset, ne_eq, not_true_eq_false, if_false, hcandidate.root_ne_zero hroot,
      and_false]
  unfold validateBlockStateForKnownParent
  simp only [hextends, if_true, hcanonical, happly]

omit hfc hchain hrec in
/-- The ledger applies a block mined on top of its tip: its state root has been
computed. -/
theorem Mined.applies (hcandidate : CandidateLaws P coinbase)
    (h : Mined s minerAddress timestamp transactions tipHash job block) (hroom : s.RoomAbove) :
    ∃ child, P.ledger.applyBlock s.ledger block = .ok child := by
  obtain ⟨tipHeight, subsidy, stateRoot, fresh, nonce, hheight, hsubsidy, rfl, hroot, hblock, -⟩ :=
    h.built
  rw [hblock]
  exact hcandidate.apply_ok _ nonce h.tip hheight (hroom tipHeight hheight) hsubsidy hroot

omit hrec in
/-- A mined block of admissible difficulty passes the first validation at its
own timestamp exactly if its parent is not from the future and the difficulty
and the checkpoint are right. -/
theorem Mined.validateBlock_iff {tolerance : UInt64} (hnext : NextBlockLaws P tolerance coinbase)
    (hcandidate : CandidateLaws P coinbase) (hs : Synced s r) {child : P.Ledger}
    (h : Mined s minerAddress now transactions tipHash job block) (hadmissible : Admissible block)
    (happly : P.ledger.applyBlock s.ledger block = .ok child) :
    s.validateBlockForKnownParent now block = .ok () ↔
      (∀ timestamp ∈ s.tipTimestamp, timestamp ≤ now) ∧ s.DifficultyCurrent ∧
      P.consensus.validateCheckpoint (P.block.height block) (P.block.hash block) = true := by
  obtain ⟨tipHeight, subsidy, stateRoot, fresh, nonce, hheight, hsubsidy, rfl, -, hblock,
    hheader⟩ := h.built
  obtain ⟨t, tip, bs, htip, htipHeight, hitem, hbranch⟩ := hs.tip hfc hchain
  obtain rfl : tipHash = t := Option.some.inj (h.tip.symm.trans htip)
  obtain rfl : tipHeight = P.block.height tip := Option.some.inj (hheight.symm.trans htipHeight)
  have hprevious : P.block.previousHash block = tipHash := congrArg Header.previousHash hheader
  have htime : P.block.timestamp block = now := congrArg Header.timestamp hheader
  obtain ⟨-, hnumber⟩ := applyBlock_link hchain happly htip hheight
  have hget := get_of_indexed hfc hitem
  have hne : P.block.height block ≠ 0 := by
    intro hzero
    rw [hzero] at hnumber
    simp at hnumber
  have hlater : now ≤ satAdd now tolerance := by
    rw [UInt64.le_iff_toNat_le, toNat_satAdd]
    have := now.toNat_lt
    omega
  have hcoinbase : coinbase block := by
    rw [hblock] at happly ⊢
    exact hcandidate.coinbase_ok hsubsidy happly
  have htimestamp : s.tipTimestamp = some (P.block.timestamp tip) := by
    unfold tipTimestamp
    simp [htip, hget]
  have hdifficulty : s.DifficultyCurrent ↔ (s.consensus.config.difficulty ≠ 0 →
      nextDifficultyAfterBranchTip s.consensus s.forkChoice tipHash =
        .ok (P.block.difficulty block)) := by
    unfold DifficultyCurrent
    simp only [htip, h.nextDifficulty, Option.some.injEq, forall_eq', eq_comm]
  have hwork : ProofOfWork s.consensus block := h.work (by
    intro hzero
    rw [Admissible, hzero] at hadmissible
    exact absurd hadmissible.1 (by decide))
  have hfollows : Follows tolerance now tip block ↔ P.block.timestamp tip ≤ now := by
    constructor
    · exact fun h => htime ▸ h.after
    · exact fun h => ⟨htime ▸ h, htime ▸ hlater, hnumber,
        hprevious.trans (hash_of_indexed hfc hitem).symm⟩
  rw [validateBlockForKnownParent_eq_ok hne (hprevious ▸ hget), hnext.next_ok hadmissible,
    hfollows, hprevious, htimestamp, hdifficulty]
  simp only [hwork, hcoinbase, and_true, Option.mem_some_iff, forall_eq']
  exact and_congr_right fun _ => and_comm

omit hrec in
/-- Where the tip has the greatest height there is, no block follows it. -/
theorem Mined.invalid_of_full {tolerance : UInt64} (hnext : NextBlockLaws P tolerance coinbase)
    (hs : Synced s r) (h : Mined s minerAddress now transactions tipHash job block)
    (hfull : ¬s.RoomAbove) : s.validateBlockForKnownParent now block ≠ .ok () := by
  obtain ⟨tipHeight, subsidy, stateRoot, fresh, nonce, hheight, -, -, -, -, hheader⟩ := h.built
  obtain ⟨t, tip, bs, htip, htipHeight, hitem, hbranch⟩ := hs.tip hfc hchain
  obtain rfl : tipHash = t := Option.some.inj (h.tip.symm.trans htip)
  obtain rfl : tipHeight = P.block.height tip := Option.some.inj (hheight.symm.trans htipHeight)
  have hprevious : P.block.previousHash block = tipHash := congrArg Header.previousHash hheader
  have hnumber : P.block.height block = satAdd (P.block.height tip) 1 :=
    congrArg Header.height hheader
  have hne : P.block.height block ≠ 0 := hnumber ▸ satAdd_one_ne_zero _
  intro hvalid
  rw [validateBlockForKnownParent_eq_ok hne (hprevious ▸ get_of_indexed hfc hitem)] at hvalid
  have hfollows := (hnext.next_follows hvalid.1).height
  have hlt := (P.block.height block).toNat_lt
  refine hfull fun height hmem => ?_
  rw [hheight, Option.mem_some_iff] at hmem
  rw [← hmem, ← hfollows]
  exact hlt

/-- **The node's verdict on its own block.**  A block mined on top of the tip is
accepted, at the clock reading it carries as its timestamp, exactly if the
timestamp of the tip is not ahead of that reading, the difficulty read from the
database is the expected one and one the index takes, the checkpoints allow the
block, and there is a height above the tip.  Its transactions apply, or it
would not have been built. -/
theorem ownBlock_accepted_iff (hheader : HeaderLaws P) {tolerance : UInt64}
    {coinbase : P.Block → Prop} (hnext : NextBlockLaws P tolerance coinbase)
    (hcandidate : CandidateLaws P coinbase) {db db' : Storage P}
    (hdb : Written (fun _ => True) db) {env₀ : Env} {io : Nat} {consensus : Consensus}
    {s₀ : Node P} (hopen : initOrLoad env₀ io db consensus = (db', .ok s₀))
    (operations : List (Operation P)) {minerAddress : Address} {now mineAttempts : UInt64}
    {transactionLimit : Nat} {s : Node P} {job : MiningJob P} {result : MiningResult P}
    (hprepare : (s₀.runAll env₀ operations).prepareMining minerAddress now mineAttempts
      transactionLimit = (s, .ok job))
    (hsearch : job.search = .ok (some result))
    (hknown : ∀ entry, P.forkChoice.get s.forkChoice (P.block.hash result.block) = some entry →
      entry.block = result.block)
    {env : Env} (henv : env.Faultless) (hclock : ∀ i, env.clock i = now) :
    (s.applyBlock env result.block).2 = .ok () ↔
      (∀ timestamp ∈ s.tipTimestamp, timestamp ≤ now) ∧ s.DifficultyCurrent ∧
      s.DifficultyAdmissible ∧ s.RoomAbove ∧
      P.consensus.validateCheckpoint (P.block.height result.block)
        (P.block.hash result.block) = true := by
  obtain ⟨_, _, g, _, _, hstored, hopened⟩ := hdb.opened hfc hchain hrec hopen
  have hs : Synced s (P.block.hash g) := Steps.synced hfc hchain hopened.synced
    ((runAll_steps env₀ operations s₀).trans (prepareMining_steps env₀ hprepare))
  obtain ⟨t, bs, htip, hbranch, hreplay⟩ := hs.replayed
  obtain ⟨_, tipHeight, -, hheight⟩ := ledgerForBranchTip_tip hchain hreplay
  have hmined := mined_of_search hheader hprepare hsearch htip hheight
  obtain ⟨tip, hitem⟩ := hbranch.tip_known
  have hparent : P.forkChoice.get s.forkChoice (P.block.previousHash result.block) =
      some ⟨t, P.block.height tip, tip⟩ := by
    obtain ⟨_, _, _, _, _, -, -, -, -, -, hblock⟩ := hmined.built
    have hprevious : P.block.previousHash result.block = t := congrArg Header.previousHash hblock
    rw [hprevious, get_of_indexed hfc hitem]
  have hdifficulty : s.DifficultyAdmissible ↔ Admissible result.block := by
    unfold DifficultyAdmissible Admissible
    simp [hmined.nextDifficulty]
  rw [hdifficulty]
  by_cases hroom : s.RoomAbove
  · obtain ⟨child, happly⟩ := hmined.applies hcandidate hroom
    have hstate := hmined.validateBlockState hcandidate happly
    by_cases hadmissible : Admissible result.block
    · rw [applyBlock_ok_iff hfc hchain hrec henv hs hparent hadmissible hstate, hclock,
        hmined.validateBlock_iff hfc hchain hnext hcandidate hs hadmissible happly]
      simp only [hroom, hadmissible, true_and]
    · -- refused by the index, if not before
      have hrefused : (s.applyBlock env result.block).2 ≠ .ok () := by
        cases hvalid : s.validateBlockForKnownParent (env.clock (s.io + 1)) result.block with
        | error e => simp [applyBlock_of_invalid hfc hparent hvalid]
        | ok u => exact applyBlock_of_inadmissible hfc hparent hknown hvalid hstate hadmissible
      simp only [hrefused, hadmissible, false_and, and_false]
  · have hinvalid := hmined.invalid_of_full hfc hchain hnext hs hroom
    rw [← hclock (s.io + 1)] at hinvalid
    cases hvalid : s.validateBlockForKnownParent (env.clock (s.io + 1)) result.block with
    | error e => simp [applyBlock_of_invalid hfc hparent hvalid, hroom]
    | ok u => exact absurd hvalid hinvalid

end Laws

/-- The tip has timestamp 100, the local clock reads 60: the block the node
mines applies to its ledger, and the node rejects it. -/
theorem own_block_rejected :
    ∃ job result child,
      Reference.aheadNode.prepareMining 1 60 1 10 = (Reference.preparedNode 60, .ok job) ∧
      job.search = .ok (some result) ∧
      Reference.paqus.ledger.applyBlock (Reference.preparedNode 60).ledger result.block =
        .ok child ∧
      ((Reference.preparedNode 60).applyBlock (Reference.clockAt 60) result.block).2 =
        .error (.consensus (.other 0)) :=
  have hjob : Reference.preparedJob 60 = some _ := (Option.some_get (by decide +kernel)).symm
  have hfound : Reference.found 60 = some _ := (Option.some_get (by decide +kernel)).symm
  ⟨_, _, _, Reference.prepareMining_eq hjob, Reference.search_eq hjob hfound,
    Except.eq_ok_of_toOption (Option.some_get (by decide +kernel)).symm, by decide +kernel⟩

/-- At 120 the clock has passed the tip, and the node accepts its block. -/
theorem own_block_accepted :
    ∃ result, Reference.found 120 = some result ∧
      ((Reference.preparedNode 120).applyBlock (Reference.clockAt 120) result.block).2 =
        .ok () := by
  have hjob : Reference.preparedJob 120 = some _ := (Option.some_get (by decide +kernel)).symm
  have hfound : Reference.found 120 = some _ := (Option.some_get (by decide +kernel)).symm
  have hearly : (Reference.preparedNode 120).tipTimestamp = some 100 := by decide +kernel
  have htip : ∀ timestamp ∈ (Reference.preparedNode 120).tipTimestamp, timestamp ≤ 120 := by
    intro timestamp htimestamp
    obtain rfl : 100 = timestamp := Option.some.inj (hearly.symm.trans htimestamp)
    decide
  have hdifficulty : (Reference.preparedNode 120).nextDifficulty = .ok 1 :=
    Except.eq_ok_of_toOption (by decide +kernel)
  have hexpected : nextDifficultyAfterBranchTip (Reference.preparedNode 120).consensus
      (Reference.preparedNode 120).forkChoice 2 = .ok 1 :=
    Except.eq_ok_of_toOption (by decide +kernel)
  have hcurrent : (Reference.preparedNode 120).DifficultyCurrent := by
    intro _ tip htip
    have hhash : Reference.paqus.ledger.tipHash (Reference.preparedNode 120).ledger = some 2 := by
      decide +kernel
    obtain rfl : 2 = tip := Option.some.inj (hhash.symm.trans htip)
    rw [hdifficulty, hexpected]
  have hadmissible : (Reference.preparedNode 120).DifficultyAdmissible := by
    intro difficulty hd
    obtain rfl : 1 = difficulty := Except.ok.inj (hdifficulty.symm.trans hd)
    decide
  have hroom : (Reference.preparedNode 120).RoomAbove := by
    intro height hheight
    have hone : Reference.paqus.ledger.tipHeight (Reference.preparedNode 120).ledger = some 1 := by
      decide +kernel
    obtain rfl : 1 = height := Option.some.inj (hone.symm.trans hheight)
    decide
  have hfresh : Reference.paqus.forkChoice.get (Reference.preparedNode 120).forkChoice
      (Reference.paqus.block.hash ((Reference.found 120).get (by decide +kernel)).block) =
        none := by
    decide +kernel
  refine ⟨_, hfound, (ownBlock_accepted_iff Reference.forkChoiceLaws Reference.chainLaws
    Reference.recordLaws Reference.headerLaws Reference.nextBlockLaws Reference.candidateLaws
    .empty (Reference.opened_eq_some Reference.opened_calm) [.applyBlock Reference.earlyBlock]
    (Reference.prepareMining_eq hjob) (Reference.search_eq hjob hfound)
    (fun entry hentry => absurd (hfresh.symm.trans hentry) (by simp))
    ⟨fun _ => rfl, fun _ => rfl⟩ fun _ => rfl).mpr ⟨htip, hcurrent, hadmissible, hroom, ?_⟩⟩
  decide +kernel

end Node

end PaqusNode
