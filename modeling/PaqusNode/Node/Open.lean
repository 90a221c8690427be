import PaqusNode.Base.Except
import PaqusNode.Node.Sync
import PaqusNode.Paqus.Reference

/-!
# PaqusNode.Node.Open

Opening a node over a database (`Node::init_or_load`) and mining on top of
it (`Node::mine_block`).

Opening returns the database next to the node: it stamps an empty database,
writes the genesis ledger, and may fail after either.
-/

namespace PaqusNode

variable {P : Paqus}

/-! ## Rebuilding the fork-choice index -/

/-- The loop of `with_genesis_accounts` over the ledger's own blocks. -/
def indexChain (forkChoice : P.ForkChoice) (blocks : List P.Block) :
    Except ForkChoiceError P.ForkChoice :=
  blocks.foldlM
    (fun forkChoice block => (P.forkChoice.insertBlock forkChoice block).map Prod.snd) forkChoice

/-- One round of `index_stored_blocks`: the index after the round, the blocks
whose parent is still missing, and whether the round progressed. -/
def indexRound (forkChoice : P.ForkChoice) :
    List P.Block → Except ForkChoiceError (P.ForkChoice × List P.Block × Bool)
  | [] => .ok (forkChoice, [], false)
  | block :: rest =>
      if P.forkChoice.contains forkChoice (P.block.hash block) then
        (indexRound forkChoice rest).map fun (forkChoice, remaining, _) =>
          (forkChoice, remaining, true)
      else
        match P.forkChoice.insertBlock forkChoice block with
        | .ok (_, forkChoice) =>
            (indexRound forkChoice rest).map fun (forkChoice, remaining, _) =>
              (forkChoice, remaining, true)
        | .error .missingParent =>
            (indexRound forkChoice rest).map fun (forkChoice, remaining, progressed) =>
              (forkChoice, block :: remaining, progressed)
        | .error e => .error e

/-- A round leaves no more blocks than it was given, and fewer when it
progressed. -/
theorem indexRound_remaining {blocks : List P.Block} {forkChoice forkChoice' : P.ForkChoice}
    {remaining : List P.Block} {progressed : Bool}
    (h : indexRound forkChoice blocks = .ok (forkChoice', remaining, progressed)) :
    remaining.length + progressed.toNat ≤ blocks.length := by
  induction blocks generalizing forkChoice forkChoice' remaining progressed with
  | nil =>
      cases h
      exact Nat.le_refl _
  | cons block rest ih =>
      unfold indexRound at h
      split at h
      · obtain ⟨⟨fc, rem, p⟩, hr, h⟩ := Except.map_eq_ok h
        cases h
        have := ih hr
        simp only [Bool.toNat_true, List.length_cons]
        omega
      split at h
      · obtain ⟨⟨fc, rem, p⟩, hr, h⟩ := Except.map_eq_ok h
        cases h
        have := ih hr
        simp only [Bool.toNat_true, List.length_cons]
        omega
      · obtain ⟨⟨fc, rem, p⟩, hr, h⟩ := Except.map_eq_ok h
        cases h
        have := ih hr
        simp only [List.length_cons]
        omega
      · cases h

/-- The rounds of `index_stored_blocks`, until one makes no progress. -/
def indexRounds (forkChoice : P.ForkChoice) (blocks : List P.Block) :
    Except ForkChoiceError P.ForkChoice :=
  match _h : indexRound forkChoice blocks with
  | .error e => .error e
  | .ok (forkChoice, _, false) => .ok forkChoice
  | .ok (forkChoice, remaining, true) => indexRounds forkChoice remaining
termination_by blocks.length
decreasing_by
  have := indexRound_remaining _h
  simp only [Bool.toNat_true] at this
  omega

/-! ## Opening -/

namespace Node

/-- `with_genesis_accounts`. -/
def withGenesisAccounts (ledger : P.Ledger) (storage : Storage P) (consensus : Consensus)
    (genesisAccounts : BTreeMap Address P.Account) (io : Nat) : Except NodeError (Node P) :=
  match indexChain P.forkChoice.new ledger.chain.blocks.valuesList with
  | .error _ => .error (.panicked "ledger chain should build a valid fork choice index")
  | .ok forkChoice => .ok {
      ledger := ledger
      mempool := Mempool.new
      storage := storage
      consensus := consensus
      cache := CoreCache.fromLedger ledger
      forkChoice := forkChoice
      genesisAccounts := genesisAccounts
      orphanBlocks := ∅
      orphanChildrenByParent := ∅
      missingParentRequests := []
      missingParentRequestSet := ∅
      missingParentRetryAt := ∅
      io := io
      durable := ⟨ledger, forkChoice⟩ }

/-- `index_stored_blocks`. -/
def indexStoredBlocks (s : Node P) : Except NodeError (Node P) :=
  match s.storage.loadBlocksByHash with
  | .error e => .error (.storage e)
  | .ok blocks =>
      let blocks := blocks.insertionSort fun a b => P.block.height a ≤ P.block.height b
      match indexRounds s.forkChoice blocks with
      | .error e => .error (.forkChoice e)
      | .ok forkChoice =>
          .ok { s with
            forkChoice := forkChoice
            durable := { s.durable with forkChoice := forkChoice } }

/-- The ledger `init_or_load` starts from: the stored one, or the genesis
ledger, which is written first. -/
def openLedger (env : Env) (io : Nat) (db : Storage P) : Storage P × Except NodeError P.Ledger :=
  match db.loadTip with
  | .error e => (db, .error (.storage e))
  | .ok (some _) =>
      match db.loadLedger env io with
      | (db, .error e) => (db, .error (.storage e))
      | (db, .ok ledger) => (db, .ok ledger)
  | .ok none =>
      if P.block.hash P.genesisBlock ≠ P.genesisHash then
        (db, .error (.panicked "assertion failed: genesis.hash() == GENESIS_HASH"))
      else
        match P.ledger.applyBlock (Ledger.new P.Account P.Block) P.genesisBlock with
        | .error e => (db, .error (.ledger e))
        | .ok ledger =>
            match db.saveLedger env io ledger with
            | (db, .error e) => (db, .error (.storage e))
            | (db, .ok ()) =>
                match db.saveGenesisAccounts env (io + 1) ledger.accounts with
                | (db, .error e) => (db, .error (.storage e))
                | (db, .ok ()) => (db, .ok ledger)

/-- What stands in for genesis accounts the database does not have. -/
def defaultGenesisAccounts (ledger : P.Ledger) : BTreeMap Address P.Account :=
  if P.ledger.tipHeight ledger = some 0 then ledger.accounts else ∅

/-- The part of `init_or_load` that only reads: genesis accounts and the two
passes that build the fork-choice index. -/
def assemble (io : Nat) (db : Storage P) (consensus : Consensus) (ledger : P.Ledger) :
    Except NodeError (Node P) :=
  match db.loadGenesisAccounts with
  | .error e => .error (.storage e)
  | .ok stored =>
  match withGenesisAccounts ledger db consensus (stored.getD (defaultGenesisAccounts ledger))
      io with
  | .error e => .error e
  | .ok s => s.indexStoredBlocks

/-- `init_or_load`, on the database of its path. -/
def initOrLoad (env : Env) (io : Nat) (db : Storage P) (consensus : Consensus) :
    Storage P × Except NodeError (Node P) :=
  match db.ensureStorageVersion env io with
  | (db, .error e) => (db, .error (.storage e))
  | (db, .ok ()) =>
  match openLedger env (io + 1) db with
  | (db, .error e) => (db, .error e)
  | (db, .ok ledger) => (db, assemble (io + 3) db consensus ledger)

/-- However it was opened, a node starts with nothing but a ledger, an index
and genesis accounts. -/
theorem initOrLoad_eq {env : Env} {io : Nat} {db db' : Storage P} {consensus : Consensus}
    {s : Node P} (h : initOrLoad env io db consensus = (db', .ok s)) :
    ∃ (ledger : P.Ledger) (forkChoice : P.ForkChoice)
      (genesisAccounts : BTreeMap Address P.Account), s = {
        ledger := ledger
        mempool := Mempool.new
        storage := db'
        consensus := consensus
        cache := CoreCache.fromLedger ledger
        forkChoice := forkChoice
        genesisAccounts := genesisAccounts
        orphanBlocks := ∅
        orphanChildrenByParent := ∅
        missingParentRequests := []
        missingParentRequestSet := ∅
        missingParentRetryAt := ∅
        io := io + 3
        durable := ⟨ledger, forkChoice⟩ } := by
  unfold initOrLoad at h
  split at h
  · cases h
  split at h
  · cases h
  obtain ⟨rfl, hassemble⟩ := Prod.mk.inj h
  unfold assemble at hassemble
  split at hassemble
  · cases hassemble
  split at hassemble
  · cases hassemble
  next s₀ hs₀ =>
  unfold withGenesisAccounts at hs₀
  split at hs₀
  · cases hs₀
  cases hs₀
  unfold indexStoredBlocks at hassemble
  split at hassemble
  · cases hassemble
  simp only at hassemble
  split at hassemble
  · cases hassemble
  · cases hassemble
    exact ⟨_, _, _, rfl⟩

/-- However it was opened, a node caches its ledger. -/
theorem initOrLoad_cache {env : Env} {io : Nat} {db db' : Storage P} {consensus : Consensus}
    {s : Node P} (h : initOrLoad env io db consensus = (db', .ok s)) :
    s.cache = CoreCache.fromLedger s.ledger := by
  obtain ⟨ledger, forkChoice, genesisAccounts, rfl⟩ := initOrLoad_eq h
  rfl

/-! ## Mining -/

/-- `next_difficulty_after_tip`. -/
def nextDifficultyAfterTip (s : Node P) (tipHeight : UInt64) : Except NodeError UInt32 :=
  match s.storage.difficultyWindow tipHeight P.consensus.difficultyAdjustmentInterval with
  | .error e => .error (.storage e)
  | .ok none => .ok s.consensus.config.difficulty
  | .ok (some (firstTimestamp, lastTimestamp, blockCount, currentDifficulty)) =>
      match P.consensus.retargetDifficulty s.consensus currentDifficulty firstTimestamp
          lastTimestamp blockCount with
      | .error e => .error (.consensus e)
      | .ok difficulty => .ok difficulty

/-- `next_difficulty`. -/
def nextDifficulty (s : Node P) : Except NodeError UInt32 :=
  match P.ledger.tipHeight s.ledger with
  | none => .ok s.consensus.config.difficulty
  | some tipHeight => s.nextDifficultyAfterTip tipHeight

/-- `mine_block`. -/
def mineBlock (env : Env) (s : Node P) (minerAddress : Address) (timestamp maxAttempts : UInt64)
    (transactionLimit : Nat) : Node P × Except NodeError (MiningResult P) :=
  let s := { s with mempool := s.mempool.pruneExpired timestamp }
  match s.nextDifficulty with
  | .error e => (s, .error e)
  | .ok difficulty =>
  match mineCandidateBlock s.mempool s.ledger s.consensus minerAddress timestamp
      ⟨difficulty, maxAttempts, transactionLimit⟩ with
  | .error e => (s, .error (.consensus e))
  | .ok none => (s, .error .miningExhausted)
  | .ok (some result) =>
      match s.applyBlock env result.block with
      | (s, .error e) => (s, .error e)
      | (s, .ok ()) => (s, .ok result)

/-- `run_node` gives an opened node a pool with its own settings. -/
def withPool (s : Node P) (config : MempoolConfig) : Node P :=
  { s with mempool := Mempool.withConfig config }

end Node

/-! ## A node to evaluate -/

namespace Reference

/-- The clock stands still and no write fails. -/
def calm : Env := ⟨fun _ => 0, fun _ => none, fun _ => none⟩

/-- The process stops before interaction `n`. -/
def stopAt (n : Nat) : Env := ⟨fun _ => 0, fun i => if i < n then none else some 0, fun _ => none⟩

def consensus : Consensus := ⟨⟨1⟩⟩

/-- The node opened over an empty database, if it opens. -/
def opened (env : Env) : Option (Node paqus) :=
  (Node.initOrLoad env 0 Storage.empty consensus).2.toOption

theorem opened_eq_some {env : Env} {s : Node paqus} (h : opened env = some s) :
    Node.initOrLoad env 0 Storage.empty consensus =
      ((Node.initOrLoad env 0 (Storage.empty (P := paqus)) consensus).1, .ok s) :=
  eq_mk_ok_of_toOption h

/-- The node that knows the genesis block and nothing else. -/
def genesisNode : Node paqus := (opened calm).get (by decide +kernel)

theorem opened_calm : opened calm = some genesisNode := (Option.some_get _).symm

/-- A block of the miner with address 1, on any clock. -/
def block (hash : BlockHash) (height : UInt64) (previousHash : BlockHash)
    (transactions : List Tx) : Block where
  hash := hash
  height := height
  previousHash := previousHash
  miner := 1
  difficulty := 1
  timestamp := 0
  stateRoot := BitVec.ofNat 512 (height.toNat + 1)
  transactions := transactions

/-- The genesis node with one payment pending. -/
def payingNode : Node paqus := (genesisNode.submitTransaction calm (payment 2 0)).1

/-- A first block on the active chain, then a side branch of two blocks that
arrives in the wrong order and wins. -/
def sideBranchWins : List Block := [block 2 1 1 [], block 4 2 3 [], block 3 1 1 []]

end Reference

end PaqusNode
