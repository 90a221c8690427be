import PaqusNode.Base.Except
import PaqusNode.Paqus.Laws

/-!
# PaqusNode.Paqus.Reference

A small `paqus` crate that runs: a transaction is its own hash, a block
carries its hash as a field, an account is a nonce and a balance, every block pays its miner,
and the fork-choice index is the list of its blocks, newest first, with the
heaviest tip on top.  It satisfies all the laws, so nothing assumed of the
crate is contradictory, and it is what concrete runs are evaluated on.
-/

namespace PaqusNode

namespace Reference

/-! ## Values -/

structure Tx where
  sender : Address
  receiver : Address
  amount : UInt32
  fee : UInt32
  nonce : UInt64
  timestamp : UInt64
deriving DecidableEq, Repr

/-- A transaction is its own hash. -/
def Tx.hash (tx : Tx) : TransactionHash :=
  tx.sender ++ (tx.nonce.toBitVec ++
    (tx.receiver ++ tx.amount.toBitVec ++ tx.fee.toBitVec ++ tx.timestamp.toBitVec))

structure Block where
  hash : BlockHash
  height : UInt64
  previousHash : BlockHash
  miner : Address
  difficulty : UInt32
  timestamp : UInt64
  stateRoot : Hash
  transactions : List Tx
deriving DecidableEq, Repr

structure Account where
  address : Address
  nonce : UInt64
  balance : UInt32
deriving DecidableEq, Repr

/-! ## The ledger -/

abbrev Accounts : Type := BTreeMap Address Account

/-- Add to a balance, opening the account if there is none. -/
def credit (accounts : Accounts) (address : Address) (amount : UInt32) : Accounts :=
  match accounts[address]? with
  | some account => accounts.insert address { account with balance := account.balance + amount }
  | none => accounts.insert address ⟨address, 0, amount⟩

def applyTx (accounts : Accounts) (tx : Tx) : Except LedgerError Accounts :=
  match accounts[tx.sender]? with
  | none => .error .accountNotFound
  | some account =>
      if tx.nonce ≠ account.nonce ∨ account.nonce.toNat + 1 = 2 ^ 64 then
        .error (.invalidState .invalidNonce)
      else if account.balance.toNat < tx.amount.toNat + tx.fee.toNat then
        .error (.invalidState .insufficientBalance)
      else
        let paid := { account with
          nonce := account.nonce + 1
          balance := account.balance - (tx.amount + tx.fee) }
        .ok (credit (accounts.insert tx.sender paid) tx.receiver tx.amount)

/-- What a block pays its miner. -/
def reward : UInt32 := 100

/-- The highest block of a chain that has all heights from 0 on. -/
def tip (chain : Chain Block) : Option Block :=
  if chain.blocks.size = 0 then none else chain.blocks[UInt64.ofNat (chain.blocks.size - 1)]?

def insertBlock (chain : Chain Block) (block : Block) : Except LedgerError (Chain Block) :=
  if block.height.toNat ≠ chain.blocks.size ∨ chain.blocks.contains block.height then
    .error .duplicateBlock
  else if chain.blocks.size = 0 ∧ block.previousHash ≠ 0 then .error (.other 0)
  else if chain.blocks.size ≠ 0 ∧ (tip chain).map Block.hash ≠ some block.previousHash then
    .error (.other 1)
  else if 2 ^ 32 < block.transactions.length then .error (.other 2)
  else .ok ⟨chain.blocks.insert block.height block⟩

def applyBlock (ledger : Ledger Account Block) (block : Block) :
    Except LedgerError (Ledger Account Block) :=
  match insertBlock ledger.chain block with
  | .error e => .error e
  | .ok chain =>
      match block.transactions.foldlM applyTx (credit ledger.accounts block.miner reward) with
      | .error e => .error e
      | .ok accounts => .ok ⟨accounts, chain⟩

/-- One more than the height of the tip. -/
def stateRoot (ledger : Ledger Account Block) : Hash :=
  BitVec.ofNat 512 ledger.chain.blocks.size

/-- The money there is. -/
def calculateStateRoot (accounts : Accounts) : Hash :=
  BitVec.ofNat 512 (accounts.valuesList.map fun account => account.balance.toNat).sum

/-! ## The fork-choice index -/

/-- The block with a given hash. -/
def find (hash : BlockHash) : List Block → Option Block
  | [] => none
  | block :: rest => if block.hash = hash then some block else find hash rest

/-- Every block is new when it arrives, its parent is there if it names one,
and its difficulty is one the index takes. -/
def WellFormed : List Block → Prop
  | [] => True
  | block :: rest => find block.hash rest = none ∧
      (¬(block.height = 0 ∧ block.previousHash = 0) →
        (find block.previousHash rest).isSome) ∧
      (1 ≤ block.difficulty ∧ block.difficulty ≤ 256) ∧ WellFormed rest

/-- A fork-choice index. -/
structure Index where
  blocks : List Block
  wellFormed : WellFormed blocks

def ancestors : List Block → BlockHash → List BlockHash
  | [], _ => []
  | block :: rest, hash =>
      if block.hash = hash then
        if block.height = 0 then [hash] else hash :: ancestors rest block.previousHash
      else ancestors rest hash

def branch (ancestor : BlockHash) : List Block → BlockHash → Option (List Block)
  | [], _ => none
  | block :: rest, hash =>
      if block.hash = hash then
        if ancestor = hash then some []
        else if block.height = 0 then none
        else (branch ancestor rest block.previousHash).map (· ++ [block])
      else branch ancestor rest hash

/-- The work of one block. -/
def work (block : Block) : Nat := block.difficulty.toNat + 1

/-- The work accumulated from the root to a tip. -/
def totalWork : List Block → BlockHash → Nat
  | [], _ => 0
  | block :: rest, hash =>
      if block.hash = hash then
        work block + if block.height = 0 then 0 else totalWork rest block.previousHash
      else totalWork rest hash

/-- The heaviest tip, the older one on a tie. -/
def best : List Block → Option Block
  | [] => none
  | block :: rest =>
      match best rest with
      | none => some block
      | some other =>
          if totalWork rest other.hash < totalWork (block :: rest) block.hash then some block
          else some other

def entry (block : Block) : ForkNode Block := ⟨block.hash, block.height, block⟩

def insertIndex (index : Index) (block : Block) : Except ForkChoiceError (BlockHash × Index) :=
  if hdup : find block.hash index.blocks = none then
    if hparent : (block.height = 0 ∧ block.previousHash = 0) ∨
        (find block.previousHash index.blocks).isSome then
      if hdifficulty : 1 ≤ block.difficulty ∧ block.difficulty ≤ 256 then
        .ok (block.hash, ⟨block :: index.blocks, hdup,
          fun hne => hparent.resolve_left hne, hdifficulty, index.wellFormed⟩)
      else .error .invalidDifficulty
    else .error .missingParent
  else .error .duplicateBlock

/-! ## The crate -/

/-- Stored values, tagged with their kind. -/
abbrev Record : Type := (kind : RecordKind) × kind.Val Account Block

def decode (kind : RecordKind) (record : Record) : Option (kind.Val Account Block) :=
  if h : record.1 = kind then some (h ▸ record.2) else none

/-- The hash of a mined block. -/
def digest (height nonce : UInt64) : BlockHash :=
  BitVec.ofNat 512 (1000 * (height.toNat + 1) + nonce.toNat)

/-- How far a block may be ahead of the clock. -/
def futureTolerance : UInt64 := 120

def genesis : Block where
  hash := 1
  height := 0
  previousHash := 0
  miner := 1
  difficulty := 1
  timestamp := 0
  stateRoot := 0
  transactions := []

/-- The crate these definitions make up. -/
abbrev paqus : Paqus where
  Block := Block
  SignedTransaction := Tx
  Account := Account
  ForkChoice := Index
  transaction := {
    hash := Tx.hash
    sender := Tx.sender
    receiver := Tx.receiver
    amount := Tx.amount
    fee := Tx.fee
    nonce := Tx.nonce
    timestamp := Tx.timestamp
    serializedSize := fun _ => 1
    validateSigned := fun _ => .ok ()
    validateSignedAt := fun _ _ => .ok () }
  block := {
    hash := Block.hash
    height := Block.height
    previousHash := Block.previousHash
    minerAddress := Block.miner
    difficulty := Block.difficulty
    timestamp := Block.timestamp
    stateRoot := Block.stateRoot
    transactions := Block.transactions
    isGenesis := fun block => block.height == 0
    withCoinbase := fun height previousHash miner difficulty timestamp nonce _ transactions =>
      ⟨digest height nonce, height, previousHash, miner, difficulty, timestamp, 0, transactions⟩
    setStateRoot := fun block root => { block with stateRoot := root }
    setDifficulty := fun block difficulty => { block with difficulty := difficulty }
    setNonce := fun block nonce => { block with hash := digest block.height nonce } }
  account := {
    address := Account.address
    nonce := Account.nonce
    availableBalanceAt := fun account _ => account.balance }
  ledger := {
    applyBlock := applyBlock
    insertBlock := insertBlock
    tipHeight := fun ledger =>
      (tip ledger.chain).map fun _ => UInt64.ofNat (ledger.chain.blocks.size - 1)
    tipHash := fun ledger => (tip ledger.chain).map Block.hash
    stateRoot := stateRoot
    calculateStateRoot := calculateStateRoot
    stateRootAfterBlock := fun ledger block => (applyBlock ledger block).map stateRoot
    mintableSubsidy := fun _ _ => .ok reward }
  forkChoice := {
    new := ⟨[], trivial⟩
    insertBlock := insertIndex
    contains := fun index hash => (find hash index.blocks).isSome
    get := fun index hash => (find hash index.blocks).map entry
    bestTip := fun index => (best index.blocks).map entry
    ancestorHashes := fun index hash => ancestors index.blocks hash
    branchFromAncestor := fun index ancestor hash => branch ancestor index.blocks hash }
  consensus := {
    validateGenesisBlockAt := fun _ _ _ => .ok ()
    validateNextBlockWithTipAt := fun _ block tip now =>
      if block.previousHash = tip.hash ∧ block.height.toNat = tip.height.toNat + 1 ∧
          tip.timestamp ≤ block.timestamp ∧ block.timestamp ≤ satAdd now futureTolerance then
        .ok ()
      else .error (.other 0)
    retargetDifficulty := fun _ current _ _ _ => .ok current
    proofOfWorkHash := fun _ block => .ok block.hash
    validateProofOfWorkHashWithDifficulty := fun _ _ _ => .ok ()
    validateCheckpoint := fun _ _ => true
    isSnapshotHeight := fun height => height % 100 == 0
    difficultyAdjustmentInterval := 10
    difficultyStart := 1
    blockTime := 60 }
  borsh := {
    Bytes := Record
    encode := fun kind value => ⟨kind, value⟩
    decode := decode }
  genesisBlock := genesis
  genesisHash := 1

/-- A payment of the miner. -/
def payment (fee : UInt32) (nonce : UInt64) : Tx := ⟨1, 2, 1, fee, nonce, 0⟩

/-- A payment back. -/
def returnPayment (fee : UInt32) (nonce : UInt64) : Tx := ⟨2, 1, 1, fee, nonce, 0⟩

/-! ## Laws of the index -/

/-- A block is found under its hash. -/
theorem hash_of_find {hash : BlockHash} {blocks : List Block} {block : Block}
    (h : find hash blocks = some block) : block.hash = hash := by
  induction blocks with
  | nil => cases h
  | cons b rest ih =>
      unfold find at h
      split at h
      · next hb =>
          cases h
          exact hb
      · exact ih h

/-- A block found further down is not the one on top. -/
theorem ne_of_find {block found : Block} {rest : List Block} {hash : BlockHash}
    (hfresh : find block.hash rest = none) (h : find hash rest = some found) :
    block.hash ≠ hash := by
  rintro rfl
  rw [hfresh] at h
  cases h

/-- The genesis block is its only ancestor. -/
theorem ancestors_root {blocks : List Block} {hash : BlockHash} {block : Block}
    (h : find hash blocks = some block) (hheight : block.height = 0) :
    ancestors blocks hash = [hash] := by
  induction blocks with
  | nil => cases h
  | cons b rest ih =>
      unfold find at h
      unfold ancestors
      split at h
      · next hb =>
          cases h
          rw [if_pos hb, if_pos hheight]
      · next hb =>
          rw [if_neg hb]
          exact ih h

/-- The parent of an indexed block is indexed. -/
theorem find_parent {blocks : List Block} {hash : BlockHash} {block : Block}
    (hwf : WellFormed blocks) (h : find hash blocks = some block) (hheight : block.height ≠ 0) :
    ∃ parent, find block.previousHash blocks = some parent := by
  induction blocks with
  | nil => cases h
  | cons b rest ih =>
      obtain ⟨hfresh, hparent, -, hrest⟩ := hwf
      unfold find at h
      split at h
      · cases h
        obtain ⟨p, hp⟩ := Option.isSome_iff_exists.mp (hparent fun h => hheight h.1)
        exact ⟨p, by rw [find, if_neg (ne_of_find hfresh hp), hp]⟩
      · obtain ⟨p, hp⟩ := ih hrest h
        exact ⟨p, by rw [find, if_neg (ne_of_find hfresh hp), hp]⟩

/-- An indexed block has a difficulty between 1 and 256. -/
theorem difficulty_of_find {blocks : List Block} {hash : BlockHash} {block : Block}
    (hwf : WellFormed blocks) (h : find hash blocks = some block) :
    1 ≤ block.difficulty ∧ block.difficulty ≤ 256 := by
  induction blocks with
  | nil => cases h
  | cons b rest ih =>
      obtain ⟨-, -, hdifficulty, hrest⟩ := hwf
      unfold find at h
      split at h
      · cases h
        exact hdifficulty
      · exact ih hrest h

/-- The ancestors of a block are the block and those of its parent. -/
theorem ancestors_step {blocks : List Block} {hash : BlockHash} {block : Block}
    (hwf : WellFormed blocks) (h : find hash blocks = some block) (hheight : block.height ≠ 0) :
    ancestors blocks hash = hash :: ancestors blocks block.previousHash := by
  induction blocks with
  | nil => cases h
  | cons b rest ih =>
      obtain ⟨hfresh, hparent, -, hrest⟩ := hwf
      unfold find at h
      rw [ancestors, ancestors]
      split at h
      · next hb =>
          cases h
          obtain ⟨p, hp⟩ := Option.isSome_iff_exists.mp (hparent fun h => hheight h.1)
          rw [if_pos hb, if_neg hheight, if_neg (ne_of_find hfresh hp)]
      · next hb =>
          obtain ⟨p, hp⟩ := find_parent hrest h hheight
          rw [if_neg hb, if_neg (ne_of_find hfresh hp)]
          exact ih hrest h

/-- The branch from a block to itself is empty. -/
theorem branch_self {blocks : List Block} {hash : BlockHash} {block : Block}
    (h : find hash blocks = some block) : branch hash blocks hash = some [] := by
  induction blocks with
  | nil => cases h
  | cons b rest ih =>
      unfold find at h
      unfold branch
      split at h
      · next hb => rw [if_pos hb, if_pos rfl]
      · next hb =>
          rw [if_neg hb]
          exact ih h

/-- The branch to a block ends with the block. -/
theorem branch_step {blocks : List Block} {ancestor hash : BlockHash} {block : Block}
    (hwf : WellFormed blocks) (h : find hash blocks = some block) (hheight : block.height ≠ 0)
    (hne : ancestor ≠ hash) :
    branch ancestor blocks hash =
      (branch ancestor blocks block.previousHash).map (· ++ [block]) := by
  induction blocks with
  | nil => cases h
  | cons b rest ih =>
      obtain ⟨hfresh, hparent, -, hrest⟩ := hwf
      unfold find at h
      rw [branch, branch]
      split at h
      · next hb =>
          cases h
          obtain ⟨p, hp⟩ := Option.isSome_iff_exists.mp (hparent fun h => hheight h.1)
          rw [if_pos hb, if_neg hne, if_neg hheight, if_neg (ne_of_find hfresh hp)]
      · next hb =>
          obtain ⟨p, hp⟩ := find_parent hrest h hheight
          rw [if_neg hb, if_neg (ne_of_find hfresh hp)]
          exact ih hrest h

/-- The best tip is indexed. -/
theorem find_best {blocks : List Block} {block : Block} (hwf : WellFormed blocks)
    (h : best blocks = some block) : find block.hash blocks = some block := by
  induction blocks generalizing block with
  | nil => cases h
  | cons b rest ih =>
      obtain ⟨hfresh, -, -, hrest⟩ := hwf
      have hdown : best rest = some block → find block.hash (b :: rest) = some block := by
        intro hbest
        have hfound := ih hrest hbest
        rw [find, if_neg (ne_of_find hfresh hfound), hfound]
      unfold best at h
      split at h
      · cases h
        rw [find, if_pos rfl]
      · next other hother =>
          split at h
          · cases h
            rw [find, if_pos rfl]
          · cases h
            exact hdown hother

/-- A block enters the index once, and only under a known parent. -/
theorem insertIndex_ok {index index' : Index} {block : Block} {hash : BlockHash}
    (h : insertIndex index block = .ok (hash, index')) :
    hash = block.hash ∧ index'.blocks = block :: index.blocks ∧
      find block.hash index.blocks = none ∧
      (¬(block.height = 0 ∧ block.previousHash = 0) →
        (find block.previousHash index.blocks).isSome) := by
  unfold insertIndex at h
  split at h
  · next hdup =>
      split at h
      · next hparent =>
          split at h
          · cases h
            exact ⟨rfl, rfl, hdup, fun hne => hparent.resolve_left hne⟩
          · cases h
      · cases h
  · cases h

/-- What is wrong with a block that is not inserted. -/
theorem insertIndex_error {index : Index} {block : Block} {e : ForkChoiceError}
    (h : insertIndex index block = .error e) :
    (e = .missingParent ∧ ¬(block.height = 0 ∧ block.previousHash = 0) ∧
        find block.previousHash index.blocks = none) ∨
      (e = .duplicateBlock ∧ (find block.hash index.blocks).isSome) ∨
      (e = .invalidDifficulty ∧ ¬(1 ≤ block.difficulty ∧ block.difficulty ≤ 256)) := by
  unfold insertIndex at h
  split at h
  · split at h
    · split at h
      · cases h
      · next hadmissible =>
          cases h
          exact .inr (.inr ⟨rfl, hadmissible⟩)
    · next hnone =>
        cases h
        rw [not_or, Option.not_isSome_iff_eq_none] at hnone
        exact .inl ⟨rfl, hnone⟩
  · next hdup =>
      cases h
      exact .inr (.inl ⟨rfl, Option.isSome_iff_ne_none.mpr hdup⟩)

/-- **The index satisfies the fork-choice laws.** -/
theorem forkChoiceLaws : ForkChoiceLaws paqus where
  get_new _ := rfl
  contains_eq _ _ := by simp [paqus]
  get_entry h := by
    obtain ⟨block, hblock, rfl⟩ := Option.map_eq_some_iff.mp h
    exact ⟨hash_of_find hblock, hash_of_find hblock, rfl⟩
  get_admissible {index _ _} h := by
    obtain ⟨block, hblock, rfl⟩ := Option.map_eq_some_iff.mp h
    exact difficulty_of_find index.wellFormed hblock
  bestTip_get {index _} h := by
    obtain ⟨block, hblock, rfl⟩ := Option.map_eq_some_iff.mp h
    exact congrArg (Option.map entry) (find_best index.wellFormed hblock)
  insert_ok {index block hash index'} h := by
    obtain ⟨rfl, hblocks, hfresh, hparent⟩ := insertIndex_ok h
    refine ⟨rfl, ?_, ?_, ?_⟩
    · simp [paqus, hfresh]
    · simpa [paqus, Parentless] using hparent
    · intro k
      simp only [paqus, hblocks, find]
      split <;> rfl
  insert_bestTip {index block hash index'} h := by
    obtain ⟨rfl, hblocks, -, -⟩ := insertIndex_ok h
    simp only [paqus, hblocks, best]
    split
    · exact .inr rfl
    · next other hother =>
        split
        · exact .inr rfl
        · exact .inl (by rw [hother])
  insert_missing {index block} h := by
    rcases insertIndex_error h with ⟨-, hnone, hfind⟩ | ⟨he, -⟩ | ⟨he, -⟩
    · exact ⟨hnone, congrArg (Option.map entry) hfind⟩
    · cases he
    · cases he
  insert_duplicate {index block} h := by
    rcases insertIndex_error h with ⟨he, -⟩ | ⟨-, hsome⟩ | ⟨he, -⟩
    · cases he
    · simpa [paqus] using hsome
    · cases he
  insert_error {block} hadmissible index e h := by
    rcases insertIndex_error h with ⟨rfl, -⟩ | ⟨rfl, -⟩ | ⟨-, hnot⟩
    · exact .inl rfl
    · exact .inr rfl
    · exact absurd hadmissible hnot
  genesis_admissible := by decide
  ancestorHashes_root h hroot := by
    obtain ⟨block, hblock, rfl⟩ := Option.map_eq_some_iff.mp h
    exact ancestors_root hblock hroot.1
  ancestorHashes_step {index _ _} h hheight := by
    obtain ⟨block, hblock, rfl⟩ := Option.map_eq_some_iff.mp h
    exact ancestors_step index.wellFormed hblock hheight
  branch_self h := by
    obtain ⟨block, hblock, rfl⟩ := Option.map_eq_some_iff.mp h
    exact branch_self hblock
  branch_step {index _ _ _} h hheight hne := by
    obtain ⟨block, hblock, rfl⟩ := Option.map_eq_some_iff.mp h
    exact branch_step index.wellFormed hblock hheight hne

/-! ## Work -/

/-- The work of the genesis block is its own. -/
theorem totalWork_root {blocks : List Block} {hash : BlockHash} {block : Block}
    (h : find hash blocks = some block) (hheight : block.height = 0) :
    totalWork blocks hash = work block := by
  induction blocks with
  | nil => cases h
  | cons b rest ih =>
      unfold find at h
      unfold totalWork
      split at h
      · next hb =>
          cases h
          rw [if_pos hb, if_pos hheight, Nat.add_zero]
      · next hb =>
          rw [if_neg hb]
          exact ih h

/-- A block adds its work to that of its parent. -/
theorem totalWork_step {blocks : List Block} {hash : BlockHash} {block : Block}
    (hwf : WellFormed blocks) (h : find hash blocks = some block) (hheight : block.height ≠ 0) :
    totalWork blocks hash = totalWork blocks block.previousHash + work block := by
  induction blocks with
  | nil => cases h
  | cons b rest ih =>
      obtain ⟨hfresh, hparent, -, hrest⟩ := hwf
      unfold find at h
      rw [totalWork, totalWork]
      split at h
      · next hb =>
          cases h
          obtain ⟨p, hp⟩ := Option.isSome_iff_exists.mp (hparent fun h => hheight h.1)
          rw [if_pos hb, if_neg hheight, if_neg (ne_of_find hfresh hp), Nat.add_comm]
      · next hb =>
          obtain ⟨p, hp⟩ := find_parent hrest h hheight
          rw [if_neg hb, if_neg (ne_of_find hfresh hp)]
          exact ih hrest h

/-- Every indexed block has at most the work of the best one. -/
theorem best_max {blocks : List Block} {hash : BlockHash} {block : Block}
    (hwf : WellFormed blocks) (h : find hash blocks = some block) :
    ∃ top, best blocks = some top ∧ totalWork blocks hash ≤ totalWork blocks top.hash := by
  induction blocks generalizing hash block with
  | nil => cases h
  | cons b rest ih =>
      obtain ⟨hfresh, -, -, hrest⟩ := hwf
      -- the work of an older block is what it was
      have hold : ∀ {k c}, find k rest = some c →
          totalWork (b :: rest) k = totalWork rest k := by
        intro k c hc
        rw [totalWork, if_neg (ne_of_find hfresh hc)]
      unfold find at h
      rw [best]
      split at h
      · next hb =>
          subst hb
          cases hbest : best rest with
          | none => exact ⟨b, rfl, Nat.le_refl _⟩
          | some other =>
              dsimp only
              split
              · exact ⟨b, rfl, Nat.le_refl _⟩
              · next hle =>
                  rw [Nat.not_lt] at hle
                  exact ⟨other, rfl, by rwa [hold (find_best hrest hbest)]⟩
      · obtain ⟨other, hbest, hle⟩ := ih hrest h
        rw [hbest, hold h]
        dsimp only
        split
        · next hlt => exact ⟨b, rfl, by omega⟩
        · exact ⟨other, rfl, by rwa [hold (find_best hrest hbest)]⟩

/-- **The index of the witness satisfies the laws of work.** -/
theorem workLaws : WorkLaws paqus work fun index => totalWork index.blocks where
  totalWork_root h hroot := by
    obtain ⟨block, hblock, rfl⟩ := Option.map_eq_some_iff.mp h
    exact totalWork_root hblock hroot.1
  totalWork_step {index _ _} h hheight := by
    obtain ⟨block, hblock, rfl⟩ := Option.map_eq_some_iff.mp h
    exact totalWork_step index.wellFormed hblock hheight
  bestTip_max {index _ _} h := by
    obtain ⟨block, hblock, rfl⟩ := Option.map_eq_some_iff.mp h
    obtain ⟨top, htop, hle⟩ := best_max index.wellFormed hblock
    exact ⟨entry top, congrArg (Option.map entry) htop, hle⟩

/-! ## Laws of the ledger -/

/-- A block is inserted right above the tip. -/
theorem insertBlock_ok {chain chain' : Chain Block} {block : Block}
    (h : insertBlock chain block = .ok chain') :
    block.height.toNat = chain.blocks.size ∧ chain.blocks.contains block.height = false ∧
      (chain.blocks.size = 0 → block.previousHash = 0) ∧
      (chain.blocks.size ≠ 0 → (tip chain).map Block.hash = some block.previousHash) ∧
      block.transactions.length ≤ 2 ^ 32 ∧ chain' = ⟨chain.blocks.insert block.height block⟩ := by
  unfold insertBlock at h
  split at h
  · cases h
  next hheight =>
  split at h
  · cases h
  next hfirst =>
  split at h
  · cases h
  next hnext =>
  split at h
  · cases h
  next hsize =>
  cases h
  rw [not_or, Decidable.not_not, Bool.not_eq_true] at hheight
  refine ⟨hheight.1, hheight.2, ?_, ?_, Nat.le_of_not_lt hsize, rfl⟩
  · intro h0
    exact Decidable.not_not.mp fun hne => hfirst ⟨h0, hne⟩
  · intro h0
    exact Decidable.not_not.mp fun hne => hnext ⟨h0, hne⟩

/-- The inserted block is the new tip. -/
theorem tip_insert {chain chain' : Chain Block} {block : Block}
    (h : insertBlock chain block = .ok chain') :
    tip chain' = some block ∧ UInt64.ofNat (chain'.blocks.size - 1) = block.height := by
  obtain ⟨hheight, hfresh, -, -, -, rfl⟩ := insertBlock_ok h
  have hsize : (chain.blocks.insert block.height block).size = chain.blocks.size + 1 := by
    rw [Std.ExtTreeMap.size_insert, hfresh, if_neg Bool.false_ne_true]
  have hkey : UInt64.ofNat (chain.blocks.size + 1 - 1) = block.height := by
    rw [Nat.add_sub_cancel, ← hheight, UInt64.ofNat_toNat]
  refine ⟨?_, ?_⟩
  · simp only [tip, hsize, Nat.add_one_ne_zero, if_false, hkey]
    rw [BTreeMap.getElem?_insert_eq, if_pos rfl]
  · simp only [hsize, hkey]

/-- An applied block is inserted, its miner credited and its transactions applied. -/
theorem applyBlock_ok {ledger ledger' : Ledger Account Block} {block : Block}
    (h : applyBlock ledger block = .ok ledger') :
    insertBlock ledger.chain block = .ok ledger'.chain ∧
      block.transactions.foldlM applyTx (credit ledger.accounts block.miner reward) =
        .ok ledger'.accounts := by
  unfold applyBlock at h
  split at h
  · cases h
  next chain hchain =>
  split at h
  · cases h
  next accounts haccounts =>
  cases h
  exact ⟨hchain, haccounts⟩

/-- It follows the tip in hash and height. -/
theorem insertBlock_next {chain chain' : Chain Block} {block t : Block}
    (h : insertBlock chain block = .ok chain') (ht : tip chain = some t) :
    block.previousHash = t.hash ∧
      block.height.toNat = (UInt64.ofNat (chain.blocks.size - 1)).toNat + 1 := by
  obtain ⟨hsize, -, -, hprev, -, -⟩ := insertBlock_ok h
  have hne : chain.blocks.size ≠ 0 := by
    intro h0
    rw [tip, if_pos h0] at ht
    cases ht
  have hprev := hprev hne
  rw [ht, Option.map_some] at hprev
  have hlt : chain.blocks.size - 1 < 2 ^ 64 := by
    have := block.height.toNat_lt
    omega
  refine ⟨(Option.some.inj hprev).symm, ?_⟩
  rw [UInt64.toNat_ofNat_of_lt' hlt]
  omega

/-- **The ledger satisfies the chain laws.** -/
theorem chainLaws : ChainLaws paqus where
  apply_chain h := (applyBlock_ok h).1
  insert_blocks h := by
    obtain ⟨-, -, -, -, -, rfl⟩ := insertBlock_ok h
    rfl
  insert_tip accounts h := by
    obtain ⟨htip, hheight⟩ := tip_insert h
    exact ⟨congrArg (Option.map Block.hash) htip,
      (congrArg (Option.map _) htip).trans (congrArg some hheight)⟩
  insert_first h := by
    obtain ⟨hheight, -, hprev, -, -, -⟩ := insertBlock_ok h
    exact ⟨UInt64.toNat_inj.mp hheight, hprev Std.ExtTreeMap.size_empty⟩
  insert_next h hhash hheight := by
    obtain ⟨t, ht, rfl⟩ := Option.map_eq_some_iff.mp hhash
    obtain ⟨t', -, rfl⟩ := Option.map_eq_some_iff.mp hheight
    exact insertBlock_next h ht

/-- **State roots are those of the ledger reached.** -/
theorem stateRootLaws : StateRootLaws paqus where
  root_after {ledger block root ledger'} hroot happly := by
    have hroot : (applyBlock ledger block).map stateRoot = .ok root := hroot
    have happly : applyBlock ledger block = .ok ledger' := happly
    rw [happly] at hroot
    exact Except.ok.inj hroot
  genesis_height h := by simpa [paqus] using h

/-! ## Laws of the accounts -/

/-- Every account is stored under its own address. -/
def Keyed (accounts : Accounts) : Prop :=
  ∀ (address : Address) (account : Account), accounts[address]? = some account →
    account.address = address

/-- Accounts stay filed under their addresses. -/
theorem insert_keyed {accounts : Accounts} {address : Address} {account : Account}
    (h : Keyed accounts) (haccount : account.address = address) :
    Keyed (accounts.insert address account) := by
  intro k other hk
  rw [BTreeMap.getElem?_insert_eq] at hk
  split at hk
  · next heq =>
      subst heq
      cases hk
      exact haccount
  · exact h k other hk

theorem credit_keyed {accounts : Accounts} (address : Address) (amount : UInt32)
    (h : Keyed accounts) : Keyed (credit accounts address amount) := by
  unfold credit
  split
  · next old hold => exact insert_keyed h (h address old hold)
  · exact insert_keyed h rfl

/-- An applied transaction has the nonce of its sender, and counts it up. -/
theorem applyTx_ok {accounts accounts' : Accounts} {tx : Tx}
    (h : applyTx accounts tx = .ok accounts') :
    ∃ account, accounts[tx.sender]? = some account ∧ tx.nonce = account.nonce ∧
      account.nonce.toNat + 1 ≠ 2 ^ 64 ∧
      accounts' = credit (accounts.insert tx.sender { account with
        nonce := account.nonce + 1
        balance := account.balance - (tx.amount + tx.fee) }) tx.receiver tx.amount := by
  unfold applyTx at h
  split at h
  · cases h
  next account haccount =>
  split at h
  · cases h
  next hnonce =>
  split at h
  · cases h
  cases h
  rw [not_or, Decidable.not_not] at hnonce
  exact ⟨account, haccount, hnonce.1, hnonce.2, rfl⟩

theorem applyTx_keyed {accounts accounts' : Accounts} {tx : Tx}
    (h : applyTx accounts tx = .ok accounts') (hkeyed : Keyed accounts) : Keyed accounts' := by
  obtain ⟨account, haccount, -, -, rfl⟩ := applyTx_ok h
  have haddress : account.address = tx.sender := hkeyed _ _ haccount
  exact credit_keyed _ _ (insert_keyed hkeyed haddress)

/-- **Stored values come back, and accounts stay under their address.** -/
theorem recordLaws : RecordLaws paqus where
  decode_encode kind value := by simp [paqus, decode]
  apply_keyed {ledger block ledger'} h hkeyed :=
    foldlM_invariant Keyed (fun _ _ _ _ hs htx => applyTx_keyed htx hs)
      (credit_keyed block.miner reward hkeyed) (applyBlock_ok h).2
  insert_size h := (insertBlock_ok h).2.2.2.2.1

theorem getElem?_credit_of_ne {accounts : Accounts} {address a : Address} (amount : UInt32)
    (hne : address ≠ a) : (credit accounts address amount)[a]? = accounts[a]? := by
  unfold credit
  split
  · rw [BTreeMap.getElem?_insert_eq, if_neg hne]
  · rw [BTreeMap.getElem?_insert_eq, if_neg hne]

theorem isSome_insert {accounts : Accounts} (address : Address) (account : Account) {a : Address}
    (h : (accounts[a]?).isSome) : ((accounts.insert address account)[a]?).isSome := by
  rw [BTreeMap.getElem?_insert_eq]
  split
  · rfl
  · exact h

theorem isSome_credit {accounts : Accounts} (address : Address) (amount : UInt32) {a : Address}
    (h : (accounts[a]?).isSome) : ((credit accounts address amount)[a]?).isSome := by
  unfold credit
  split
  · exact isSome_insert _ _ h
  · exact isSome_insert _ _ h

/-- **A block touches its senders, its receivers and its miner.** -/
theorem accountLaws : AccountLaws paqus where
  apply_other {ledger block ledger'} h _ address htxs hminer := by
    have hcredit : (credit ledger.accounts block.miner reward)[address]? =
        ledger.accounts[address]? := getElem?_credit_of_ne reward hminer
    refine foldlM_invariant (fun accounts => accounts[address]? = ledger.accounts[address]?) ?_
      hcredit (applyBlock_ok h).2
    intro accounts tx accounts' hmem hsame htx
    obtain ⟨account, -, -, -, rfl⟩ := applyTx_ok htx
    obtain ⟨hsender, hreceiver⟩ := htxs tx hmem
    rw [getElem?_credit_of_ne _ hreceiver, BTreeMap.getElem?_insert_eq, if_neg hsender, hsame]
  apply_keeps {ledger block ledger'} h _ address hsome := by
    refine foldlM_invariant (fun accounts => (accounts[address]?).isSome) ?_
      (isSome_credit block.miner reward hsome) (applyBlock_ok h).2
    intro accounts tx accounts' _ hthere htx
    obtain ⟨account, -, -, -, rfl⟩ := applyTx_ok htx
    exact isSome_credit _ _ (isSome_insert _ _ hthere)

/-! ## Nonces -/

/-- Transactions of the witness do not collide. -/
theorem hash_inj {t t' : Tx} (h : t.hash = t'.hash) : t = t' := by
  obtain ⟨hsender, h⟩ := bits_append_inj (v := 160) (w := 352) h
  obtain ⟨hnonce, h⟩ := bits_append_inj h
  obtain ⟨h, htimestamp⟩ := bits_append_inj h
  obtain ⟨h, hfee⟩ := bits_append_inj h
  obtain ⟨hreceiver, hamount⟩ := bits_append_inj h
  cases t
  cases t'
  simp_all [UInt64.toBitVec_inj, UInt32.toBitVec_inj]

theorem nonceOf_insert (accounts : Accounts) (address a : Address) (account : Account) :
    nonceOf (P := paqus) (accounts.insert address account) a =
      if address = a then account.nonce else nonceOf (P := paqus) accounts a := by
  simp only [nonceOf, BTreeMap.getElem?_insert_eq]
  split <;> rfl

/-- A credit leaves the nonces alone. -/
theorem nonceOf_credit (accounts : Accounts) (address a : Address) (amount : UInt32) :
    nonceOf (P := paqus) (credit accounts address amount) a = nonceOf (P := paqus) accounts a := by
  unfold credit
  split
  · next account haccount =>
      rw [nonceOf_insert]
      split
      · next h =>
          subst h
          simp [nonceOf, haccount]
      · rfl
  · next haccount =>
      rw [nonceOf_insert]
      split
      · next h =>
          subst h
          simp [nonceOf, haccount]
      · rfl

/-- A transaction counts one up for its sender and leaves the other nonces alone. -/
theorem nonceOf_applyTx {accounts accounts' : Accounts} {tx : Tx}
    (h : applyTx accounts tx = .ok accounts') (a : Address) :
    (nonceOf (P := paqus) accounts' a).toNat = (nonceOf (P := paqus) accounts a).toNat +
        (if tx.sender = a then 1 else 0) ∧
      (tx.sender = a → tx.nonce = nonceOf (P := paqus) accounts a) := by
  obtain ⟨account, haccount, hnonce, hmax, rfl⟩ := applyTx_ok h
  rw [nonceOf_credit, nonceOf_insert]
  split
  · next ha =>
      subst ha
      have hcurrent : nonceOf (P := paqus) accounts tx.sender = account.nonce := by
        simp [nonceOf, haccount]
      rw [hcurrent]
      refine ⟨?_, fun _ => hnonce⟩
      have hlt := account.nonce.toNat_lt
      simp only [UInt64.toNat_add, UInt64.reduceToNat]
      omega
  · next ha => exact ⟨rfl, fun h => absurd h ha⟩

/-- Nonces grow by one per transaction, so a block's transactions of one
sender have exactly the nonces it goes through. -/
theorem nonceOf_foldlM {txs : List Tx} {accounts accounts' : Accounts}
    (h : txs.foldlM applyTx accounts = .ok accounts') (a : Address) :
    nonceOf (P := paqus) accounts a ≤ nonceOf (P := paqus) accounts' a ∧
      ∀ n, (∃ tx ∈ txs, tx.sender = a ∧ tx.nonce = n) ↔
        nonceOf (P := paqus) accounts a ≤ n ∧ n < nonceOf (P := paqus) accounts' a := by
  induction txs generalizing accounts with
  | nil =>
      cases h
      refine ⟨UInt64.le_refl _, fun n => ⟨by simp, ?_⟩⟩
      rintro ⟨hle, hlt⟩
      exact absurd hlt (UInt64.not_lt.mpr hle)
  | cons tx rest ih =>
      obtain ⟨middle, hfirst, hrest⟩ := foldlM_cons_eq_ok.mp h
      obtain ⟨hle, hiff⟩ := ih hrest
      obtain ⟨hstep, hnonce⟩ := nonceOf_applyTx hfirst a
      simp only [List.mem_cons, exists_eq_or_imp, hiff, UInt64.le_iff_toNat_le,
        UInt64.lt_iff_toNat_lt] at hle ⊢
      split at hstep
      · next ha =>
          refine ⟨by omega, fun n => ?_⟩
          simp only [hnonce ha, ← UInt64.toNat_inj, ha, true_and]
          omega
      · next ha =>
          refine ⟨by omega, fun n => ?_⟩
          rw [hstep]
          simp [ha]

/-- **Transactions are ordered by their nonces.** -/
theorem nonceLaws : NonceLaws paqus where
  apply_nonce_le {ledger block ledger'} h address := by
    have := (nonceOf_foldlM (applyBlock_ok h).2 address).1
    rwa [nonceOf_credit] at this
  apply_nonce {ledger block ledger'} h address nonce := by
    have := (nonceOf_foldlM (applyBlock_ok h).2 address).2 nonce
    rwa [nonceOf_credit] at this

/-! ## Laws of block production -/

theorem headerLaws : HeaderLaws paqus where
  withCoinbase _ _ _ _ _ _ _ _ := ⟨0, rfl⟩
  setStateRoot _ _ := rfl
  setDifficulty _ _ := rfl
  setNonce _ _ := rfl
  setNonce_setNonce _ _ _ := rfl

/-- A block is valid after its parent if it follows it. -/
theorem validateNext_ok {consensus : Consensus} {block parent : Block} {now : UInt64} :
    paqus.consensus.validateNextBlockWithTipAt consensus block parent now = .ok () ↔
      Follows (P := paqus) futureTolerance now parent block := by
  dsimp only
  split
  · next h => simpa using ⟨h.2.2.1, h.2.2.2, h.2.1, h.1⟩
  · next h =>
      simp only [reduceCtorEq, false_iff]
      rintro ⟨hafter, hbefore, hheight, hprevious⟩
      exact h ⟨hprevious, hheight, hafter, hbefore⟩

theorem nextBlockLaws : NextBlockLaws paqus futureTolerance (fun _ => True) where
  tolerance_pos := by decide
  next_follows h := validateNext_ok.mp h
  next_ok {consensus block parent now} _ := by
    have hwork : ProofOfWork (P := paqus) consensus block := ⟨block.hash, rfl, rfl⟩
    rw [validateNext_ok]
    simp [hwork]

theorem ofNat_ne_zero {v w n : Nat} (hvw : v < w) (hpos : n ≠ 0) (hle : n ≤ 2 ^ v) :
    BitVec.ofNat w n ≠ 0 := by
  have hlt : n < 2 ^ w := Nat.lt_of_le_of_lt hle (Nat.pow_lt_pow_right Nat.one_lt_two hvw)
  intro h
  have hmod := congrArg BitVec.toNat h
  simp only [BitVec.toNat_ofNat, BitVec.ofNat_eq_ofNat, Nat.zero_mod, Nat.mod_eq_of_lt hlt] at hmod
  exact hpos hmod

/-- A block that enters a chain leaves a non-empty one, of at most 2 ^ 64
blocks. -/
theorem stateRoot_ne_zero {ledger ledger' : Ledger Account Block} {block : Block}
    (h : applyBlock ledger block = .ok ledger') : stateRoot ledger' ≠ 0 := by
  obtain ⟨hheight, hfresh, -, -, -, hchain⟩ := insertBlock_ok (applyBlock_ok h).1
  have hsize : ledger'.chain.blocks.size = block.height.toNat + 1 := by
    rw [hchain, Std.ExtTreeMap.size_insert, hfresh, if_neg Bool.false_ne_true, hheight]
  unfold stateRoot
  rw [hsize]
  exact ofNat_ne_zero (by decide) (Nat.succ_ne_zero _) block.height.toNat_lt

/-- The state root depends on height, parent, miner and transactions. -/
theorem map_stateRoot_applyBlock (ledger : Ledger Account Block) {b b' : Block}
    (hheight : b'.height = b.height) (hprevious : b'.previousHash = b.previousHash)
    (hminer : b'.miner = b.miner) (htransactions : b'.transactions = b.transactions) :
    (applyBlock ledger b').map stateRoot = (applyBlock ledger b).map stateRoot := by
  have hinsert : insertBlock ledger.chain b' =
      (insertBlock ledger.chain b).map fun _ => ⟨ledger.chain.blocks.insert b.height b'⟩ := by
    unfold insertBlock
    rw [hheight, hprevious, htransactions]
    split_ifs <;> rfl
  unfold applyBlock
  rw [hinsert, hminer, htransactions]
  cases hchain : insertBlock ledger.chain b with
  | error e => rfl
  | ok chain =>
      obtain ⟨-, -, -, -, -, rfl⟩ := insertBlock_ok hchain
      simp only [Except.map]
      cases b.transactions.foldlM applyTx (credit ledger.accounts b.miner reward) with
      | error e => rfl
      | ok accounts => simp [stateRoot, Std.ExtTreeMap.size_insert]

/-- Whether a block applies depends on these four fields. -/
theorem applyBlock_isOk {ledger ledger' : Ledger Account Block} {b b' : Block}
    (h : applyBlock ledger b = .ok ledger') (hheight : b'.height = b.height)
    (hprevious : b'.previousHash = b.previousHash) (hminer : b'.miner = b.miner)
    (htransactions : b'.transactions = b.transactions) :
    ∃ ledger'', applyBlock ledger b' = .ok ledger'' := by
  have hmap := map_stateRoot_applyBlock ledger hheight hprevious hminer htransactions
  rw [h] at hmap
  obtain ⟨ledger'', happly, -⟩ := Except.map_eq_ok hmap
  exact ⟨ledger'', happly⟩

/-- **The blocks that the witness mines satisfy the laws.** -/
theorem candidateLaws : CandidateLaws paqus (fun _ => True) where
  root_minedBlock ledger _ _ _ _ := map_stateRoot_applyBlock ledger rfl rfl rfl rfl
  root_ne_zero {ledger block root} h := by
    obtain ⟨ledger', happly, rfl⟩ := Except.map_eq_ok h
    exact stateRoot_ne_zero happly
  apply_ok difficulty nonce _ _ _ _ h := by
    obtain ⟨ledger', happly, -⟩ := Except.map_eq_ok h
    exact applyBlock_isOk happly rfl rfl rfl rfl
  coinbase_ok _ _ := trivial

end Reference

end PaqusNode
