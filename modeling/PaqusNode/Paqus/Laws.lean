import PaqusNode.Paqus

/-!
# PaqusNode.Paqus.Laws

What the node relies on from the `paqus` crate, one structure per
component.  Every law is a statement about single calls of the crate; none
of them mentions the node.
-/

namespace PaqusNode

/-- The difficulties a block of the index can have. -/
def Admissible {P : Paqus} (block : P.Block) : Prop :=
  1 ≤ P.block.difficulty block ∧ P.block.difficulty block ≤ 256

instance {P : Paqus} (block : P.Block) : Decidable (Admissible block) :=
  inferInstanceAs (Decidable (_ ∧ _))

/-- The block is refused by an index only for want of its parent or as a
duplicate. -/
def Insertable {P : Paqus} (block : P.Block) : Prop :=
  ∀ {forkChoice e}, P.forkChoice.insertBlock forkChoice block = .error e →
    e = .missingParent ∨ e = .duplicateBlock

/-- A block that names no parent. -/
def Parentless {P : Paqus} (block : P.Block) : Prop :=
  P.block.height block = 0 ∧ P.block.previousHash block = 0

/-- The fork-choice index: a set of blocks by hash, closed under insertion
of blocks whose parent is present, with a designated best tip. -/
structure ForkChoiceLaws (P : Paqus) : Prop where
  get_new : ∀ hash, P.forkChoice.get P.forkChoice.new hash = none
  contains_eq : ∀ forkChoice hash,
    P.forkChoice.contains forkChoice hash = (P.forkChoice.get forkChoice hash).isSome
  get_entry : ∀ {forkChoice hash entry}, P.forkChoice.get forkChoice hash = some entry →
    entry.hash = hash ∧ P.block.hash entry.block = hash ∧ entry.height = P.block.height entry.block
  get_admissible : ∀ {forkChoice hash entry}, P.forkChoice.get forkChoice hash = some entry →
    Admissible entry.block
  bestTip_get : ∀ {forkChoice entry}, P.forkChoice.bestTip forkChoice = some entry →
    P.forkChoice.get forkChoice entry.hash = some entry
  /-- A successful insertion is of a new block with a known parent, if it names
  one, and adds just that block. -/
  insert_ok : ∀ {forkChoice block hash forkChoice'},
    P.forkChoice.insertBlock forkChoice block = .ok (hash, forkChoice') →
    hash = P.block.hash block ∧ P.forkChoice.get forkChoice hash = none ∧
      (¬Parentless block →
        (P.forkChoice.get forkChoice (P.block.previousHash block)).isSome) ∧
      ∀ k, P.forkChoice.get forkChoice' k =
        if hash = k then some ⟨hash, P.block.height block, block⟩
        else P.forkChoice.get forkChoice k
  /-- The best tip stays or moves to the inserted block. -/
  insert_bestTip : ∀ {forkChoice block hash forkChoice'},
    P.forkChoice.insertBlock forkChoice block = .ok (hash, forkChoice') →
    P.forkChoice.bestTip forkChoice' = P.forkChoice.bestTip forkChoice ∨
      P.forkChoice.bestTip forkChoice' = some ⟨hash, P.block.height block, block⟩
  insert_missing : ∀ {forkChoice block},
    P.forkChoice.insertBlock forkChoice block = .error .missingParent →
    ¬Parentless block ∧ P.forkChoice.get forkChoice (P.block.previousHash block) = none
  insert_duplicate : ∀ {forkChoice block},
    P.forkChoice.insertBlock forkChoice block = .error .duplicateBlock →
    (P.forkChoice.get forkChoice (P.block.hash block)).isSome
  /-- At an admissible difficulty nothing else is wrong with a block. -/
  insert_error : ∀ {block}, Admissible block → Insertable (P := P) block
  /-- The node's first ledger, which has the genesis block only, can be
  indexed. -/
  genesis_admissible : Admissible P.genesisBlock
  /-- `ancestor_hashes` walks parent links, the tip first and the root last. -/
  ancestorHashes_root : ∀ {forkChoice tip entry}, P.forkChoice.get forkChoice tip = some entry →
    Parentless entry.block → P.forkChoice.ancestorHashes forkChoice tip = [tip]
  ancestorHashes_step : ∀ {forkChoice tip entry}, P.forkChoice.get forkChoice tip = some entry →
    entry.height ≠ 0 → P.forkChoice.ancestorHashes forkChoice tip =
      tip :: P.forkChoice.ancestorHashes forkChoice (P.block.previousHash entry.block)
  /-- `branch_from_ancestor` walks them too and returns the blocks after the
  ancestor, oldest first. -/
  branch_self : ∀ {forkChoice tip entry}, P.forkChoice.get forkChoice tip = some entry →
    P.forkChoice.branchFromAncestor forkChoice tip tip = some []
  branch_step : ∀ {forkChoice ancestor tip entry}, P.forkChoice.get forkChoice tip = some entry →
    entry.height ≠ 0 → ancestor ≠ tip →
    P.forkChoice.branchFromAncestor forkChoice ancestor tip =
      (P.forkChoice.branchFromAncestor forkChoice ancestor
        (P.block.previousHash entry.block)).map (· ++ [entry.block])

theorem ForkChoiceLaws.contains_eq_false {P : Paqus} (hfc : ForkChoiceLaws P)
    {forkChoice : P.ForkChoice} {hash : BlockHash} :
    P.forkChoice.contains forkChoice hash = false ↔ P.forkChoice.get forkChoice hash = none := by
  rw [hfc.contains_eq, Option.isSome_eq_false_iff, Option.isNone_iff_eq_none]

theorem not_parentless {P : Paqus} {block : P.Block} (h : P.block.height block ≠ 0) :
    ¬Parentless block := fun hnone => h hnone.1

/-- A new block can only miss its parent. -/
theorem ForkChoiceLaws.insert_error_of_fresh {P : Paqus} (hfc : ForkChoiceLaws P)
    {forkChoice : P.ForkChoice} {block : P.Block} {e : ForkChoiceError}
    (hinsertable : Insertable block)
    (hfresh : P.forkChoice.get forkChoice (P.block.hash block) = none)
    (h : P.forkChoice.insertBlock forkChoice block = .error e) :
    e = .missingParent ∧ ¬Parentless block ∧
      P.forkChoice.get forkChoice (P.block.previousHash block) = none := by
  rcases hinsertable h with rfl | rfl
  · exact ⟨rfl, hfc.insert_missing h⟩
  · have hknown := hfc.insert_duplicate h
    rw [hfresh] at hknown
    cases hknown

/-- Only blocks of admissible difficulty are inserted. -/
theorem ForkChoiceLaws.insert_admissible {P : Paqus} (hfc : ForkChoiceLaws P)
    {forkChoice forkChoice' : P.ForkChoice} {block : P.Block} {hash : BlockHash}
    (h : P.forkChoice.insertBlock forkChoice block = .ok (hash, forkChoice')) :
    Admissible block := by
  have hget := (hfc.insert_ok h).2.2.2 hash
  rw [if_pos rfl] at hget
  exact hfc.get_admissible hget

/-- Fork choice by work: `totalWork` adds up `work` along a branch, root
included, and the best tip has the most. -/
structure WorkLaws (P : Paqus) (work : P.Block → Nat)
    (totalWork : P.ForkChoice → BlockHash → Nat) : Prop where
  totalWork_root : ∀ {forkChoice tip entry}, P.forkChoice.get forkChoice tip = some entry →
    Parentless entry.block → totalWork forkChoice tip = work entry.block
  totalWork_step : ∀ {forkChoice tip entry}, P.forkChoice.get forkChoice tip = some entry →
    entry.height ≠ 0 → totalWork forkChoice tip =
      totalWork forkChoice (P.block.previousHash entry.block) + work entry.block
  bestTip_max : ∀ {forkChoice hash entry}, P.forkChoice.get forkChoice hash = some entry →
    ∃ best, P.forkChoice.bestTip forkChoice = some best ∧
      totalWork forkChoice hash ≤ totalWork forkChoice best.hash

/-- The active chain: it starts with a block of height 0 and grows by one
linked block at a time, through `Chain::insert_block` only. -/
structure ChainLaws (P : Paqus) : Prop where
  /-- `apply_block` puts the block on the chain with `Chain::insert_block`. -/
  apply_chain : ∀ {ledger block ledger'}, P.ledger.applyBlock ledger block = .ok ledger' →
    P.ledger.insertBlock ledger.chain block = .ok ledger'.chain
  insert_blocks : ∀ {chain block chain'}, P.ledger.insertBlock chain block = .ok chain' →
    chain'.blocks = chain.blocks.insert (P.block.height block) block
  insert_tip : ∀ {chain block chain'} (accounts), P.ledger.insertBlock chain block = .ok chain' →
    P.ledger.tipHash ⟨accounts, chain'⟩ = some (P.block.hash block) ∧
      P.ledger.tipHeight ⟨accounts, chain'⟩ = some (P.block.height block)
  insert_first : ∀ {block chain'}, P.ledger.insertBlock (Chain.new P.Block) block = .ok chain' →
    P.block.height block = 0 ∧ P.block.previousHash block = 0
  insert_next : ∀ {accounts chain block chain' tipHash tipHeight},
    P.ledger.insertBlock chain block = .ok chain' →
    P.ledger.tipHash ⟨accounts, chain⟩ = some tipHash →
    P.ledger.tipHeight ⟨accounts, chain⟩ = some tipHeight →
    P.block.previousHash block = tipHash ∧
      (P.block.height block).toNat = tipHeight.toNat + 1

/-- The block passes the header rules above some parent at some time. -/
def HeaderValid {P : Paqus} (block : P.Block) : Prop :=
  ∃ consensus tip now, P.consensus.validateNextBlockWithTipAt consensus block tip now = .ok ()

/-- Hashes: a valid block is known by its hash, no block has the hash of
zeros, and an unknown hash has no ancestors. -/
structure HashLaws (P : Paqus) : Prop where
  hash_inj : ∀ {block block' : P.Block}, HeaderValid block → HeaderValid block' →
    P.block.hash block = P.block.hash block' → block = block'
  hash_ne_zero : ∀ {block : P.Block}, HeaderValid block → P.block.hash block ≠ 0
  genesis_ne_zero : P.block.hash P.genesisBlock ≠ 0
  ancestorHashes_unknown : ∀ {forkChoice hash}, P.forkChoice.get forkChoice hash = none →
    P.forkChoice.ancestorHashes forkChoice hash = []

/-- State roots: `state_root_after_block` is the root `apply_block` leads
to, and only a block of height 0 is a genesis block. -/
structure StateRootLaws (P : Paqus) : Prop where
  root_after : ∀ {ledger block root ledger'},
    P.ledger.stateRootAfterBlock ledger block = .ok root →
    P.ledger.applyBlock ledger block = .ok ledger' → P.ledger.stateRoot ledger' = root
  genesis_height : ∀ {block}, P.block.isGenesis block = true → P.block.height block = 0

/-- Snapshots: the root of a ledger is the root of its accounts. -/
structure SnapshotLaws (P : Paqus) : Prop where
  stateRoot_eq : ∀ ledger, P.ledger.stateRoot ledger = P.ledger.calculateStateRoot ledger.accounts

/-- Every account is stored under its own address. -/
def AccountsKeyed (P : Paqus) (accounts : BTreeMap Address P.Account) : Prop :=
  ∀ (address : Address) account, accounts[address]? = some account →
    P.account.address account = address

/-- What the database relies on: values decode to what was encoded, the
ledger files accounts under their own address, and the position of a
transaction in its block fits 32 bits. -/
structure RecordLaws (P : Paqus) : Prop where
  decode_encode : ∀ kind value, P.borsh.decode kind (P.borsh.encode kind value) = some value
  apply_keyed : ∀ {ledger block ledger'}, P.ledger.applyBlock ledger block = .ok ledger' →
    AccountsKeyed P ledger.accounts → AccountsKeyed P ledger'.accounts
  insert_size : ∀ {chain block chain'}, P.ledger.insertBlock chain block = .ok chain' →
    (P.block.transactions block).length ≤ 2 ^ 32

/-- Balances: a block after genesis changes the accounts of its senders, its
receivers and its miner only, and closes none. -/
structure AccountLaws (P : Paqus) : Prop where
  apply_other : ∀ {ledger block ledger'}, P.ledger.applyBlock ledger block = .ok ledger' →
    P.block.height block ≠ 0 → ∀ address : Address,
      (∀ transaction ∈ P.block.transactions block, P.transaction.sender transaction ≠ address ∧
        P.transaction.receiver transaction ≠ address) →
      P.block.minerAddress block ≠ address →
      ledger'.accounts[address]? = ledger.accounts[address]?
  apply_keeps : ∀ {ledger block ledger'}, P.ledger.applyBlock ledger block = .ok ledger' →
    P.block.height block ≠ 0 → ∀ address : Address,
      (ledger.accounts[address]?).isSome → (ledger'.accounts[address]?).isSome

/-- The nonce the next transaction of `address` must have. -/
def nonceOf {P : Paqus} (accounts : BTreeMap Address P.Account) (address : Address) : UInt64 :=
  (accounts[address]?).elim 0 P.account.nonce

/-- Transactions: a block's transactions of one sender carry exactly the
nonces the sender's account goes through. -/
structure NonceLaws (P : Paqus) : Prop where
  apply_nonce_le : ∀ {ledger block ledger'}, P.ledger.applyBlock ledger block = .ok ledger' →
    ∀ address, nonceOf ledger.accounts address ≤ nonceOf ledger'.accounts address
  apply_nonce : ∀ {ledger block ledger'}, P.ledger.applyBlock ledger block = .ok ledger' →
    ∀ address nonce,
      (∃ transaction ∈ P.block.transactions block, P.transaction.sender transaction = address ∧
        P.transaction.nonce transaction = nonce) ↔
      nonceOf ledger.accounts address ≤ nonce ∧ nonce < nonceOf ledger'.accounts address

/-! ## Executing transactions -/

/-- What `address` can spend at the ledger's height; nothing without an
account. -/
def availableOf {P : Paqus} (ledger : P.Ledger) (address : Address) : Nat :=
  (ledger.account address).elim 0 fun account =>
    (P.account.availableBalanceAt account ((P.ledger.tipHeight ledger).getD 0)).toNat

/-- Execution: `apply` is the execution of one transaction, between what
`start` and `finish` do for the block as a whole. -/
structure ExecutionLaws (P : Paqus)
    (apply : P.Ledger → P.SignedTransaction → Except LedgerError P.Ledger)
    (start : P.Ledger → P.Block → Except LedgerError P.Ledger)
    (finish : P.Ledger → P.Block → Except LedgerError Hash) : Prop where
  /-- A transaction with its sender's nonce applies if the sender can pay. -/
  apply_ok : ∀ {ledger transaction},
    P.transaction.nonce transaction =
      nonceOf ledger.accounts (P.transaction.sender transaction) →
    (P.transaction.amount transaction).toNat + (P.transaction.fee transaction).toNat ≤
      availableOf ledger (P.transaction.sender transaction) →
    ∃ ledger', apply ledger transaction = .ok ledger'
  /-- It moves the nonce of its sender, and no other. -/
  apply_nonce : ∀ {ledger transaction ledger'}, apply ledger transaction = .ok ledger' →
    ∀ address, nonceOf ledger'.accounts address =
      if address = P.transaction.sender transaction then nonceOf ledger.accounts address + 1
      else nonceOf ledger.accounts address
  /-- It takes amount and fee from its sender, and nothing from others. -/
  apply_available : ∀ {ledger transaction ledger'}, apply ledger transaction = .ok ledger' →
    ∀ address, availableOf ledger address ≤ availableOf ledger' address +
      if address = P.transaction.sender transaction then
        (P.transaction.amount transaction).toNat + (P.transaction.fee transaction).toNat
      else 0
  start_nonce : ∀ {ledger block ledger'}, start ledger block = .ok ledger' →
    ∀ address, nonceOf ledger'.accounts address = nonceOf ledger.accounts address
  start_available : ∀ {ledger block ledger'}, start ledger block = .ok ledger' →
    ∀ address, availableOf ledger address ≤ availableOf ledger' address
  root_after : ∀ ledger block, P.ledger.stateRootAfterBlock ledger block = (do
    let ledger ← start ledger block
    let ledger ← (P.block.transactions block).foldlM apply ledger
    finish ledger block)
  transactions_withCoinbase : ∀ height previousHash miner difficulty timestamp nonce coinbase
    transactions, P.block.transactions (P.block.withCoinbase height previousHash miner difficulty
      timestamp nonce coinbase transactions) = transactions

/-- How a block is applied: its transactions are executed like those of a
candidate, and what comes after them (the coinbase, rewards that mature) takes
nothing from anybody. -/
structure ApplyLaws (P : Paqus)
    (apply : P.Ledger → P.SignedTransaction → Except LedgerError P.Ledger)
    (start : P.Ledger → P.Block → Except LedgerError P.Ledger) : Prop where
  apply_block : ∀ {ledger block ledger'}, P.ledger.applyBlock ledger block = .ok ledger' →
    ∃ started executed, start ledger block = .ok started ∧
      (P.block.transactions block).foldlM apply started = .ok executed ∧
      ∀ address, nonceOf ledger'.accounts address = nonceOf executed.accounts address ∧
        availableOf executed address ≤ availableOf ledger' address

/-! ## Producing blocks -/

/-- The header fields the miner sets and the validator reads. -/
structure Header where
  height : UInt64
  previousHash : BlockHash
  difficulty : UInt32
  timestamp : UInt64
  stateRoot : Hash
deriving DecidableEq, Repr

def header {P : Paqus} (block : P.Block) : Header :=
  ⟨P.block.height block, P.block.previousHash block, P.block.difficulty block,
    P.block.timestamp block, P.block.stateRoot block⟩

/-- A new block has the header it is given, and a setter changes its own
field only. -/
structure HeaderLaws (P : Paqus) : Prop where
  withCoinbase : ∀ height previousHash miner difficulty timestamp nonce coinbase transactions,
    ∃ stateRoot, header (P.block.withCoinbase height previousHash miner difficulty timestamp nonce
      coinbase transactions) = ⟨height, previousHash, difficulty, timestamp, stateRoot⟩
  setStateRoot : ∀ (block : P.Block) stateRoot,
    header (P.block.setStateRoot block stateRoot) = { header block with stateRoot := stateRoot }
  setDifficulty : ∀ (block : P.Block) difficulty,
    header (P.block.setDifficulty block difficulty) = { header block with difficulty := difficulty }
  setNonce : ∀ (block : P.Block) nonce, header (P.block.setNonce block nonce) = header block
  setNonce_setNonce : ∀ (block : P.Block) nonce nonce',
    P.block.setNonce (P.block.setNonce block nonce) nonce' = P.block.setNonce block nonce'

/-- The proof of work of a block. -/
def ProofOfWork {P : Paqus} (consensus : Consensus) (block : P.Block) : Prop :=
  ∃ hash, P.consensus.proofOfWorkHash consensus block = .ok hash ∧
    P.consensus.validateProofOfWorkHashWithDifficulty consensus hash
      (P.block.difficulty block) = .ok ()

/-- The block comes after `parent` and not too far ahead of the clock. -/
structure Follows {P : Paqus} (tolerance now : UInt64) (parent block : P.Block) : Prop where
  after : P.block.timestamp parent ≤ P.block.timestamp block
  before : P.block.timestamp block ≤ satAdd now tolerance
  height : (P.block.height block).toNat = (P.block.height parent).toNat + 1
  previous : P.block.previousHash block = P.block.hash parent

/-- `validate_next_block_with_tip_at` checks timestamps, height and parent of
every block, and of a block of admissible difficulty the proof of work and
`coinbase` besides. -/
structure NextBlockLaws (P : Paqus) (tolerance : UInt64) (coinbase : P.Block → Prop) : Prop where
  tolerance_pos : 0 < tolerance
  next_follows : ∀ {consensus block parent now},
    P.consensus.validateNextBlockWithTipAt consensus block parent now = .ok () →
    Follows tolerance now parent block
  next_ok : ∀ {consensus block parent now}, Admissible block →
    (P.consensus.validateNextBlockWithTipAt consensus block parent now = .ok () ↔
      Follows tolerance now parent block ∧ ProofOfWork consensus block ∧ coinbase block)

/-- The block `create_candidate_block` builds from a subsidy and a selection
of transactions, before its state root is set. -/
def freshBlock {P : Paqus} (height : UInt64) (previousHash : BlockHash) (miner : Address)
    (timestamp : UInt64) (subsidy : UInt32) (transactions : List P.SignedTransaction) : P.Block :=
  P.block.withCoinbase height previousHash miner P.consensus.difficultyStart timestamp 0
    (some (subsidy, feeSum transactions)) transactions

/-- The same block with its state root, difficulty and nonce set. -/
def minedBlock {P : Paqus} (block : P.Block) (stateRoot : Hash) (difficulty : UInt32)
    (nonce : UInt64) : P.Block :=
  P.block.setNonce (P.block.setDifficulty (P.block.setStateRoot block stateRoot) difficulty) nonce

/-- The setters of the miner leave the transactions alone. -/
structure BodyLaws (P : Paqus) : Prop where
  transactions_minedBlock : ∀ (block : P.Block) stateRoot difficulty nonce,
    P.block.transactions (minedBlock block stateRoot difficulty nonce) = P.block.transactions block

/-- What a mined block relies on: its state root does not depend on the fields
set after it was computed and is never the zero hash; the ledger applies, on
top of its tip, what it can compute the state root of; and the coinbase of the
subsidy and the collected fees is then in order. -/
structure CandidateLaws (P : Paqus) (coinbase : P.Block → Prop) : Prop where
  root_minedBlock : ∀ ledger (block : P.Block) stateRoot difficulty nonce,
    P.ledger.stateRootAfterBlock ledger (minedBlock block stateRoot difficulty nonce) =
      P.ledger.stateRootAfterBlock ledger block
  root_ne_zero : ∀ {ledger block stateRoot},
    P.ledger.stateRootAfterBlock ledger block = .ok stateRoot → stateRoot ≠ 0
  apply_ok : ∀ {ledger tipHash tipHeight miner timestamp subsidy transactions stateRoot}
      difficulty nonce,
    P.ledger.tipHash ledger = some tipHash → P.ledger.tipHeight ledger = some tipHeight →
    tipHeight.toNat + 1 < 2 ^ 64 →
    P.ledger.mintableSubsidy ledger (satAdd tipHeight 1) = .ok subsidy →
    P.ledger.stateRootAfterBlock ledger (freshBlock (satAdd tipHeight 1) tipHash miner timestamp
      subsidy transactions) = .ok stateRoot →
    ∃ ledger', P.ledger.applyBlock ledger (minedBlock (freshBlock (satAdd tipHeight 1) tipHash
      miner timestamp subsidy transactions) stateRoot difficulty nonce) = .ok ledger'
  coinbase_ok : ∀ {ledger ledger' height previousHash miner timestamp subsidy transactions
      stateRoot difficulty nonce},
    P.ledger.mintableSubsidy ledger height = .ok subsidy →
    P.ledger.applyBlock ledger (minedBlock (freshBlock height previousHash miner timestamp subsidy
      transactions) stateRoot difficulty nonce) = .ok ledger' →
    coinbase (minedBlock (freshBlock height previousHash miner timestamp subsidy transactions)
      stateRoot difficulty nonce)

end PaqusNode
