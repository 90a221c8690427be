import PaqusNode.Base.Saturating
import PaqusNode.Base.BTreeMap

/-!
# PaqusNode.Paqus

The surface of the `paqus` crate the node is written against: blocks,
transactions, accounts, the ledger, the fork-choice index and the consensus
rules.  The crate itself is not part of this repository, so its types and
functions are a parameter of the whole development, `Paqus`; only the data
the node builds or takes apart itself (`Ledger`, `Chain`, `ForkNode`, the
error values it matches on) is spelled out.

What the node relies on is stated separately, one structure per component
(`ForkChoiceLaws`, `ChainLaws`, …), so every theorem names exactly the
assumptions it uses (`PaqusNode.Paqus.Laws`).
-/

namespace PaqusNode

/-! ## Shared value types -/

/-- A 64-byte hash, compared bytewise (so as a big-endian number). -/
abbrev Hash : Type := BitVec 512

abbrev BlockHash : Type := Hash

abbrev TransactionHash : Type := Hash

/-- A 20-byte address. -/
abbrev Address : Type := BitVec 160

instance : Std.TransOrd Hash := BitVec.instTransOrd

instance : Std.TransOrd Address := BitVec.instTransOrd

/-- Concatenated bit strings come apart again. -/
theorem bits_append_inj {v w : Nat} {x x' : BitVec v} {y y' : BitVec w} (h : x ++ y = x' ++ y') :
    x = x' ∧ y = y' := by
  have hleft := congrArg (BitVec.extractLsb' w v) h
  have hright := congrArg (BitVec.extractLsb' 0 w) h
  simp only [BitVec.extractLsb'_append_eq_left, BitVec.extractLsb'_append_eq_right] at hleft hright
  exact ⟨hleft, hright⟩

inductive StateError where
  | invalidNonce
  | balanceOverflow
  | insufficientBalance
  | other (code : Nat)
deriving DecidableEq, Repr

inductive LedgerError where
  | duplicateBlock
  | invalidStateRoot
  | accountNotFound
  | invalidState (error : StateError)
  | other (code : Nat)
deriving DecidableEq, Repr

inductive TransactionError where
  | fromFuture
  | expired
  | other (code : Nat)
deriving DecidableEq, Repr

inductive ForkChoiceError where
  | missingParent
  | duplicateBlock
  | invalidDifficulty
  | other (code : Nat)
deriving DecidableEq, Repr

inductive BlockError where
  | invalidStateRoot
  | other (code : Nat)
deriving DecidableEq, Repr

inductive ConsensusError where
  | unexpectedDifficulty
  | invalidBlock (error : BlockError)
  | other (code : Nat)
deriving DecidableEq, Repr

/-- `paqus::consensus::ConsensusConfig`. -/
structure ConsensusConfig where
  difficulty : UInt32
deriving DecidableEq, Repr

/-- `paqus::consensus::Consensus`. -/
structure Consensus where
  config : ConsensusConfig
deriving DecidableEq, Repr

/-- `paqus::ledger::Chain`: the active chain, block by height. -/
structure Chain (Block : Type) where
  blocks : BTreeMap UInt64 Block

/-- `paqus::ledger::Ledger`. -/
structure Ledger (Account Block : Type) where
  accounts : BTreeMap Address Account
  chain : Chain Block

/-- An entry of the fork-choice index, as far as the node reads it. -/
structure ForkNode (Block : Type) where
  hash : BlockHash
  height : UInt64
  block : Block
deriving DecidableEq

/-- `Chain::new`. -/
def Chain.new (Block : Type) : Chain Block := ⟨∅⟩

/-- `Ledger::new`. -/
def Ledger.new (Account Block : Type) : Ledger Account Block := ⟨∅, Chain.new Block⟩

/-- `Ledger::account`. -/
def Ledger.account {Account Block : Type} (ledger : Ledger Account Block) (address : Address) :
    Option Account :=
  ledger.accounts[address]?

/-! ## The crate's functions, module by module -/

/-- `paqus::transaction`: the fields of a signed transaction and its own
checks.  `sender` and `receiver` are the payload's `from` and `to`. -/
structure TransactionApi (SignedTransaction : Type) where
  hash : SignedTransaction → TransactionHash
  sender : SignedTransaction → Address
  receiver : SignedTransaction → Address
  amount : SignedTransaction → UInt32
  fee : SignedTransaction → UInt32
  nonce : SignedTransaction → UInt64
  timestamp : SignedTransaction → UInt64
  serializedSize : SignedTransaction → Nat
  validateSigned : SignedTransaction → Except TransactionError Unit
  validateSignedAt : SignedTransaction → UInt64 → Except TransactionError Unit

/-- `paqus::block`: the header fields of a block, its transactions, and the
constructor and setters the miner uses.  `coinbase` takes the subsidy and
the collected fees. -/
structure BlockApi (Block SignedTransaction : Type) where
  hash : Block → BlockHash
  height : Block → UInt64
  previousHash : Block → BlockHash
  minerAddress : Block → Address
  difficulty : Block → UInt32
  timestamp : Block → UInt64
  stateRoot : Block → Hash
  transactions : Block → List SignedTransaction
  isGenesis : Block → Bool
  withCoinbase : (height : UInt64) → (previousHash : BlockHash) → (miner : Address) →
    (difficulty : UInt32) → (timestamp nonce : UInt64) →
    (coinbase : Option (UInt32 × UInt32)) → List SignedTransaction → Block
  setStateRoot : Block → Hash → Block
  setDifficulty : Block → UInt32 → Block
  setNonce : Block → UInt64 → Block

/-- `paqus::state::Account`. -/
structure AccountApi (Account : Type) where
  address : Account → Address
  nonce : Account → UInt64
  availableBalanceAt : Account → UInt64 → UInt32

/-- `paqus::ledger`: `Ledger` and `Chain`. -/
structure LedgerApi (Account Block : Type) where
  applyBlock : Ledger Account Block → Block → Except LedgerError (Ledger Account Block)
  insertBlock : Chain Block → Block → Except LedgerError (Chain Block)
  tipHeight : Ledger Account Block → Option UInt64
  tipHash : Ledger Account Block → Option BlockHash
  stateRoot : Ledger Account Block → Hash
  calculateStateRoot : BTreeMap Address Account → Hash
  stateRootAfterBlock : Ledger Account Block → Block → Except LedgerError Hash
  mintableSubsidy : Ledger Account Block → UInt64 → Except LedgerError UInt32

/-- `paqus::ledger::fork_choice::ForkChoice`. -/
structure ForkChoiceApi (ForkChoice Block : Type) where
  new : ForkChoice
  insertBlock : ForkChoice → Block → Except ForkChoiceError (BlockHash × ForkChoice)
  contains : ForkChoice → BlockHash → Bool
  get : ForkChoice → BlockHash → Option (ForkNode Block)
  bestTip : ForkChoice → Option (ForkNode Block)
  ancestorHashes : ForkChoice → BlockHash → List BlockHash
  branchFromAncestor : ForkChoice → BlockHash → BlockHash → Option (List Block)

/-- `paqus::consensus`, `paqus::checkpoint` and `paqus::snapshot`. -/
structure ConsensusApi (Block : Type) where
  validateGenesisBlockAt : Consensus → Block → UInt64 → Except ConsensusError Unit
  validateNextBlockWithTipAt : Consensus → Block → Block → UInt64 → Except ConsensusError Unit
  retargetDifficulty : Consensus → UInt32 → UInt64 → UInt64 → UInt64 → Except ConsensusError UInt32
  proofOfWorkHash : Consensus → Block → Except ConsensusError Hash
  validateProofOfWorkHashWithDifficulty : Consensus → Hash → UInt32 → Except ConsensusError Unit
  validateCheckpoint : UInt64 → BlockHash → Bool
  isSnapshotHeight : UInt64 → Bool
  difficultyAdjustmentInterval : UInt64
  difficultyStart : UInt32
  /-- `BLOCK_TIME` in seconds. -/
  blockTime : UInt64

/-! ## Stored records -/

/-- `StateSnapshot` of the storage module. -/
structure StateSnapshot (Account : Type) where
  height : UInt64
  blockHash : BlockHash
  stateRoot : Hash
  accounts : BTreeMap Address Account

/-- Where a transaction sits in the active chain. -/
structure TransactionLocation where
  blockHeight : UInt64
  blockHash : BlockHash
  txIndex : UInt32
deriving DecidableEq, Repr

/-- One entry of an address's transaction list. -/
structure AddressTransactionLocation where
  txHash : TransactionHash
  blockHeight : UInt64
  blockHash : BlockHash
  txIndex : UInt32
  sent : Bool
deriving DecidableEq, Repr

/-- The kinds of values the node writes to its database. -/
inductive RecordKind where
  | block
  | account
  | accounts
  | version
  | height
  | hash
  | snapshot
  | transactionLocation
  | addressTransactionLocation
deriving DecidableEq, Repr

/-- The values of each kind. -/
abbrev RecordKind.Val (Account Block : Type) : RecordKind → Type
  | .block => Block
  | .account => Account
  | .accounts => BTreeMap Address Account
  | .version => UInt8
  | .height => UInt64
  | .hash => Hash
  | .snapshot => StateSnapshot Account
  | .transactionLocation => TransactionLocation
  | .addressTransactionLocation => AddressTransactionLocation

/-- `borsh`, kind by kind; a stored hash is its 64 raw bytes. -/
structure BorshApi (Account Block : Type) where
  Bytes : Type
  encode : (kind : RecordKind) → kind.Val Account Block → Bytes
  decode : (kind : RecordKind) → Bytes → Option (kind.Val Account Block)

/-! ## The parameter -/

/-- The `paqus` crate and the encoding of its values, as the node sees them. -/
structure Paqus where
  Block : Type
  SignedTransaction : Type
  Account : Type
  ForkChoice : Type
  transaction : TransactionApi SignedTransaction
  block : BlockApi Block SignedTransaction
  account : AccountApi Account
  ledger : LedgerApi Account Block
  forkChoice : ForkChoiceApi ForkChoice Block
  consensus : ConsensusApi Block
  borsh : BorshApi Account Block
  /-- `paqus::genesis::genesis_block()`. -/
  genesisBlock : Block
  /-- `paqus::genesis::GENESIS_HASH`. -/
  genesisHash : BlockHash

/-- The ledger type of a `paqus` crate. -/
abbrev Paqus.Ledger (P : Paqus) : Type := PaqusNode.Ledger P.Account P.Block

/-- The fees of transactions, added up as `u32` values. -/
def feeSum {P : Paqus} (transactions : List P.SignedTransaction) : UInt32 :=
  transactions.foldl (fun sum transaction => sum + P.transaction.fee transaction) 0

end PaqusNode
