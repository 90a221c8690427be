import Mathlib.Data.List.Sort
import PaqusNode.Paqus

/-!
# PaqusNode.Storage

The node's database (`runtime/storage/storage.rs`): eight LMDB tables, read
and written through `borsh`.

A write transaction is all or nothing, so every writer computes the tables
after the transaction and `commit` decides whether they replace the old
ones.  Whether a commit or the following `sync` fails is up to the
environment (`Env`), which also supplies the clock: the `i`-th interaction
of the process with the outside world reads the `i`-th entry of each
stream.
-/

namespace PaqusNode

/-- The world outside the process, interaction by interaction. -/
structure Env where
  /-- What `SystemTime::now()` reads, in seconds since the epoch. -/
  clock : Nat → UInt64
  /-- The error, if any, a write transaction ends with before its commit. -/
  commitFault : Nat → Option Nat
  /-- The error, if any, of the `sync` after a commit. -/
  flushFault : Nat → Option Nat

inductive StorageError where
  | database (code : Nat)
  | serialization
  | integrity (message : String)
  | missingStorageVersion
  | unsupportedStorageVersion (expected found : UInt8)
deriving DecidableEq, Repr

def storageVersion : UInt8 := 1

/-- The database: one table per field, the `meta` table's three keys and the
single key of `genesis_accounts` as fields of their own. -/
structure Storage (P : Paqus) where
  blocksByHeight : BTreeMap UInt64 P.borsh.Bytes
  blocksByHash : BTreeMap BlockHash P.borsh.Bytes
  accounts : BTreeMap Address P.borsh.Bytes
  genesisAccounts : Option P.borsh.Bytes
  stateSnapshots : BTreeMap UInt64 P.borsh.Bytes
  txIndex : BTreeMap TransactionHash P.borsh.Bytes
  addressTxIndex : BTreeMap (BitVec 264) P.borsh.Bytes
  metaTipHeight : Option P.borsh.Bytes
  metaTipHash : Option P.borsh.Bytes
  metaStorageVersion : Option P.borsh.Bytes

namespace Storage

variable {P : Paqus}

/-- A database nothing has been written to. -/
def empty : Storage P := ⟨∅, ∅, ∅, none, ∅, ∅, ∅, none, none, none⟩

/-! ## Transactions -/

/-- End a write transaction that would leave the tables `after`. -/
def commit (env : Env) (io : Nat) (before after : Storage P) :
    Storage P × Except StorageError Unit :=
  match env.commitFault io with
  | some code => (before, .error (.database code))
  | none => (after, .ok ())

/-- `flush`. -/
def flush (env : Env) (io : Nat) : Except StorageError Unit :=
  match env.flushFault io with
  | some code => .error (.database code)
  | none => .ok ()

/-- Decode a stored value, `Serialization` being the decoder's error. -/
def decode (kind : RecordKind) (bytes : P.borsh.Bytes) :
    Except StorageError (kind.Val P.Account P.Block) :=
  match P.borsh.decode kind bytes with
  | some v => .ok v
  | none => .error .serialization

/-- `read_value`. -/
def readValue (kind : RecordKind) (bytes : Option P.borsh.Bytes) :
    Except StorageError (Option (kind.Val P.Account P.Block)) :=
  match bytes with
  | none => .ok none
  | some b => (decode kind b).map some

/-! ## Storage version -/

/-- `load_storage_version`. -/
def loadStorageVersion (db : Storage P) : Except StorageError (Option UInt8) :=
  readValue .version db.metaStorageVersion

/-- `is_empty_database`. -/
def isEmptyDatabase (db : Storage P) : Bool :=
  db.blocksByHeight.isEmpty && db.blocksByHash.isEmpty && db.accounts.isEmpty &&
    db.genesisAccounts.isNone && db.stateSnapshots.isEmpty && db.txIndex.isEmpty &&
    db.addressTxIndex.isEmpty

/-- `ensure_storage_version`: stamps an empty database, refuses any other
version. -/
def ensureStorageVersion (env : Env) (io : Nat) (db : Storage P) :
    Storage P × Except StorageError Unit :=
  match db.loadStorageVersion with
  | .error e => (db, .error e)
  | .ok (some found) =>
      if found = storageVersion then (db, .ok ())
      else (db, .error (.unsupportedStorageVersion storageVersion found))
  | .ok none =>
      if db.isEmptyDatabase then
        match commit env io db
            { db with metaStorageVersion := some (P.borsh.encode .version storageVersion) } with
        | (db, .error e) => (db, .error e)
        | (db, .ok ()) => (db, flush env io)
      else (db, .error .missingStorageVersion)

/-! ## Blocks -/

/-- `load_block_by_height`. -/
def loadBlockByHeight (db : Storage P) (height : UInt64) :
    Except StorageError (Option P.Block) :=
  match db.blocksByHeight[height]? with
  | none => .ok none
  | some bytes =>
      match decode .block bytes with
      | .error e => .error e
      | .ok block =>
          if P.block.height block ≠ height then
            .error (.integrity "stored block height does not match height key")
          else .ok (some block)

/-- `load_block_by_hash`. -/
def loadBlockByHash (db : Storage P) (hash : BlockHash) : Except StorageError (Option P.Block) :=
  match db.blocksByHash[hash]? with
  | none => .ok none
  | some bytes =>
      match decode .block bytes with
      | .error e => .error e
      | .ok block =>
          if P.block.hash block ≠ hash then
            .error (.integrity "stored block hash does not match hash key")
          else .ok (some block)

/-- `load_blocks_by_hash`: every stored block, in key order. -/
def loadBlocksByHash (db : Storage P) : Except StorageError (List P.Block) :=
  (BTreeMap.valuesList db.blocksByHash).mapM (decode .block)

/-- `save_side_block`. -/
def saveSideBlock (env : Env) (io : Nat) (db : Storage P) (block : P.Block) :
    Storage P × Except StorageError Unit :=
  commit env io db
    { db with
      blocksByHash := db.blocksByHash.insert (P.block.hash block) (P.borsh.encode .block block) }

/-- The keys of the address index are ordered. -/
instance : Std.TransOrd (BitVec 264) := BitVec.instTransOrd

/-- `address_tx_key`: address, height, position and direction, concatenated
big-endian. -/
def addressTxKey (address : Address) (height : UInt64) (txIndex : UInt32) (sent : Bool) :
    BitVec 264 :=
  address ++ height.toBitVec ++ txIndex.toBitVec ++ (if sent then 1#8 else 0#8)

/-- One transaction's entries in the two transaction indexes. -/
def indexTransaction (db : Storage P) (block : P.Block) (transaction : P.SignedTransaction)
    (txIndex : UInt32) : Storage P :=
  let txHash := P.transaction.hash transaction
  let location : TransactionLocation :=
    ⟨P.block.height block, P.block.hash block, txIndex⟩
  let sentLocation : AddressTransactionLocation :=
    ⟨txHash, P.block.height block, P.block.hash block, txIndex, true⟩
  let sender := P.transaction.sender transaction
  let receiver := P.transaction.receiver transaction
  let sentIndex := db.addressTxIndex.insert
    (addressTxKey sender (P.block.height block) txIndex true)
    (P.borsh.encode .addressTransactionLocation sentLocation)
  { db with
    txIndex := db.txIndex.insert txHash (P.borsh.encode .transactionLocation location)
    addressTxIndex :=
      if receiver ≠ sender then
        sentIndex.insert (addressTxKey receiver (P.block.height block) txIndex false)
          (P.borsh.encode .addressTransactionLocation { sentLocation with sent := false })
      else sentIndex }

/-- `index_block_transactions`, from position `index` on. -/
def indexBlockTransactions (block : P.Block) (index : Nat) (db : Storage P) :
    List P.SignedTransaction → Except StorageError (Storage P)
  | [] => .ok db
  | transaction :: rest =>
      if 2 ^ 32 ≤ index then .error (.integrity "transaction index exceeds u32")
      else
        indexBlockTransactions block (index + 1)
          (db.indexTransaction block transaction (UInt32.ofNat index)) rest

/-- `load_transaction_location`. -/
def loadTransactionLocation (db : Storage P) (hash : TransactionHash) :
    Except StorageError (Option TransactionLocation) :=
  readValue .transactionLocation db.txIndex[hash]?

/-- `load_transaction`: the row is followed to the block and checked against
it. -/
def loadTransaction (db : Storage P) (hash : TransactionHash) :
    Except StorageError (Option (TransactionLocation × P.SignedTransaction)) :=
  match db.loadTransactionLocation hash with
  | .error e => .error e
  | .ok none => .ok none
  | .ok (some location) =>
      match db.loadBlockByHeight location.blockHeight with
      | .error e => .error e
      | .ok none => .error (.integrity "indexed transaction block is missing")
      | .ok (some block) =>
          if P.block.hash block ≠ location.blockHash then
            .error (.integrity "indexed transaction block hash mismatch")
          else
            match (P.block.transactions block)[location.txIndex.toNat]? with
            | none => .error (.integrity "indexed transaction position is missing")
            | some transaction =>
                if P.transaction.hash transaction ≠ hash then
                  .error (.integrity "indexed transaction hash does not match transaction")
                else .ok (some (location, transaction))

/-- The first 20 bytes of a key, which `starts_with` compares. -/
def keyAddress (key : BitVec 264) : Address := key.extractLsb' 104 160

/-- The order of `sort_by_key` on height, position and direction. -/
def LocationLe (a b : AddressTransactionLocation) : Prop :=
  a.blockHeight < b.blockHeight ∨ a.blockHeight = b.blockHeight ∧
    (a.txIndex < b.txIndex ∨ a.txIndex = b.txIndex ∧ a.sent ≤ b.sent)

instance (a b : AddressTransactionLocation) : Decidable (LocationLe a b) :=
  inferInstanceAs (Decidable (_ ∨ _))

/-- `load_address_transaction_locations`. -/
def loadAddressTransactionLocations (db : Storage P) (address : Address) :
    Except StorageError (List AddressTransactionLocation) :=
  match ((db.addressTxIndex.toList.filter fun row => keyAddress row.1 == address).map
      Prod.snd).mapM (decode .addressTransactionLocation) with
  | .error e => .error e
  | .ok locations => .ok (locations.insertionSort LocationLe)

/-! ## Genesis accounts, tip and ledger -/

/-- `save_genesis_accounts`. -/
def saveGenesisAccounts (env : Env) (io : Nat) (db : Storage P)
    (accounts : BTreeMap Address P.Account) : Storage P × Except StorageError Unit :=
  commit env io db { db with genesisAccounts := some (P.borsh.encode .accounts accounts) }

/-- `load_genesis_accounts`. -/
def loadGenesisAccounts (db : Storage P) :
    Except StorageError (Option (BTreeMap Address P.Account)) :=
  readValue .accounts db.genesisAccounts

/-- `StateSnapshot::verify_state_root`. -/
def verifyStateRoot (snapshot : StateSnapshot P.Account) : Bool :=
  P.ledger.calculateStateRoot snapshot.accounts == snapshot.stateRoot

/-- `save_state_snapshot`. -/
def saveStateSnapshot (env : Env) (io : Nat) (db : Storage P) (ledger : P.Ledger) :
    Storage P × Except StorageError Unit :=
  match P.ledger.tipHeight ledger, P.ledger.tipHash ledger with
  | some height, some blockHash =>
      if height ≠ 0 ∧ !P.consensus.isSnapshotHeight height then
        (db, .error (.integrity "state snapshot height is not a protocol snapshot height"))
      else
        let snapshot : StateSnapshot P.Account :=
          ⟨height, blockHash, P.ledger.stateRoot ledger, ledger.accounts⟩
        commit env io db { db with
          stateSnapshots := db.stateSnapshots.insert height (P.borsh.encode .snapshot snapshot) }
  | _, _ => (db, .ok ())

/-- `load_state_snapshot`. -/
def loadStateSnapshot (db : Storage P) (height : UInt64) :
    Except StorageError (Option (StateSnapshot P.Account)) :=
  match db.stateSnapshots[height]? with
  | none => .ok none
  | some bytes =>
      match decode .snapshot bytes with
      | .error e => .error e
      | .ok snapshot =>
          if snapshot.height ≠ height then
            .error (.integrity "stored state snapshot height does not match height key")
          else if !verifyStateRoot snapshot then
            .error (.integrity "stored state snapshot root does not match accounts")
          else .ok (some snapshot)

/-- `load_tip`. -/
def loadTip (db : Storage P) : Except StorageError (Option (UInt64 × BlockHash)) :=
  match db.metaTipHeight, db.metaTipHash with
  | some heightBytes, some hashBytes =>
      match decode .height heightBytes with
      | .error e => .error e
      | .ok height =>
          match decode .hash hashBytes with
          | .error e => .error e
          | .ok hash => .ok (some (height, hash))
  | _, _ => .ok none

/-- The account rows `save_ledger` writes. -/
def writeAccounts (ledger : P.Ledger) : BTreeMap Address P.borsh.Bytes :=
  ledger.accounts.valuesList.foldl
    (fun rows account =>
      rows.insert (P.account.address account) (P.borsh.encode .account account)) ∅

/-- One chain block's rows in the block tables and transaction indexes. -/
def writeChainBlock (db : Storage P) (block : P.Block) : Except StorageError (Storage P) :=
  let bytes := P.borsh.encode .block block
  indexBlockTransactions block 0
    { db with
      blocksByHeight := db.blocksByHeight.insert (P.block.height block) bytes
      blocksByHash := db.blocksByHash.insert (P.block.hash block) bytes }
    (P.block.transactions block)

/-- The tip record, and at the heights that ask for them the state snapshot
and the genesis accounts. -/
def writeTip (db : Storage P) (ledger : P.Ledger) : Storage P :=
  match P.ledger.tipHeight ledger, P.ledger.tipHash ledger with
  | some height, some hash =>
      let db := { db with
        metaTipHeight := some (P.borsh.encode .height height)
        metaTipHash := some (P.borsh.encode .hash hash) }
      let db :=
        if height = 0 ∨ P.consensus.isSnapshotHeight height then
          let snapshot : StateSnapshot P.Account :=
            ⟨height, hash, P.ledger.stateRoot ledger, ledger.accounts⟩
          { db with
            stateSnapshots := db.stateSnapshots.insert height (P.borsh.encode .snapshot snapshot) }
        else db
      if height = 0 then
        { db with genesisAccounts := some (P.borsh.encode .accounts ledger.accounts) }
      else db
  | _, _ => db

/-- The tables after the write transaction of `save_ledger`: every table but
`blocks_by_hash`, `genesis_accounts` and `meta` is cleared first. -/
def writeLedger (db : Storage P) (ledger : P.Ledger) : Except StorageError (Storage P) :=
  let cleared := { db with
    blocksByHeight := ∅
    accounts := writeAccounts ledger
    stateSnapshots := ∅
    txIndex := ∅
    addressTxIndex := ∅ }
  match ledger.chain.blocks.valuesList.foldlM writeChainBlock cleared with
  | .error e => .error e
  | .ok db => .ok (db.writeTip ledger)

/-- `save_ledger`. -/
def saveLedger (env : Env) (io : Nat) (db : Storage P) (ledger : P.Ledger) :
    Storage P × Except StorageError Unit :=
  match db.writeLedger ledger with
  | .error e => (db, .error e)
  | .ok after =>
      match commit env io db after with
      | (db, .error e) => (db, .error e)
      | (db, .ok ()) => (db, flush env io)

/-! ## Loading -/

/-- The walk of `validate_chain_integrity` from height `n` down to genesis. -/
def checkChain (db : Storage P) : Nat → BlockHash → Except StorageError Unit
  | 0, expectedHash =>
      match db.loadBlockByHeight 0 with
      | .error e => .error e
      | .ok none => .error (.integrity "stored chain block is missing")
      | .ok (some block) =>
          if P.block.hash block ≠ expectedHash then
            .error (.integrity "stored chain block hash does not match expected hash")
          else if P.block.previousHash block ≠ 0 then
            .error (.integrity "stored genesis block previous hash is not zero")
          else .ok ()
  | n + 1, expectedHash =>
      match db.loadBlockByHeight (UInt64.ofNat (n + 1)) with
      | .error e => .error e
      | .ok none => .error (.integrity "stored chain block is missing")
      | .ok (some block) =>
          if P.block.hash block ≠ expectedHash then
            .error (.integrity "stored chain block hash does not match expected hash")
          else
            match db.loadBlockByHeight (UInt64.ofNat n) with
            | .error e => .error e
            | .ok none => .error (.integrity "stored previous chain block is missing")
            | .ok (some previous) =>
                if P.block.previousHash block ≠ P.block.hash previous then
                  .error (.integrity "stored chain block previous hash is broken")
                else checkChain db n (P.block.hash previous)

/-- `validate_chain_integrity`. -/
def validateChainIntegrity (db : Storage P) : Except StorageError Unit :=
  match db.loadTip with
  | .error e => .error e
  | .ok none => .ok ()
  | .ok (some (tipHeight, tipHash)) =>
      match db.loadBlockByHeight tipHeight with
      | .error e => .error e
      | .ok none => .error (.integrity "stored tip height block is missing")
      | .ok (some tipBlock) =>
          if P.block.hash tipBlock ≠ tipHash then
            .error (.integrity "stored tip hash does not match tip height block")
          else checkChain db tipHeight.toNat tipHash

/-- One row of the account scan of `load_ledger`. -/
def loadAccount (accounts : BTreeMap Address P.Account) (row : Address × P.borsh.Bytes) :
    Except StorageError (BTreeMap Address P.Account) :=
  match decode .account row.2 with
  | .error e => .error e
  | .ok account =>
      if P.account.address account ≠ row.1 then
        .error (.integrity "stored account address does not match account key")
      else .ok (accounts.insert (P.account.address account) account)

/-- One height of the chain scan of `load_ledger`. -/
def loadChainBlock (db : Storage P) (chain : Chain P.Block) (height : Nat) :
    Except StorageError (Chain P.Block) :=
  match db.loadBlockByHeight (UInt64.ofNat height) with
  | .error e => .error e
  | .ok none => .error (.integrity "stored chain block is missing")
  | .ok (some block) =>
      match P.ledger.insertBlock chain block with
      | .error _ => .error (.integrity "stored chain block is invalid")
      | .ok chain => .ok chain

/-- `load_ledger` once the version and the chain have been checked. -/
def readLedger (db : Storage P) : Except StorageError P.Ledger :=
  match db.accounts.toList.foldlM loadAccount ∅ with
  | .error e => .error e
  | .ok accounts =>
      match db.loadTip with
      | .error e => .error e
      | .ok none => .ok ⟨accounts, Chain.new P.Block⟩
      | .ok (some (tipHeight, _)) =>
          match (List.range (tipHeight.toNat + 1)).foldlM db.loadChainBlock (Chain.new P.Block) with
          | .error e => .error e
          | .ok chain => .ok ⟨accounts, chain⟩

/-- `load_ledger`. -/
def loadLedger (env : Env) (io : Nat) (db : Storage P) : Storage P × Except StorageError P.Ledger :=
  match db.ensureStorageVersion env io with
  | (db, .error e) => (db, .error e)
  | (db, .ok ()) =>
      match db.validateChainIntegrity with
      | .error e => (db, .error e)
      | .ok () => (db, db.readLedger)

/-- `difficulty_window`. -/
def difficultyWindow (db : Storage P) (tipHeight window : UInt64) :
    Except StorageError (Option (UInt64 × UInt64 × UInt64 × UInt32)) :=
  if window = 0 ∨ tipHeight < window then .ok none
  else
    match db.loadBlockByHeight tipHeight with
    | .error e => .error e
    | .ok none => .ok none
    | .ok (some tip) =>
        let firstHeight := tipHeight - window
        match db.loadBlockByHeight firstHeight with
        | .error e => .error e
        | .ok none => .ok none
        | .ok (some first) =>
            .ok (some (P.block.timestamp first, P.block.timestamp tip,
              satSub tipHeight firstHeight, P.block.difficulty tip))

end Storage

end PaqusNode
