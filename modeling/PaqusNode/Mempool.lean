import Mathlib.Data.List.Sort
import PaqusNode.Paqus

/-!
# PaqusNode.Mempool

The transaction pool (`runtime/mempool/mempool.rs`): admission against the
ledger with replace-by-fee, expiry, removal of confirmed transactions, and
the running byte count.

An operation that can fail after it has already changed the pool returns
the pool next to its result; `insertValidatedAt` prunes expired entries
before any of its checks, so even a rejected insert returns a pruned pool.
-/

namespace PaqusNode

/-! ## Policy constants (`runtime::params`) -/

def maxRelayTransactionAgeSecs : UInt64 := 24 * 60 * 60

def lowFeeExpirySecs : UInt64 := 30 * 60

def mempoolExpirySecs : UInt64 := 24 * 60 * 60

def maxMempoolTxs : Nat := 1000

def maxMempoolBytes : Nat := 10 * 1024 * 1024

def minRelayFeeFloor : UInt32 := 1

def defaultTransactionFee : UInt32 := 2

/-! ## The pool -/

inductive MempoolError where
  | duplicateTransaction
  | feeTooLow
  | mempoolFull
  | replacementFeeTooLow
  | invalidTransaction (error : TransactionError)
  | invalidLedgerState (error : LedgerError)
deriving DecidableEq, Repr

structure MempoolConfig where
  maxTransactions : Nat
  maxBytes : Nat
  transactionTtlSecs : UInt64
  lowFeeTtlSecs : UInt64
  minRelayFee : UInt32
  marketFee : UInt32
deriving DecidableEq, Repr

/-- `MempoolConfig::default`. -/
def MempoolConfig.default : MempoolConfig where
  maxTransactions := maxMempoolTxs
  maxBytes := maxMempoolBytes
  transactionTtlSecs := mempoolExpirySecs
  lowFeeTtlSecs := lowFeeExpirySecs
  minRelayFee := minRelayFeeFloor
  marketFee := defaultTransactionFee

structure MempoolEntry (P : Paqus) where
  transaction : P.SignedTransaction
  insertedAt : UInt64

structure Mempool (P : Paqus) where
  transactions : BTreeMap TransactionHash (MempoolEntry P)
  config : MempoolConfig
  totalBytes : Nat

namespace Mempool

variable {P : Paqus}

/-- `Mempool::with_config`. -/
def withConfig (config : MempoolConfig) : Mempool P := ⟨∅, config, 0⟩

/-- `Mempool::new`. -/
def new : Mempool P := withConfig MempoolConfig.default

/-- `transactions()`: the pooled transactions, in hash order. -/
def transactionList (pool : Mempool P) : List P.SignedTransaction :=
  pool.transactions.valuesList.map MempoolEntry.transaction

/-- `contains`. -/
def contains (pool : Mempool P) (hash : TransactionHash) : Bool :=
  pool.transactions.contains hash

/-! ## Expiry and removal -/

/-- The lifetime an entry is granted: entries below the market fee expire
earlier. -/
def ttl (config : MempoolConfig) (entry : MempoolEntry P) : UInt64 :=
  if P.transaction.fee entry.transaction < config.marketFee then
    config.lowFeeTtlSecs
  else config.transactionTtlSecs

/-- The retention test of `prune_expired`. -/
def retained (config : MempoolConfig) (now : UInt64) (entry : MempoolEntry P) : Bool :=
  decide (satSub now entry.insertedAt ≤ ttl config entry)

/-- `usize::saturating_add` over the serialized sizes of the entries. -/
def sumBytes (entries : List (MempoolEntry P)) : Nat :=
  entries.foldl
    (fun acc entry => min (acc + P.transaction.serializedSize entry.transaction) usizeMax) 0

/-- `prune_expired`. -/
def pruneExpired (pool : Mempool P) (now : UInt64) : Mempool P :=
  let kept := pool.transactions.filter fun _ entry => retained pool.config now entry
  { pool with transactions := kept, totalBytes := sumBytes (BTreeMap.valuesList kept) }

/-- `remove`: takes one transaction out of the pool and of the byte count. -/
def remove (pool : Mempool P) (hash : TransactionHash) : Mempool P :=
  match pool.transactions[hash]? with
  | none => pool
  | some entry =>
      { pool with
        transactions := pool.transactions.erase hash
        totalBytes := pool.totalBytes - P.transaction.serializedSize entry.transaction }

/-- `remove_confirmed`: drops every transaction of the block, by hash.  The
source leaves `total_bytes` alone here. -/
def removeConfirmed (pool : Mempool P) (block : P.Block) : Mempool P :=
  { pool with
    transactions := (P.block.transactions block).foldl
      (fun txs transaction => txs.erase (P.transaction.hash transaction)) pool.transactions }

/-- `clear`. -/
def clear (pool : Mempool P) : Mempool P := { pool with transactions := ∅, totalBytes := 0 }

/-! ## Admission -/

/-- `replacement_candidate`: the pooled transaction of the same sender and
nonce, provided the newcomer pays strictly more. -/
def replacementCandidate (pool : Mempool P) (transaction : P.SignedTransaction) :
    Except MempoolError (Option TransactionHash) :=
  match pool.transactions.toList.find? fun (_, entry) =>
      P.transaction.sender entry.transaction == P.transaction.sender transaction &&
        P.transaction.nonce entry.transaction == P.transaction.nonce transaction with
  | none => .ok none
  | some (hash, entry) =>
      if P.transaction.fee transaction ≤ P.transaction.fee entry.transaction then
        .error .replacementFeeTooLow
      else .ok (some hash)

/-- `validate_fee_policy`. -/
def validateFeePolicy (pool : Mempool P) (transaction : P.SignedTransaction) :
    Except MempoolError Unit :=
  if P.transaction.fee transaction < max pool.config.minRelayFee minRelayFeeFloor then
    .error .feeTooLow
  else .ok ()

/-- `validate_timestamp_policy`. -/
def validateTimestampPolicy (transaction : P.SignedTransaction) (now : UInt64) :
    Except MempoolError Unit :=
  if satAdd now P.consensus.blockTime < P.transaction.timestamp transaction then
    .error (.invalidTransaction .fromFuture)
  else if maxRelayTransactionAgeSecs < satSub now (P.transaction.timestamp transaction) then
    .error (.invalidTransaction .expired)
  else .ok ()

/-- `amount.checked_add(fee)` on `u32`. -/
def checkedTotal (transaction : P.SignedTransaction) : Option UInt32 :=
  if (P.transaction.amount transaction).toNat + (P.transaction.fee transaction).toNat < 2 ^ 32 then
    some (P.transaction.amount transaction + P.transaction.fee transaction)
  else none

/-- One transaction's turn in the queue check: its nonce must be the
expected one and its cost covered by what is left to spend. -/
def spend (expectedNonce : UInt64) (spendable : UInt32) (transaction : P.SignedTransaction) :
    Except MempoolError UInt32 :=
  if P.transaction.nonce transaction ≠ expectedNonce then
    .error (.invalidLedgerState (.invalidState .invalidNonce))
  else
    match checkedTotal transaction with
    | none => .error (.invalidLedgerState (.invalidState .balanceOverflow))
    | some total =>
        if spendable < total then
          .error (.invalidLedgerState (.invalidState .insufficientBalance))
        else .ok (spendable - total)

/-- The loop over the sender's pending transactions: the nonce the next one
must have and the balance left for it. -/
def spendAll (expectedNonce : UInt64) (spendable : UInt32) :
    List P.SignedTransaction → Except MempoolError (UInt64 × UInt32)
  | [] => .ok (expectedNonce, spendable)
  | pending :: rest =>
      match spend expectedNonce spendable pending with
      | .error e => .error e
      | .ok left => spendAll (satAdd expectedNonce 1) left rest

/-- The pending transactions of one sender, in nonce order, without the one
about to be replaced. -/
def pendingFromSender (pool : Mempool P) (sender : Address) (excluded : Option TransactionHash) :
    List P.SignedTransaction :=
  (((pool.transactions.toList.filter fun (hash, _) => decide (some hash ≠ excluded)).map
      fun (_, entry) => entry.transaction).filter
      fun pending => P.transaction.sender pending == sender).insertionSort
    fun a b => P.transaction.nonce a ≤ P.transaction.nonce b

/-- `validate_against_ledger_excluding`. -/
def validateAgainstLedgerExcluding (pool : Mempool P) (ledger : P.Ledger)
    (transaction : P.SignedTransaction) (excluded : Option TransactionHash) :
    Except MempoolError Unit :=
  match P.transaction.validateSigned transaction with
  | .error e => .error (.invalidTransaction e)
  | .ok () =>
  match pool.validateFeePolicy transaction with
  | .error e => .error e
  | .ok () =>
  match ledger.account (P.transaction.sender transaction) with
  | none => .error (.invalidLedgerState .accountNotFound)
  | some sender =>
      let currentHeight := (P.ledger.tipHeight ledger).getD 0
      let pending := pool.pendingFromSender (P.transaction.sender transaction) excluded
      match spendAll (P.account.nonce sender)
          (P.account.availableBalanceAt sender currentHeight) pending with
      | .error e => .error e
      | .ok (expectedNonce, spendable) =>
          match spend expectedNonce spendable transaction with
          | .error e => .error e
          | .ok _ => .ok ()

/-- The size of the transaction about to be replaced. -/
def replacementSize (pool : Mempool P) (replacement : Option TransactionHash) : Nat :=
  match replacement.bind fun hash => pool.transactions[hash]? with
  | some entry => P.transaction.serializedSize entry.transaction
  | none => 0

/-- `insert_unchecked`: duplicate and capacity checks, then the insertion
itself.  It leaves the pool alone when it fails. -/
def insertUnchecked (pool : Mempool P) (transaction : P.SignedTransaction) (insertedAt : UInt64)
    (replacement : Option TransactionHash) : Except MempoolError (TransactionHash × Mempool P) :=
  let hash := P.transaction.hash transaction
  if pool.transactions.contains hash then .error .duplicateTransaction
  else
    let transactionSize := P.transaction.serializedSize transaction
    if replacement.isNone ∧ pool.config.maxTransactions ≤ pool.transactions.size then
      .error .mempoolFull
    else if pool.config.maxBytes <
        min (pool.totalBytes - pool.replacementSize replacement + transactionSize) usizeMax then
      .error .mempoolFull
    else
      let pool := match replacement with
        | some h => pool.remove h
        | none => pool
      .ok (hash, { pool with
        transactions := pool.transactions.insert hash ⟨transaction, insertedAt⟩
        totalBytes := min (pool.totalBytes + transactionSize) usizeMax })

/-- `insert_at`: neither ledger nor replacement is looked at. -/
def insertAt (pool : Mempool P) (transaction : P.SignedTransaction) (now : UInt64) :
    Mempool P × Except MempoolError TransactionHash :=
  let pool := pool.pruneExpired now
  match validateTimestampPolicy transaction now with
  | .error e => (pool, .error e)
  | .ok () =>
  match P.transaction.validateSignedAt transaction now with
  | .error e => (pool, .error (.invalidTransaction e))
  | .ok () =>
  match pool.validateFeePolicy transaction with
  | .error e => (pool, .error e)
  | .ok () =>
  match pool.insertUnchecked transaction now none with
  | .error e => (pool, .error e)
  | .ok (hash, pool) => (pool, .ok hash)

/-- `insert_validated_at` after its pruning step, on the pruned pool. -/
def insertPruned (pool : Mempool P) (ledger : P.Ledger) (transaction : P.SignedTransaction)
    (now : UInt64) : Except MempoolError (TransactionHash × Mempool P) :=
  match validateTimestampPolicy transaction now with
  | .error e => .error e
  | .ok () =>
  match P.transaction.validateSignedAt transaction now with
  | .error e => .error (.invalidTransaction e)
  | .ok () =>
  match pool.validateFeePolicy transaction with
  | .error e => .error e
  | .ok () =>
  match pool.replacementCandidate transaction with
  | .error e => .error e
  | .ok replacement =>
  match pool.validateAgainstLedgerExcluding ledger transaction replacement with
  | .error e => .error e
  | .ok () => pool.insertUnchecked transaction now replacement

/-- `insert_validated_at`. -/
def insertValidatedAt (pool : Mempool P) (ledger : P.Ledger) (transaction : P.SignedTransaction)
    (now : UInt64) : Mempool P × Except MempoolError TransactionHash :=
  let pool := pool.pruneExpired now
  match pool.insertPruned ledger transaction now with
  | .error e => (pool, .error e)
  | .ok (hash, pool) => (pool, .ok hash)

end Mempool

end PaqusNode
