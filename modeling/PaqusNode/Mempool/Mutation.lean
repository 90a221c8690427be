import PaqusNode.Base.Mutating
import PaqusNode.Mempool.Slots

/-!
# PaqusNode.Mempool.Mutation

The methods of the pool that take `&mut self`, statement by statement: a
computation on a pool that may stop with an error, the pool being left as
the statements before have made it.  `PaqusNode.Mempool` states the same
methods as functions; that the two agree is where it is checked that every
error exit of an insertion comes before its first change.
-/

namespace PaqusNode

namespace Mempool

/-- Code with `&mut self`. -/
abbrev PoolM (P : Paqus) : Type → Type := Mutating MempoolError (Mempool P)

namespace PoolM

open Mutating

variable {P : Paqus}

/-! ## The code -/

/-- `prune_expired`, with the number of dropped entries. -/
def pruneExpired (now : UInt64) : PoolM P Nat := do
  let before := (← get).transactions.size
  let config := (← get).config
  let kept := (← get).transactions.filter fun _ entry => retained config now entry
  modify fun pool => { pool with transactions := kept }
  modify fun pool => { pool with totalBytes := sumBytes (BTreeMap.valuesList kept) }
  return before - (← get).transactions.size

/-- `remove`. -/
def remove (hash : TransactionHash) : PoolM P (Option P.SignedTransaction) := do
  match (← get).transactions[hash]? with
  | none => return none
  | some entry =>
      modify fun pool => { pool with transactions := pool.transactions.erase hash }
      modify fun pool => { pool with
        totalBytes := pool.totalBytes - P.transaction.serializedSize entry.transaction }
      return some entry.transaction

/-- `insert_unchecked`. -/
def insertUnchecked (transaction : P.SignedTransaction) (insertedAt : UInt64)
    (replacement : Option TransactionHash) : PoolM P TransactionHash := do
  let hash := P.transaction.hash transaction
  failIf ((← get).transactions.contains hash) .duplicateTransaction
  let transactionSize := P.transaction.serializedSize transaction
  let replacementSize := (← get).replacementSize replacement
  failIf (replacement.isNone ∧ (← get).config.maxTransactions ≤ (← get).transactions.size)
    .mempoolFull
  failIf ((← get).config.maxBytes <
    min ((← get).totalBytes - replacementSize + transactionSize) usizeMax) .mempoolFull
  replacement.forM fun replaced => do
    let _ ← remove replaced
  modify fun pool => { pool with
    transactions := pool.transactions.insert hash ⟨transaction, insertedAt⟩ }
  modify fun pool => { pool with totalBytes := min (pool.totalBytes + transactionSize) usizeMax }
  return hash

/-- `insert_at`. -/
def insertAt (transaction : P.SignedTransaction) (now : UInt64) : PoolM P TransactionHash := do
  let _ ← pruneExpired now
  question (validateTimestampPolicy transaction now)
  question ((P.transaction.validateSignedAt transaction now).mapError .invalidTransaction)
  question ((← get).validateFeePolicy transaction)
  insertUnchecked transaction now none

/-- `insert_validated_at`. -/
def insertValidatedAt (ledger : P.Ledger) (transaction : P.SignedTransaction) (now : UInt64) :
    PoolM P TransactionHash := do
  let _ ← pruneExpired now
  question (validateTimestampPolicy transaction now)
  question ((P.transaction.validateSignedAt transaction now).mapError .invalidTransaction)
  question ((← get).validateFeePolicy transaction)
  let replacement ← question ((← get).replacementCandidate transaction)
  question ((← get).validateAgainstLedgerExcluding ledger transaction replacement)
  insertUnchecked transaction now replacement

/-! ## Agreement with the functions -/

section Run

variable (pool : Mempool P)

theorem run_pruneExpired (now : UInt64) :
    (pruneExpired now).run pool =
      .ok (pool.transactions.size - (pool.pruneExpired now).transactions.size)
        (pool.pruneExpired now) := rfl

theorem run_remove (hash : TransactionHash) :
    (remove hash).run pool =
      .ok ((pool.transactions[hash]?).map MempoolEntry.transaction) (pool.remove hash) := by
  unfold remove Mempool.remove
  rw [run_get_bind]
  cases pool.transactions[hash]? <;> rfl

/-- The loop over the replaced transaction, if there is one. -/
theorem run_removeReplaced (replacement : Option TransactionHash) :
    (replacement.forM fun replaced => do let _ ← remove replaced : PoolM P PUnit).run pool =
      .ok ⟨⟩ (match replacement with
        | some hash => pool.remove hash
        | none => pool) := by
  cases replacement with
  | none => rfl
  | some hash => exact run_bind_of_ok pool (run_remove pool hash) _

/-- **The statements of `insert_unchecked` do what the function says**: it
changes the pool after its last error exit only. -/
theorem run_insertUnchecked (t : P.SignedTransaction) (insertedAt : UInt64)
    (replacement : Option TransactionHash) :
    (insertUnchecked t insertedAt replacement).run pool =
      outcome pool (pool.insertUnchecked t insertedAt replacement) := by
  unfold insertUnchecked Mempool.insertUnchecked
  simp only [run_get_bind, run_failIf_bind, run_bind_of_ok _ (run_removeReplaced _ _)]
  split
  · rfl
  split
  · rfl
  split
  · rfl
  · rfl

/-- The effects of `insert_at`, in the order of the source, come to the pure function. -/
theorem run_insertAt (t : P.SignedTransaction) (now : UInt64) :
    (insertAt t now).run pool = ended (pool.insertAt t now) := by
  unfold insertAt Mempool.insertAt
  rw [run_bind_of_ok _ (run_pruneExpired pool now)]
  simp only [run_get_bind, run_question_bind]
  cases validateTimestampPolicy t now with
  | error e => rfl
  | ok _ =>
  cases P.transaction.validateSignedAt t now with
  | error e => rfl
  | ok _ =>
  simp only [Except.mapError]
  cases (pool.pruneExpired now).validateFeePolicy t with
  | error e => rfl
  | ok _ =>
  simp only [run_insertUnchecked]
  cases (pool.pruneExpired now).insertUnchecked t now none <;> rfl

/-- The same for `insert_validated_at`. -/
theorem run_insertValidatedAt (ledger : P.Ledger) (t : P.SignedTransaction) (now : UInt64) :
    (insertValidatedAt ledger t now).run pool = ended (pool.insertValidatedAt ledger t now) := by
  unfold insertValidatedAt Mempool.insertValidatedAt insertPruned
  rw [run_bind_of_ok _ (run_pruneExpired pool now)]
  simp only [run_get_bind, run_question_bind]
  cases validateTimestampPolicy t now with
  | error e => rfl
  | ok _ =>
  cases P.transaction.validateSignedAt t now with
  | error e => rfl
  | ok _ =>
  simp only [Except.mapError]
  cases (pool.pruneExpired now).validateFeePolicy t with
  | error e => rfl
  | ok _ =>
  cases (pool.pruneExpired now).replacementCandidate t with
  | error e => rfl
  | ok replacement =>
  cases hvalid : (pool.pruneExpired now).validateAgainstLedgerExcluding ledger t replacement with
  | error e =>
      simp only [hvalid]
      rfl
  | ok _ =>
  simp only [run_insertUnchecked, hvalid]
  cases (pool.pruneExpired now).insertUnchecked t now replacement <;> rfl

end Run

end PoolM

/-! ## Rejected insertions -/

variable {P : Paqus}

/-- A refused insertion has only pruned the pool. -/
theorem insertAt_of_error {pool pool' : Mempool P} {t : P.SignedTransaction} {now : UInt64}
    {e : MempoolError} (h : pool.insertAt t now = (pool', .error e)) :
    pool' = pool.pruneExpired now := by
  unfold insertAt at h
  simp only at h
  split at h
  · cases h
    rfl
  split at h
  · cases h
    rfl
  split at h
  · cases h
    rfl
  split at h
  · cases h
    rfl
  · cases h

/-- The same for `insert_validated_at`. -/
theorem insertValidatedAt_of_error {pool pool' : Mempool P} {ledger : P.Ledger}
    {t : P.SignedTransaction} {now : UInt64} {e : MempoolError}
    (h : pool.insertValidatedAt ledger t now = (pool', .error e)) :
    pool' = pool.pruneExpired now := by
  unfold insertValidatedAt at h
  simp only at h
  split at h
  · cases h
    rfl
  · cases h

/-- **A rejected insertion changes nothing but expiry**: the pool it leaves
is the pruned one, with the transaction it was meant to replace. -/
theorem rejected_insert_only_prunes (pool : Mempool P) (ledger : P.Ledger)
    (t : P.SignedTransaction) (now : UInt64) :
    (∀ e pool', (PoolM.insertAt t now).run pool = .error e pool' →
      pool' = pool.pruneExpired now) ∧
    ∀ e pool', (PoolM.insertValidatedAt ledger t now).run pool = .error e pool' →
      pool' = pool.pruneExpired now ∧
        ∀ hash, (pool.pruneExpired now).replacementCandidate t = .ok (some hash) →
          pool'.contains hash = true := by
  refine ⟨?_, ?_⟩
  · intro e pool' h
    rw [PoolM.run_insertAt] at h
    exact insertAt_of_error (Mutating.eq_of_ended_eq_error h)
  · intro e pool' h
    rw [PoolM.run_insertValidatedAt] at h
    obtain rfl := insertValidatedAt_of_error (Mutating.eq_of_ended_eq_error h)
    refine ⟨rfl, ?_⟩
    intro hash hreplacement
    rcases replacementCandidate_ok hreplacement with ⟨hnone, -⟩ | ⟨r, entry, hr, hentry, -⟩
    · cases hnone
    · cases hr
      rw [contains, BTreeMap.contains_eq_isSome, hentry]
      rfl

/-- A payment with a fee the sender cannot pay is rejected, and the payment it
was meant to replace stays. -/
theorem rejected_insert_only_prunes_of_poor_bidder :
    ∃ e pool', (PoolM.insertValidatedAt Reference.fundedLedger (Reference.payment 200 0) 0).run
        Reference.payingPool = .error e pool' ∧
      pool'.contains (Reference.payment 2 0).hash = true := by
  have hrejected : ∃ e, (Reference.payingPool.insertValidatedAt Reference.fundedLedger
      (Reference.payment 200 0) 0).2 = .error e :=
    ⟨.invalidLedgerState (.invalidState .insufficientBalance), by decide +kernel⟩
  obtain ⟨e, he⟩ := hrejected
  have hrun := PoolM.run_insertValidatedAt Reference.payingPool Reference.fundedLedger
    (Reference.payment 200 0) 0
  rw [← Prod.mk.eta (p := Reference.payingPool.insertValidatedAt _ _ _), he] at hrun
  refine ⟨e, _, hrun, ?_⟩
  exact ((rejected_insert_only_prunes Reference.payingPool Reference.fundedLedger
    (Reference.payment 200 0) 0).2 e _ hrun).2 _ (by decide +kernel)

end Mempool

end PaqusNode
