import PaqusNode.Mempool.Admission
import PaqusNode.Paqus.Reference

/-!
# PaqusNode.Mempool.Slots

One pending transaction for each sender and nonce, over whole runs of the
pool.  `replacement_candidate` stops at the first entry of the newcomer's
slot in hash order; that this is the only one is what the operations keep,
whatever ledgers and clock readings they are called with.
-/

namespace PaqusNode

namespace Mempool

variable {P : Paqus}

/-! ## Runs of the pool -/

/-- The calls that change a pool. -/
inductive Operation (P : Paqus) where
  | insertValidatedAt (ledger : P.Ledger) (transaction : P.SignedTransaction) (now : UInt64)
  | remove (hash : TransactionHash)
  | removeConfirmed (block : P.Block)
  | pruneExpired (now : UInt64)
  | clear

/-- The pool after one call. -/
def run (pool : Mempool P) : Operation P → Mempool P
  | .insertValidatedAt ledger transaction now =>
      (pool.insertValidatedAt ledger transaction now).1
  | .remove hash => pool.remove hash
  | .removeConfirmed block => pool.removeConfirmed block
  | .pruneExpired now => pool.pruneExpired now
  | .clear => pool.clear

/-- The pool after a sequence of calls. -/
def runAll (pool : Mempool P) (operations : List (Operation P)) : Mempool P :=
  operations.foldl run pool

/-! ## Well-formedness along a run -/

theorem WellFormed.withConfig (config : MempoolConfig) :
    (withConfig config : Mempool P).WellFormed := by
  constructor <;> simp [Mempool.withConfig, Keyed]

/-- The entries after `remove`. -/
theorem getElem?_remove (pool : Mempool P) (hash hash' : TransactionHash) :
    (pool.remove hash).transactions[hash']? =
      if hash = hash' then none else pool.transactions[hash']? := by
  unfold remove
  split
  · next hnone =>
      split
      · next heq => rw [← heq, hnone]
      · rfl
  · rw [BTreeMap.getElem?_erase_eq]

/-- Removing an entry keeps the pool well formed. -/
theorem WellFormed.remove {pool : Mempool P} (h : pool.WellFormed) (hash : TransactionHash) :
    (pool.remove hash).WellFormed where
  keyed _ _ hentry := by
    rw [getElem?_remove] at hentry
    split at hentry
    · cases hentry
    · exact h.keyed hentry
  unique hentry hentry' := by
    rw [getElem?_remove] at hentry hentry'
    split at hentry
    · cases hentry
    split at hentry'
    · cases hentry'
    · exact h.unique hentry hentry'

theorem WellFormed.clear (pool : Mempool P) : pool.clear.WellFormed := by
  constructor <;> simp [Mempool.clear, Keyed]

/-- **Every operation keeps the pool well formed.** -/
theorem WellFormed.run {pool : Mempool P} (h : pool.WellFormed) (operation : Operation P) :
    (pool.run operation).WellFormed := by
  cases operation with
  | insertValidatedAt ledger transaction now => exact h.insertValidatedAt ledger transaction now
  | remove hash => exact h.remove hash
  | removeConfirmed block => exact h.removeConfirmed block
  | pruneExpired now => exact h.pruneExpired now
  | clear => exact WellFormed.clear pool

theorem WellFormed.runAll {pool : Mempool P} (h : pool.WellFormed)
    (operations : List (Operation P)) : (pool.runAll operations).WellFormed := by
  induction operations generalizing pool with
  | nil => exact h
  | cons operation rest ih => exact ih (h.run operation)

/-! ## What an insertion displaces -/

/-- An entry that has not expired at `now` and is gone after an insertion at
that reading. -/
structure Displaced (pool : Mempool P) (ledger : P.Ledger) (t : P.SignedTransaction)
    (now : UInt64) (hash : TransactionHash) (entry : MempoolEntry P) : Prop where
  present : pool.transactions[hash]? = some entry
  retained : retained pool.config now entry = true
  gone : (pool.insertValidatedAt ledger t now).1.transactions[hash]? = none

/-- Only the replacement candidate of an admitted newcomer is displaced. -/
theorem Displaced.replaced {pool : Mempool P} {ledger : P.Ledger} {t : P.SignedTransaction}
    {now : UInt64} {hash : TransactionHash} {entry : MempoolEntry P}
    (h : pool.Displaced ledger t now hash entry) :
    (pool.pruneExpired now).transactions[hash]? = some entry ∧
      (pool.pruneExpired now).replacementCandidate t = .ok (some hash) ∧
      Inserted (pool.pruneExpired now) (pool.insertValidatedAt ledger t now).1 t now
        (some hash) := by
  have hkept : (pool.pruneExpired now).transactions[hash]? = some entry := by
    rw [getElem?_pruneExpired, Option.filter_eq_some_iff]
    exact ⟨h.present, h.retained⟩
  refine ⟨hkept, ?_⟩
  have hgone := h.gone
  rcases insertValidatedAt_cases pool ledger t now with
    heq | ⟨replacement, hreplacement, -, hinserted⟩
  · rw [heq, hkept] at hgone
    cases hgone
  rw [hinserted.lookup] at hgone
  split at hgone
  · cases hgone
  split at hgone
  · next hsome =>
      subst hsome
      exact ⟨hreplacement, hinserted⟩
  · rw [hkept] at hgone
    cases hgone

/-- The newcomer is in the pool, in the slot of the displaced entry, and pays
strictly more. -/
theorem Displaced.outbid {pool : Mempool P} {ledger : P.Ledger} {t : P.SignedTransaction}
    {now : UInt64} {hash : TransactionHash} {entry : MempoolEntry P}
    (h : pool.Displaced ledger t now hash entry) :
    SameSlot entry.transaction t ∧
      P.transaction.fee entry.transaction < P.transaction.fee t ∧
      (pool.insertValidatedAt ledger t now).1.transactions[P.transaction.hash t]? =
        some ⟨t, now⟩ := by
  obtain ⟨hkept, hreplacement, hinserted⟩ := h.replaced
  rcases replacementCandidate_ok hreplacement with ⟨hnone, -⟩ | ⟨r, e, hsome, he, hslot, hfee⟩
  · cases hnone
  cases hsome
  obtain rfl : e = entry := by simpa [hkept] using he.symm
  refine ⟨hslot, hfee, ?_⟩
  rw [hinserted.lookup, if_pos rfl]

theorem Displaced.hash_eq {pool : Mempool P} {ledger : P.Ledger} {t : P.SignedTransaction}
    {now : UInt64} {hash hash' : TransactionHash} {entry entry' : MempoolEntry P}
    (h : pool.Displaced ledger t now hash entry)
    (h' : pool.Displaced ledger t now hash' entry') : hash' = hash := by
  have hcandidate := h.replaced.2.1
  rw [h'.replaced.2.1] at hcandidate
  simpa using hcandidate

/-- Whatever has been called before, no two entries share sender and nonce,
and an insertion displaces nothing but one entry of the newcomer's sender and
nonce that pays strictly less. -/
theorem one_entry_per_slot (config : MempoolConfig) (operations : List (Operation P)) :
    (∀ {hash hash' : TransactionHash} {entry entry' : MempoolEntry P},
      ((withConfig config).runAll operations).transactions[hash]? = some entry →
      ((withConfig config).runAll operations).transactions[hash']? = some entry' →
      SameSlot entry.transaction entry'.transaction → hash = hash') ∧
    ∀ (ledger : P.Ledger) (t : P.SignedTransaction) (now : UInt64) {hash : TransactionHash}
      {entry : MempoolEntry P},
      ((withConfig config).runAll operations).Displaced ledger t now hash entry →
      SameSlot entry.transaction t ∧
        P.transaction.fee entry.transaction < P.transaction.fee t ∧
        (((withConfig config).runAll operations).insertValidatedAt ledger t now).1.transactions[
          P.transaction.hash t]? = some ⟨t, now⟩ ∧
        ∀ {hash' : TransactionHash} {entry' : MempoolEntry P},
          ((withConfig config).runAll operations).Displaced ledger t now hash' entry' →
          hash' = hash := by
  have hwf := (WellFormed.withConfig (P := P) config).runAll operations
  refine ⟨?_, ?_⟩
  · intro hash hash' entry entry' hentry hentry' hslot
    exact hwf.unique hentry hentry' hslot.1 hslot.2
  · intro ledger t now hash entry hdisplaced
    obtain ⟨hslot, hfee, hpresent⟩ := hdisplaced.outbid
    exact ⟨hslot, hfee, hpresent, fun h => hdisplaced.hash_eq h⟩

end Mempool

namespace Reference

/-- The miner with 100 units, no block yet. -/
def fundedLedger : Ledger Account Block := ⟨(∅ : Accounts).insert 1 ⟨1, 0, 100⟩, Chain.new _⟩

/-- Two accounts with 100 units each. -/
def sharedLedger : Ledger Account Block :=
  ⟨(∅ : Accounts).insert 1 ⟨1, 0, 100⟩ |>.insert 2 ⟨2, 0, 100⟩, Chain.new _⟩

/-- A pool that has taken in one payment of the miner. -/
def payingPool : Mempool paqus :=
  (Mempool.withConfig MempoolConfig.default).runAll
    [.insertValidatedAt fundedLedger (payment 2 0) 0]

end Reference

/-- A second payment with the same nonce and a higher fee takes the place of
the first. -/
theorem Mempool.one_entry_per_slot_of_outbid :
    ∃ entry, Reference.payingPool.Displaced Reference.fundedLedger (Reference.payment 3 0) 0
        (Reference.payment 2 0).hash entry ∧
      SameSlot entry.transaction (Reference.payment 3 0) ∧
      entry.transaction.fee < (Reference.payment 3 0).fee :=
  have hdisplaced : Reference.payingPool.Displaced Reference.fundedLedger
      (Reference.payment 3 0) 0 (Reference.payment 2 0).hash _ :=
    ⟨(Option.some_get (by decide +kernel)).symm, by decide +kernel, by decide +kernel⟩
  have hresult := (one_entry_per_slot (P := Reference.paqus) MempoolConfig.default
    [.insertValidatedAt Reference.fundedLedger (Reference.payment 2 0) 0]).2
    Reference.fundedLedger (Reference.payment 3 0) 0 hdisplaced
  ⟨_, hdisplaced, hresult.1, hresult.2.1⟩

end PaqusNode
