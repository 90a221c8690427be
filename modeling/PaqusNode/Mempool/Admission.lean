import PaqusNode.Mempool
import PaqusNode.Paqus.Laws

/-!
# PaqusNode.Mempool.Admission

What one insertion does to the pool.  A newcomer is admitted when the
sender's pending transactions, less the one it replaces, run gaplessly from
the ledger nonce up to its own; so nothing below the ledger nonce is ever
admitted or replaced, and such entries leave the pool by expiry only.
-/

namespace PaqusNode

namespace Mempool

variable {P : Paqus}

variable {pool pool' : Mempool P} {hash : TransactionHash} {t : P.SignedTransaction}
  {now expectedNonce : UInt64} {entry : MempoolEntry P} {replacement : Option TransactionHash}

/-- Every entry is filed under its own hash. -/
def Keyed (pool : Mempool P) : Prop :=
  ∀ ⦃hash : TransactionHash⦄ ⦃entry⦄, pool.transactions[hash]? = some entry →
    P.transaction.hash entry.transaction = hash

/-- Only `t` itself is pending under its hash. -/
def Apart (pool : Mempool P) (t : P.SignedTransaction) : Prop :=
  ∀ ⦃hash : TransactionHash⦄ ⦃entry⦄, pool.transactions[hash]? = some entry →
    P.transaction.hash entry.transaction = P.transaction.hash t → entry.transaction = t

/-- Entries are filed under their own hash, at most one for each sender and
nonce. -/
structure WellFormed (pool : Mempool P) : Prop where
  keyed : pool.Keyed
  unique : ∀ {hash hash' : TransactionHash} {entry entry'},
    pool.transactions[hash]? = some entry →
    pool.transactions[hash']? = some entry' →
    P.transaction.sender entry.transaction = P.transaction.sender entry'.transaction →
    P.transaction.nonce entry.transaction = P.transaction.nonce entry'.transaction → hash = hash'

theorem WellFormed.new : (new : Mempool P).WellFormed := by
  constructor <;> simp [Mempool.new, withConfig, Keyed]

theorem WellFormed.keyed_of_mem (h : pool.WellFormed) {pooled : TransactionHash × MempoolEntry P}
    (hpooled : pooled ∈ pool.transactions.toList) :
    P.transaction.hash pooled.2.transaction = pooled.1 :=
  h.keyed (Std.ExtTreeMap.mem_toList_iff_getElem?_eq_some.mp hpooled)

/-! ## Lookups -/

theorem getElem?_pruneExpired (pool : Mempool P) (now : UInt64) (hash : TransactionHash) :
    (pool.pruneExpired now).transactions[hash]? =
      (pool.transactions[hash]?).filter (retained pool.config now) := by
  simp [pruneExpired, Std.ExtTreeMap.getElem?_filter]

theorem getElem?_pruneExpired_eq_some :
    (pool.pruneExpired now).transactions[hash]? = some entry ↔
      pool.transactions[hash]? = some entry ∧ retained pool.config now entry = true := by
  rw [getElem?_pruneExpired, Option.filter_eq_some_iff]

@[simp] theorem pruneExpired_config (pool : Mempool P) (now : UInt64) :
    (pool.pruneExpired now).config = pool.config := rfl

theorem getElem?_removeConfirmed (pool : Mempool P) (block : P.Block) (hash : TransactionHash) :
    (pool.removeConfirmed block).transactions[hash]? =
      if ∃ transaction ∈ P.block.transactions block, P.transaction.hash transaction = hash then none
      else pool.transactions[hash]? :=
  BTreeMap.getElem?_foldl_erase P.transaction.hash _ _ _

/-! ## Replacement -/

/-- Same sender and nonce: only one of two such transactions can ever be
applied. -/
def SameSlot (t t' : P.SignedTransaction) : Prop :=
  P.transaction.sender t = P.transaction.sender t' ∧ P.transaction.nonce t = P.transaction.nonce t'

instance (t t' : P.SignedTransaction) : Decidable (SameSlot t t') :=
  inferInstanceAs (Decidable (_ ∧ _))

/-- What `replacement_candidate` finds. -/
theorem replacementCandidate_ok (h : pool.replacementCandidate t = .ok replacement) :
    (replacement = none ∧ ∀ {hash : TransactionHash} {entry},
        pool.transactions[hash]? = some entry → ¬SameSlot entry.transaction t) ∨
      ∃ hash entry, replacement = some hash ∧ pool.transactions[hash]? = some entry ∧
        SameSlot entry.transaction t ∧
        P.transaction.fee entry.transaction < P.transaction.fee t := by
  unfold replacementCandidate at h
  split at h
  · next hnone =>
      cases h
      refine .inl ⟨rfl, ?_⟩
      rintro hash entry hentry ⟨hsender, hnonce⟩
      have := List.find?_eq_none.mp hnone (hash, entry)
        (Std.ExtTreeMap.mem_toList_iff_getElem?_eq_some.mpr hentry)
      simp [hsender, hnonce] at this
  · next hash entry hfind =>
      split at h
      · cases h
      next hfee =>
      cases h
      have hslot := List.find?_some hfind
      simp only [Bool.and_eq_true, beq_iff_eq] at hslot
      exact .inr ⟨hash, entry, rfl, Std.ExtTreeMap.mem_toList_iff_getElem?_eq_some.mp
        (List.mem_of_find?_eq_some hfind), hslot, UInt32.not_le.mp hfee⟩

/-- In a well-formed pool the candidate is the entry of the same slot. -/
theorem replacementCandidate_of_slot (hwf : pool.WellFormed)
    (hentry : pool.transactions[hash]? = some entry) (hslot : SameSlot entry.transaction t) :
    pool.replacementCandidate t =
      if P.transaction.fee t ≤ P.transaction.fee entry.transaction then
        .error .replacementFeeTooLow
      else .ok (some hash) := by
  unfold replacementCandidate
  split
  · next hnone =>
      have := List.find?_eq_none.mp hnone (hash, entry)
        (Std.ExtTreeMap.mem_toList_iff_getElem?_eq_some.mpr hentry)
      simp [hslot.1, hslot.2] at this
  · next hash' entry' hfind =>
      have hslot' := List.find?_some hfind
      simp only [Bool.and_eq_true, beq_iff_eq] at hslot'
      have hentry' := Std.ExtTreeMap.mem_toList_iff_getElem?_eq_some.mp
        (List.mem_of_find?_eq_some hfind)
      obtain rfl := hwf.unique hentry' hentry (hslot'.1.trans hslot.1.symm)
        (hslot'.2.trans hslot.2.symm)
      obtain rfl : entry' = entry := by simpa [hentry] using hentry'.symm
      rfl

/-- In a free slot there is nothing to replace. -/
theorem replacementCandidate_of_free
    (hfree : ∀ {hash : TransactionHash} {entry}, pool.transactions[hash]? = some entry →
      ¬SameSlot entry.transaction t) : pool.replacementCandidate t = .ok none := by
  cases h : pool.replacementCandidate t with
  | ok replacement =>
      rcases replacementCandidate_ok h with ⟨rfl, -⟩ | ⟨hash, entry, -, hentry, hslot, -⟩
      · rfl
      · exact absurd hslot (hfree hentry)
  | error e =>
      unfold replacementCandidate at h
      split at h
      · cases h
      · next hash entry hfind =>
          have hslot := List.find?_some hfind
          simp only [Bool.and_eq_true, beq_iff_eq] at hslot
          exact absurd hslot (hfree (Std.ExtTreeMap.mem_toList_iff_getElem?_eq_some.mp
            (List.mem_of_find?_eq_some hfind)))

/-! ## Nonces and balance -/

/-- What a transaction takes from its sender's balance. -/
def cost (t : P.SignedTransaction) : Nat :=
  (P.transaction.amount t).toNat + (P.transaction.fee t).toNat

/-- A transaction is paid for if it has the expected nonce and its cost is there. -/
theorem spend_eq_ok {spendable left : UInt32} :
    spend expectedNonce spendable t = .ok left ↔
      P.transaction.nonce t = expectedNonce ∧ cost t ≤ spendable.toNat ∧
        left.toNat = spendable.toNat - cost t := by
  have hlt := spendable.toNat_lt
  unfold spend checkedTotal cost
  by_cases hnonce : P.transaction.nonce t = expectedNonce
  · by_cases htotal :
      (P.transaction.amount t).toNat + (P.transaction.fee t).toNat < 2 ^ 32
    · have hsum : (P.transaction.amount t + P.transaction.fee t).toNat =
          (P.transaction.amount t).toNat + (P.transaction.fee t).toNat := by
        rw [UInt32.toNat_add, Nat.mod_eq_of_lt htotal]
      simp only [hnonce, ne_eq, not_true_eq_false, if_false, htotal, if_true,
        UInt32.lt_iff_toNat_lt, hsum, true_and]
      split
      · next h =>
          exact ⟨fun h => by (cases h), fun h' => absurd h'.1 (by omega)⟩
      · next h =>
          have hle : P.transaction.amount t + P.transaction.fee t ≤ spendable := by
            rw [UInt32.le_iff_toNat_le, hsum]
            omega
          have hleft := UInt32.toNat_sub_of_le _ _ hle
          rw [hsum] at hleft
          rw [Except.ok.injEq, ← UInt32.toNat_inj, hleft]
          omega
    · simp only [hnonce, ne_eq, not_true_eq_false, if_false, htotal, true_and]
      exact ⟨fun h => by (cases h), fun h => absurd h.1 (by omega)⟩
  · simp [hnonce]

/-- The expected nonce and enough money are all it takes. -/
theorem exists_spend (spendable : UInt32) (hnonce : P.transaction.nonce t = expectedNonce)
    (hcost : cost t ≤ spendable.toNat) :
    ∃ left, spend expectedNonce spendable t = .ok left ∧
      left.toNat = spendable.toNat - cost t := by
  have hlt := spendable.toNat_lt
  have hleft : (UInt32.ofNat (spendable.toNat - cost t)).toNat = spendable.toNat - cost t :=
    UInt32.toNat_ofNat_of_lt (by simp only [UInt32.size]; omega)
  exact ⟨_, spend_eq_ok.mpr ⟨hnonce, hcost, hleft⟩, hleft⟩

/-- The pending transactions have been passed in nonce order, from the first
expected nonce on. -/
theorem spendAll_nonces {last : UInt64} {spendable left : UInt32}
    {pending : List P.SignedTransaction}
    (h : spendAll expectedNonce spendable pending = .ok (last, left)) :
    expectedNonce ≤ last ∧ ∀ t ∈ pending, expectedNonce ≤ P.transaction.nonce t ∧
      P.transaction.nonce t ≤ last := by
  induction pending generalizing expectedNonce spendable with
  | nil =>
      cases h
      exact ⟨UInt64.le_refl _, by simp⟩
  | cons t rest ih =>
      unfold spendAll at h
      split at h
      · cases h
      next middle hspend =>
      obtain ⟨hnonce, -, -⟩ := spend_eq_ok.mp hspend
      obtain ⟨hle, hall⟩ := ih h
      have hnext : expectedNonce ≤ satAdd expectedNonce 1 := by
        have := expectedNonce.toNat_lt
        simp only [UInt64.le_iff_toNat_le, toNat_satAdd, UInt64.toNat_one]
        omega
      refine ⟨UInt64.le_trans hnext hle, ?_⟩
      intro t' ht'
      rcases List.mem_cons.mp ht' with rfl | ht'
      · rw [hnonce]
        exact ⟨UInt64.le_refl _, UInt64.le_trans hnext hle⟩
      · exact ⟨UInt64.le_trans hnext (hall t' ht').1, (hall t' ht').2⟩

/-- A gapless, affordable queue passes. -/
theorem spendAll_of_range {spendable : UInt32} {pending : List P.SignedTransaction}
    (hnonces : pending.map (fun t => (P.transaction.nonce t).toNat) =
      List.range' expectedNonce.toNat pending.length)
    (hbound : expectedNonce.toNat + pending.length < 2 ^ 64)
    (hcost : (pending.map cost).sum ≤ spendable.toNat) :
    ∃ last left, spendAll expectedNonce spendable pending = .ok (last, left) ∧
      last.toNat = expectedNonce.toNat + pending.length ∧
      left.toNat = spendable.toNat - (pending.map cost).sum := by
  induction pending generalizing expectedNonce spendable with
  | nil => exact ⟨_, _, rfl, by simp, by simp⟩
  | cons t rest ih =>
      simp only [List.map_cons, List.length_cons, List.range'_succ, List.cons.injEq,
        List.sum_cons] at hnonces hbound hcost
      obtain ⟨left, hspend, hleft⟩ := exists_spend spendable
        (UInt64.toNat_inj.mp hnonces.1) (by omega)
      have hnext : (satAdd expectedNonce 1).toNat = expectedNonce.toNat + 1 := by
        rw [toNat_satAdd, UInt64.toNat_one]
        omega
      obtain ⟨last, left', hall, hlast, hleft'⟩ := ih (hnext ▸ hnonces.2) (by omega)
        (show (rest.map cost).sum ≤ left.toNat by omega)
      refine ⟨last, left', ?_, by simp only [List.length_cons]; omega, ?_⟩
      · unfold spendAll
        simp only [hspend]
        exact hall
      · simp only [List.map_cons, List.sum_cons]
        omega

/-- What a sender has pending, besides the excluded entry. -/
theorem mem_pendingFromSender {sender : Address} {excluded : Option TransactionHash} :
    t ∈ pool.pendingFromSender sender excluded ↔
      ∃ (hash : TransactionHash) (entry : _), pool.transactions[hash]? = some entry ∧
        some hash ≠ excluded ∧ entry.transaction = t ∧ P.transaction.sender t = sender := by
  simp only [pendingFromSender, List.mem_insertionSort, List.mem_filter, List.mem_map,
    Std.ExtTreeMap.mem_toList_iff_getElem?_eq_some, Prod.exists, decide_eq_true_eq, beq_iff_eq]
  constructor
  · rintro ⟨⟨hash, entry, ⟨hentry, hne⟩, ht⟩, hsender⟩
    exact ⟨hash, entry, hentry, hne, ht, hsender⟩
  · rintro ⟨hash, entry, hentry, hne, ht, hsender⟩
    exact ⟨⟨hash, entry, ⟨hentry, hne⟩, ht⟩, hsender⟩

/-- Nothing is pending twice. -/
theorem nodup_pendingFromSender (hwf : pool.WellFormed) (sender : Address)
    (excluded : Option TransactionHash) : (pool.pendingFromSender sender excluded).Nodup := by
  refine (List.perm_insertionSort _ _).nodup_iff.mpr (List.Nodup.filter _ ?_)
  refine (List.nodup_map_iff_inj_on (List.Nodup.filter _ ?_)).mpr ?_
  · exact BTreeMap.nodup_toList _
  · rintro ⟨hash, entry⟩ hmem ⟨hash', entry'⟩ hmem' heq
    have hentry := Std.ExtTreeMap.mem_toList_iff_getElem?_eq_some.mp (List.mem_filter.mp hmem).1
    have hentry' := Std.ExtTreeMap.mem_toList_iff_getElem?_eq_some.mp (List.mem_filter.mp hmem').1
    simp only at heq
    obtain rfl : hash = hash' := by rw [← hwf.keyed hentry, ← hwf.keyed hentry', heq]
    rw [hentry, Option.some.injEq] at hentry'
    rw [hentry']

/-! ## One insertion -/

/-- The pool after `t` has taken the place of `replacement`. -/
structure Inserted (pool pool' : Mempool P) (t : P.SignedTransaction) (now : UInt64)
    (replacement : Option TransactionHash) : Prop where
  fresh : pool.transactions[P.transaction.hash t]? = none
  config : pool'.config = pool.config
  lookup : ∀ hash : TransactionHash, pool'.transactions[hash]? =
    if P.transaction.hash t = hash then some ⟨t, now⟩
    else if replacement = some hash then none else pool.transactions[hash]?

/-- A successful insertion adds the transaction and takes out what it replaces. -/
theorem insertUnchecked_ok (h : pool.insertUnchecked t now replacement = .ok (hash, pool')) :
    hash = P.transaction.hash t ∧ Inserted pool pool' t now replacement := by
  unfold insertUnchecked at h
  simp only at h
  split at h
  · cases h
  next hfresh =>
  split at h
  · cases h
  split at h
  · cases h
  cases h
  have hnone : pool.transactions[P.transaction.hash t]? = none := by
    simpa using hfresh
  refine ⟨rfl, hnone, ?_, ?_⟩
  · cases replacement with
    | none => rfl
    | some r =>
        simp only [remove]
        split <;> rfl
  · intro k
    rw [BTreeMap.getElem?_insert_eq]
    cases replacement with
    | none => simp
    | some r =>
        simp only [remove, Option.some.injEq]
        split
        · rfl
        split
        · next hr =>
            split
            · next hk => rw [← hk, hr]
            · rfl
        · rw [BTreeMap.getElem?_erase_eq]

/-- The queue check of `validate_against_ledger_excluding`: nothing below the
ledger nonce is pending, and the newcomer comes last. -/
theorem validateAgainstLedgerExcluding_ok {ledger : P.Ledger} {excluded : Option TransactionHash}
    (h : pool.validateAgainstLedgerExcluding ledger t excluded = .ok ()) :
    nonceOf ledger.accounts (P.transaction.sender t) ≤ P.transaction.nonce t ∧
      ∀ pending ∈ pool.pendingFromSender (P.transaction.sender t) excluded,
        nonceOf ledger.accounts (P.transaction.sender t) ≤ P.transaction.nonce pending ∧
          P.transaction.nonce pending ≤ P.transaction.nonce t := by
  unfold validateAgainstLedgerExcluding at h
  split at h
  · cases h
  split at h
  · cases h
  split at h
  · cases h
  next sender hsender =>
  simp only at h
  split at h
  · cases h
  next last left hall =>
  split at h
  · cases h
  next hspend =>
  have hnonce : nonceOf ledger.accounts (P.transaction.sender t) = P.account.nonce sender := by
    simp only [Ledger.account] at hsender
    simp [nonceOf, hsender]
  rw [hnonce, (spend_eq_ok.mp hspend).1]
  exact spendAll_nonces hall

/-- The checks an admitted newcomer has passed. -/
theorem insertPruned_unchecked {ledger : P.Ledger}
    (h : pool.insertPruned ledger t now = .ok (hash, pool')) :
    ∃ replacement, pool.replacementCandidate t = .ok replacement ∧
      pool.validateAgainstLedgerExcluding ledger t replacement = .ok () ∧
      pool.insertUnchecked t now replacement = .ok (hash, pool') := by
  unfold insertPruned at h
  split at h
  · cases h
  split at h
  · cases h
  split at h
  · cases h
  split at h
  · cases h
  next replacement hreplacement =>
  split at h
  · cases h
  next hvalid =>
  exact ⟨replacement, hreplacement, hvalid, h⟩

theorem insertPruned_ok {ledger : P.Ledger}
    (h : pool.insertPruned ledger t now = .ok (hash, pool')) :
    ∃ replacement, pool.replacementCandidate t = .ok replacement ∧
      pool.validateAgainstLedgerExcluding ledger t replacement = .ok () ∧
      hash = P.transaction.hash t ∧ Inserted pool pool' t now replacement := by
  obtain ⟨replacement, hreplacement, hvalid, hinsert⟩ := insertPruned_unchecked h
  exact ⟨replacement, hreplacement, hvalid, insertUnchecked_ok hinsert⟩

/-- **Every way an insertion can end**: the pool only pruned, or the newcomer
in it as well. -/
theorem insertValidatedAt_cases (pool : Mempool P) (ledger : P.Ledger) (t : P.SignedTransaction)
    (now : UInt64) :
    (pool.insertValidatedAt ledger t now).1 = pool.pruneExpired now ∨
      ∃ replacement, (pool.pruneExpired now).replacementCandidate t = .ok replacement ∧
        (pool.pruneExpired now).validateAgainstLedgerExcluding ledger t replacement = .ok () ∧
        Inserted (pool.pruneExpired now) (pool.insertValidatedAt ledger t now).1 t now
          replacement := by
  unfold insertValidatedAt
  simp only
  split
  · exact .inl rfl
  · next hash pool' h =>
      obtain ⟨replacement, hreplacement, hvalid, -, hinserted⟩ := insertPruned_ok h
      exact .inr ⟨replacement, hreplacement, hvalid, hinserted⟩

theorem insertValidatedAt_config (pool : Mempool P) (ledger : P.Ledger) (t : P.SignedTransaction)
    (now : UInt64) : (pool.insertValidatedAt ledger t now).1.config = pool.config := by
  rcases insertValidatedAt_cases pool ledger t now with h | ⟨_, -, -, h⟩
  · rw [h]
    rfl
  · rw [h.config]
    rfl

/-! ## Well-formedness is kept -/

/-- Pruning keeps the pool well formed. -/
theorem WellFormed.pruneExpired (h : pool.WellFormed) (now : UInt64) :
    (pool.pruneExpired now).WellFormed where
  keyed _ _ hentry := by
    rw [getElem?_pruneExpired, Option.filter_eq_some_iff] at hentry
    exact h.keyed hentry.1
  unique hentry hentry' := by
    rw [getElem?_pruneExpired, Option.filter_eq_some_iff] at hentry hentry'
    exact h.unique hentry.1 hentry'.1

/-- Confirming a block keeps the pool well formed. -/
theorem WellFormed.removeConfirmed (h : pool.WellFormed) (block : P.Block) :
    (pool.removeConfirmed block).WellFormed where
  keyed _ _ hentry := by
    rw [getElem?_removeConfirmed] at hentry
    split at hentry
    · cases hentry
    · exact h.keyed hentry
  unique hentry hentry' := by
    rw [getElem?_removeConfirmed] at hentry hentry'
    split at hentry
    · cases hentry
    split at hentry'
    · cases hentry'
    · exact h.unique hentry hentry'

/-- The entry that shares the newcomer's slot is the one it replaces. -/
theorem replaced_of_sameSlot (hwf : pool.WellFormed)
    (hreplacement : pool.replacementCandidate t = .ok replacement)
    (hentry : pool.transactions[hash]? = some entry) (hslot : SameSlot entry.transaction t) :
    replacement = some hash := by
  rcases replacementCandidate_ok hreplacement with ⟨-, hfree⟩ | ⟨r, e, rfl, he, hslot', -⟩
  · exact absurd hslot (hfree hentry)
  · rw [hwf.unique he hentry (hslot'.1.trans hslot.1.symm) (hslot'.2.trans hslot.2.symm)]

/-- An entry of another slot is not replaced. -/
theorem not_replaced_of_slot (hreplacement : pool.replacementCandidate t = .ok replacement)
    (hentry : pool.transactions[hash]? = some entry) (hslot : ¬SameSlot entry.transaction t) :
    some hash ≠ replacement := by
  rintro rfl
  rcases replacementCandidate_ok hreplacement with ⟨hnone, -⟩ | ⟨r, e, hsome, he, hslot', -⟩
  · cases hnone
  · cases hsome
    rw [hentry, Option.some.injEq] at he
    exact hslot (he ▸ hslot')

/-- An insertion that replaces its candidate keeps the pool well formed. -/
theorem WellFormed.inserted (h : pool.WellFormed)
    (hreplacement : pool.replacementCandidate t = .ok replacement)
    (hinserted : Inserted pool pool' t now replacement) : pool'.WellFormed where
  keyed {hash entry} hentry := by
    rw [hinserted.lookup] at hentry
    split at hentry
    · next heq =>
        cases hentry
        exact heq
    split at hentry
    · cases hentry
    · exact h.keyed hentry
  unique {hash hash' entry entry'} hentry hentry' hsender hnonce := by
    rw [hinserted.lookup] at hentry hentry'
    split at hentry
    · next heq =>
        cases hentry
        split at hentry'
        · next heq' => rw [← heq, ← heq']
        split at hentry'
        · cases hentry'
        · next hne =>
            exact absurd (replaced_of_sameSlot h hreplacement hentry' ⟨hsender.symm, hnonce.symm⟩)
              hne
    split at hentry
    · cases hentry
    · next hne =>
        split at hentry'
        · cases hentry'
          exact absurd (replaced_of_sameSlot h hreplacement hentry ⟨hsender, hnonce⟩) hne
        split at hentry'
        · cases hentry'
        · exact h.unique hentry hentry' hsender hnonce

theorem WellFormed.insertValidatedAt (h : pool.WellFormed) (ledger : P.Ledger)
    (t : P.SignedTransaction) (now : UInt64) :
    (pool.insertValidatedAt ledger t now).1.WellFormed := by
  rcases insertValidatedAt_cases pool ledger t now with heq | ⟨_, hreplacement, -, hinserted⟩
  · rw [heq]
    exact h.pruneExpired now
  · exact (h.pruneExpired now).inserted hreplacement hinserted

/-- The ledger nonce of the sender has passed the transaction. -/
def Spent (ledger : P.Ledger) (t : P.SignedTransaction) : Prop :=
  P.transaction.nonce t < nonceOf ledger.accounts (P.transaction.sender t)

instance (ledger : P.Ledger) (t : P.SignedTransaction) : Decidable (Spent ledger t) :=
  inferInstanceAs (Decidable (_ < _))

/-- **Below the ledger nonce the pool changes by expiry only.** -/
theorem getElem?_insertValidatedAt_of_spent (ledger : P.Ledger) (t : P.SignedTransaction)
    (now : UInt64)
    (hpooled : ∀ {entry}, pool.transactions[hash]? = some entry → Spent ledger entry.transaction)
    (hoffered : P.transaction.hash t = hash → Spent ledger t) :
    (pool.insertValidatedAt ledger t now).1.transactions[hash]? =
      (pool.transactions[hash]?).filter (retained pool.config now) := by
  rw [← getElem?_pruneExpired]
  rcases insertValidatedAt_cases pool ledger t now with
    heq | ⟨replacement, hreplacement, hvalid, hinserted⟩
  · rw [heq]
  obtain ⟨hnonce, -⟩ := validateAgainstLedgerExcluding_ok hvalid
  rw [hinserted.lookup, if_neg, if_neg]
  · rintro rfl
    rcases replacementCandidate_ok hreplacement with ⟨hnone, -⟩ | ⟨r, e, hsome, he, hslot, -⟩
    · cases hnone
    · cases hsome
      have hlt := hpooled (getElem?_pruneExpired_eq_some.mp he).1
      rw [Spent, hslot.1, hslot.2] at hlt
      exact UInt64.not_lt.mpr hnonce hlt
  · intro heq
    exact UInt64.not_lt.mpr hnonce (hoffered heq)

/-! ## Many insertions -/

/-- Insertions one after the other, each at its own clock reading, results
discarded. -/
def insertAll (pool : Mempool P) (ledger : P.Ledger)
    (offers : List (P.SignedTransaction × UInt64)) : Mempool P :=
  offers.foldl (fun pool offer => (pool.insertValidatedAt ledger offer.1 offer.2).1) pool

theorem insertAll_config (ledger : P.Ledger) (offers : List (P.SignedTransaction × UInt64))
    (pool : Mempool P) : (pool.insertAll ledger offers).config = pool.config := by
  induction offers generalizing pool with
  | nil => rfl
  | cons offer rest ih => exact (ih _).trans (insertValidatedAt_config pool ledger _ _)

theorem WellFormed.insertAll (ledger : P.Ledger) (offers : List (P.SignedTransaction × UInt64))
    (h : pool.WellFormed) : (pool.insertAll ledger offers).WellFormed := by
  induction offers generalizing pool with
  | nil => exact h
  | cons offer rest ih => exact ih (h.insertValidatedAt ledger offer.1 offer.2)

/-- What is in the pool after the insertions was in it before or is one of
the offers. -/
theorem of_getElem?_insertAll (ledger : P.Ledger) {offers : List (P.SignedTransaction × UInt64)}
    (h : (pool.insertAll ledger offers).transactions[hash]? = some entry) :
    pool.transactions[hash]? = some entry ∨ ∃ offer ∈ offers, offer.1 = entry.transaction := by
  induction offers generalizing pool with
  | nil => exact .inl h
  | cons offer rest ih =>
      have hrest : ((pool.insertValidatedAt ledger offer.1 offer.2).1.insertAll ledger
        rest).transactions[hash]? = some entry := h
      rcases ih hrest with hentry | ⟨offer', hoffer', heq⟩
      · rcases insertValidatedAt_cases pool ledger offer.1 offer.2 with heq | ⟨_, -, -, hinserted⟩
        · rw [heq] at hentry
          exact .inl (getElem?_pruneExpired_eq_some.mp hentry).1
        rw [hinserted.lookup] at hentry
        split at hentry
        · cases hentry
          exact .inr ⟨offer, List.mem_cons_self, rfl⟩
        split at hentry
        · cases hentry
        · exact .inl (getElem?_pruneExpired_eq_some.mp hentry).1
      · exact .inr ⟨offer', List.mem_cons_of_mem _ hoffer', heq⟩

/-- Below the ledger nonce an entry survives the insertions exactly if it
expires at none of their readings. -/
theorem getElem?_insertAll_of_spent (ledger : P.Ledger)
    {offers : List (P.SignedTransaction × UInt64)}
    (hpooled : ∀ {entry}, pool.transactions[hash]? = some entry → Spent ledger entry.transaction)
    (hoffered : ∀ offer ∈ offers, P.transaction.hash offer.1 = hash → Spent ledger offer.1) :
    (pool.insertAll ledger offers).transactions[hash]? = (pool.transactions[hash]?).filter
      fun entry => offers.all fun offer => retained pool.config offer.2 entry := by
  induction offers generalizing pool with
  | nil =>
      simp only [Mempool.insertAll, List.foldl_nil, List.all_nil]
      cases pool.transactions[hash]? <;> rfl
  | cons offer rest ih =>
      rw [List.forall_mem_cons] at hoffered
      have hone := getElem?_insertValidatedAt_of_spent ledger offer.1 offer.2 hpooled hoffered.1
      have hpooled' : ∀ {entry}, (pool.insertValidatedAt ledger offer.1
          offer.2).1.transactions[hash]? = some entry → Spent ledger entry.transaction := by
        intro entry hentry
        rw [hone, Option.filter_eq_some_iff] at hentry
        exact hpooled hentry.1
      have hrest := ih hpooled' hoffered.2
      rw [insertValidatedAt_config, hone, Option.filter_filter] at hrest
      simp only [List.all_cons]
      exact hrest

end Mempool

end PaqusNode
