import PaqusNode.Base.Gapless
import PaqusNode.Mempool.Slots

/-!
# PaqusNode.Mempool.Queue

The queue of one sender: its pending transactions in nonce order.  The queue
can be executed when its nonces run gaplessly from the ledger nonce and the
balance covers the exact sum of its costs.  An admission leaves such a queue
behind, with the newcomer at its end; expiry keeps it gapless only when what
expires is at its end.
-/

namespace PaqusNode

namespace Mempool

variable {P : Paqus}

variable {pool : Mempool P} {ledger : P.Ledger} {hash : TransactionHash} {t : P.SignedTransaction}
  {sender : Address} {excluded : Option TransactionHash} {start now : UInt64}
  {queue : List P.SignedTransaction}

/-- At most one entry for each sender and nonce. -/
def OnePerSlot (pool : Mempool P) : Prop :=
  ∀ ⦃hash hash' : TransactionHash⦄ ⦃entry entry' : MempoolEntry P⦄,
    pool.transactions[hash]? = some entry → pool.transactions[hash']? = some entry' →
    SameSlot entry.transaction entry'.transaction → hash = hash'

/-- The nonces of the list run gaplessly from `start`. -/
def Contiguous (start : UInt64) (queue : List P.SignedTransaction) : Prop :=
  Gapless start.toNat (queue.map fun t => (P.transaction.nonce t).toNat)

instance (start : UInt64) (queue : List P.SignedTransaction) : Decidable (Contiguous start queue) :=
  inferInstanceAs (Decidable (Gapless _ _))

/-- The list can be applied to the account in its order: gapless from the
account's nonce, each cost an amount, their exact sum covered. -/
structure Executable (account : P.Account) (height : UInt64) (queue : List P.SignedTransaction) :
    Prop where
  contiguous : Contiguous (P.account.nonce account) queue
  fits : ∀ t ∈ queue, cost t < 2 ^ 32
  covered : (queue.map cost).sum ≤ (P.account.availableBalanceAt account height).toNat

/-! ## The pending transactions of a sender -/

theorem WellFormed.onePerSlot (h : pool.WellFormed) : pool.OnePerSlot :=
  fun _ _ _ _ hentry hentry' hslot => h.unique hentry hentry' hslot.1 hslot.2

theorem OnePerSlot.pruneExpired (h : pool.OnePerSlot) (now : UInt64) :
    (pool.pruneExpired now).OnePerSlot := by
  intro hash hash' entry entry' hentry hentry'
  rw [getElem?_pruneExpired, Option.filter_eq_some_iff] at hentry hentry'
  exact h hentry.1 hentry'.1

/-- What a sender has pending is in the order of the nonces. -/
theorem pendingFromSender_sorted (pool : Mempool P) (sender : Address)
    (excluded : Option TransactionHash) :
    (pool.pendingFromSender sender excluded).Pairwise fun a b =>
      P.transaction.nonce a ≤ P.transaction.nonce b := by
  have : Std.Total fun a b : P.SignedTransaction =>
      P.transaction.nonce a ≤ P.transaction.nonce b := ⟨fun _ _ => UInt64.le_total _ _⟩
  have : IsTrans P.SignedTransaction fun a b =>
      P.transaction.nonce a ≤ P.transaction.nonce b := ⟨fun _ _ _ => UInt64.le_trans⟩
  exact List.pairwise_insertionSort _ _

/-- The entries behind the pending transactions of a sender. -/
def entriesFromSender (pool : Mempool P) (sender : Address) (excluded : Option TransactionHash) :
    List (TransactionHash × MempoolEntry P) :=
  pool.transactions.toList.filter fun (hash, entry) =>
    decide (some hash ≠ excluded ∧ P.transaction.sender entry.transaction = sender)

theorem mem_entriesFromSender {entry : MempoolEntry P} :
    (hash, entry) ∈ pool.entriesFromSender sender excluded ↔
      pool.transactions[hash]? = some entry ∧ some hash ≠ excluded ∧
        P.transaction.sender entry.transaction = sender := by
  simp only [entriesFromSender, List.mem_filter, Std.ExtTreeMap.mem_toList_iff_getElem?_eq_some,
    decide_eq_true_eq]

theorem nodup_entriesFromSender (pool : Mempool P) (sender : Address)
    (excluded : Option TransactionHash) : (pool.entriesFromSender sender excluded).Nodup :=
  (BTreeMap.nodup_toList _).filter _

/-- It is the sender's entries, in another order. -/
theorem pendingFromSender_perm_entries (pool : Mempool P) (sender : Address)
    (excluded : Option TransactionHash) :
    (pool.pendingFromSender sender excluded).Perm
      ((pool.entriesFromSender sender excluded).map fun e => e.2.transaction) := by
  refine (List.perm_insertionSort _ _).trans (List.Perm.of_eq ?_)
  rw [List.filter_map, List.filter_filter]
  refine congrArg (List.map _) (List.filter_congr ?_)
  intro e _
  simp [Bool.and_comm, Function.comp, beq_eq_decide]

/-- So are its nonces. -/
theorem nonces_perm_entries (pool : Mempool P) (sender : Address)
    (excluded : Option TransactionHash) :
    ((pool.pendingFromSender sender excluded).map fun t => (P.transaction.nonce t).toNat).Perm
      ((pool.entriesFromSender sender excluded).map
        fun e => (P.transaction.nonce e.2.transaction).toNat) := by
  have hperm := (pendingFromSender_perm_entries pool sender excluded).map
    fun t => (P.transaction.nonce t).toNat
  rwa [List.map_map] at hperm

/-- The nonces of a queue are strictly ascending. -/
theorem OnePerSlot.nonces_sorted (h : pool.OnePerSlot) (sender : Address)
    (excluded : Option TransactionHash) :
    ((pool.pendingFromSender sender excluded).map
      fun t => (P.transaction.nonce t).toNat).Pairwise (· < ·) := by
  have hnodup : ((pool.pendingFromSender sender excluded).map
      fun t => (P.transaction.nonce t).toNat).Nodup := by
    rw [(nonces_perm_entries pool sender excluded).nodup_iff,
      List.nodup_map_iff_inj_on (nodup_entriesFromSender _ _ _)]
    rintro ⟨hash, entry⟩ hmem ⟨hash', entry'⟩ hmem' hnonce
    obtain ⟨hentry, -, hsender⟩ := mem_entriesFromSender.mp hmem
    obtain ⟨hentry', -, hsender'⟩ := mem_entriesFromSender.mp hmem'
    obtain rfl := h hentry hentry' ⟨hsender.trans hsender'.symm, UInt64.toNat_inj.mp hnonce⟩
    rw [hentry, Option.some.injEq] at hentry'
    rw [hentry']
  have hsorted : ((pool.pendingFromSender sender excluded).map
      fun t => (P.transaction.nonce t).toNat).Pairwise (· ≤ ·) :=
    List.pairwise_map.mpr
      ((pendingFromSender_sorted pool sender excluded).imp UInt64.le_iff_toNat_le.mp)
  exact hsorted.imp₂ (fun _ _ hle hne => Nat.lt_of_le_of_ne hle hne) hnodup

/-- A pool in which every queue is gapless has one entry for each slot. -/
theorem onePerSlot_of_contiguous (start : Address → UInt64)
    (h : ∀ sender, Contiguous (start sender) (pool.pendingFromSender sender none)) :
    pool.OnePerSlot := by
  intro hash hash' entry entry' hentry hentry' hslot
  have hnodup := (h (P.transaction.sender entry.transaction)).nodup
  rw [(nonces_perm_entries _ _ _).nodup_iff,
    List.nodup_map_iff_inj_on (nodup_entriesFromSender _ _ _)] at hnodup
  have heq := hnodup (hash, entry) (mem_entriesFromSender.mpr ⟨hentry, by simp, rfl⟩)
    (hash', entry') (mem_entriesFromSender.mpr ⟨hentry', by simp, hslot.1.symm⟩)
    (congrArg UInt64.toNat hslot.2)
  exact congrArg Prod.fst heq

/-- The nonces of a queue. -/
theorem mem_nonces {n : Nat} :
    n ∈ (pool.pendingFromSender sender excluded).map (fun t => (P.transaction.nonce t).toNat) ↔
      ∃ (hash : TransactionHash) (entry : _), pool.transactions[hash]? = some entry ∧
        some hash ≠ excluded ∧ P.transaction.sender entry.transaction = sender ∧
        (P.transaction.nonce entry.transaction).toNat = n := by
  rw [(nonces_perm_entries pool sender excluded).mem_iff, List.mem_map]
  constructor
  · rintro ⟨⟨hash, entry⟩, hmem, hnonce⟩
    obtain ⟨hentry, hne, hsender⟩ := mem_entriesFromSender.mp hmem
    exact ⟨hash, entry, hentry, hne, hsender, hnonce⟩
  · rintro ⟨hash, entry, hentry, hne, hsender, hnonce⟩
    exact ⟨(hash, entry), mem_entriesFromSender.mpr ⟨hentry, hne, hsender⟩, hnonce⟩

/-- A sorted queue is determined by its members, if these are gapless in some
order. -/
theorem pendingFromSender_eq_of_perm (hperm : (pool.pendingFromSender sender excluded).Perm queue)
    (hqueue : Contiguous start queue) : pool.pendingFromSender sender excluded = queue := by
  have hsorted : queue.Pairwise fun a b => P.transaction.nonce a ≤ P.transaction.nonce b := by
    refine (List.pairwise_map.mp hqueue.sorted).imp ?_
    intro a b hlt
    exact UInt64.le_iff_toNat_le.mpr (Nat.le_of_lt hlt)
  refine hperm.eq_of_pairwise ?_ (pendingFromSender_sorted pool sender excluded) hsorted
  intro a b ha hb hab hba
  exact List.inj_on_of_nodup_map hqueue.nodup (hperm.mem_iff.mp ha) hb
    (congrArg UInt64.toNat (UInt64.le_antisymm hab hba))

theorem contiguous_concat_iff :
    Contiguous start (queue ++ [t]) ↔ Contiguous start queue ∧
      (P.transaction.nonce t).toNat = start.toNat + queue.length := by
  unfold Contiguous
  rw [List.map_append, List.map_singleton, gapless_concat_iff, List.length_map]

/-- A queue whose nonces are those below the newcomer's, from `start` on, is
gapless with the newcomer at its end. -/
theorem OnePerSlot.contiguous_concat (h : pool.OnePerSlot) (hle : start ≤ P.transaction.nonce t)
    (hmem : ∀ n, n ∈ (pool.pendingFromSender sender excluded).map
        (fun t => (P.transaction.nonce t).toNat) ↔
      start.toNat ≤ n ∧ n < (P.transaction.nonce t).toNat) :
    Contiguous start (pool.pendingFromSender sender excluded ++ [t]) := by
  obtain ⟨hgapless, hlength⟩ := Gapless.of_mem_iff (h.nonces_sorted sender excluded)
    (UInt64.le_iff_toNat_le.mp hle) hmem
  rw [List.length_map] at hlength
  exact contiguous_concat_iff.mpr ⟨hgapless, hlength.symm⟩

/-- Nonces do not wrap around. -/
theorem Contiguous.bound (h : Contiguous start queue) : start.toNat + queue.length ≤ 2 ^ 64 := by
  have hstart := start.toNat_lt
  by_cases hempty : queue.length = 0
  · omega
  · have hlast : start.toNat + queue.length - 1 ∈
        queue.map fun t => (P.transaction.nonce t).toNat := by
      rw [h.mem_iff, List.length_map]
      omega
    obtain ⟨t, -, ht⟩ := List.mem_map.mp hlast
    have hbound := (P.transaction.nonce t).toNat_lt
    omega

/-! ## An admission completes the queue -/

/-- The queue check passes gapless queues only, and takes the exact sum of
the costs off the balance. -/
theorem spendAll_contiguous {expectedNonce last : UInt64} {spendable left : UInt32}
    {pending : List P.SignedTransaction}
    (h : spendAll expectedNonce spendable pending = .ok (last, left))
    (hlast : ∀ t ∈ pending, P.transaction.nonce t ≠ last) :
    Contiguous expectedNonce pending ∧ last.toNat = expectedNonce.toNat + pending.length ∧
      (pending.map cost).sum + left.toNat = spendable.toNat := by
  induction pending generalizing expectedNonce spendable with
  | nil =>
      cases h
      exact ⟨gapless_nil, rfl, by simp⟩
  | cons t rest ih =>
      unfold spendAll at h
      split at h
      · cases h
      next middle hspend =>
      obtain ⟨hnonce, hcost, hmiddle⟩ := spend_eq_ok.mp hspend
      obtain ⟨hle, -⟩ := spendAll_nonces h
      have hne := hlast t List.mem_cons_self
      -- at the largest nonce the increment would stand still
      have hnext : (satAdd expectedNonce 1).toNat = expectedNonce.toNat + 1 := by
        have hbound := expectedNonce.toNat_lt
        have hlt := last.toNat_lt
        rw [hnonce, ← UInt64.toNat_inj.ne] at hne
        rw [UInt64.le_iff_toNat_le, toNat_satAdd, UInt64.toNat_one] at hle
        rw [toNat_satAdd, UInt64.toNat_one]
        omega
      obtain ⟨hrest, hlength, hsum⟩ := ih h
        fun t' ht' => hlast t' (List.mem_cons_of_mem _ ht')
      refine ⟨?_, ?_, ?_⟩
      · refine gapless_cons.mpr ⟨congrArg UInt64.toNat hnonce, ?_⟩
        rw [← hnext]
        exact hrest
      · rw [hlength, hnext, List.length_cons]
        omega
      · rw [List.map_cons, List.sum_cons]
        omega

/-- What the sender has pending after an insertion: what it had besides the
replaced transaction, and the newcomer. -/
theorem Inserted.pendingFromSender_perm {pool' : Mempool P} {replacement : Option TransactionHash}
    (h : Inserted pool pool' t now replacement) :
    (pool'.pendingFromSender (P.transaction.sender t) none).Perm
      (pool.pendingFromSender (P.transaction.sender t) replacement ++ [t]) := by
  have hentries : (pool'.entriesFromSender (P.transaction.sender t) none).Perm
      (pool.entriesFromSender (P.transaction.sender t) replacement ++
        [(P.transaction.hash t, ⟨t, now⟩)]) := by
    refine (List.perm_ext_iff_of_nodup (nodup_entriesFromSender _ _ _) ?_).mpr ?_
    · refine (nodup_entriesFromSender _ _ _).append (List.nodup_singleton _) ?_
      rintro ⟨hash, entry⟩ hmem hsingle
      cases List.mem_singleton.mp hsingle
      have hpresent := (mem_entriesFromSender.mp hmem).1
      rw [h.fresh] at hpresent
      cases hpresent
    · rintro ⟨hash, entry⟩
      rw [List.mem_append, List.mem_singleton, mem_entriesFromSender, mem_entriesFromSender,
        h.lookup]
      by_cases hhash : P.transaction.hash t = hash
      · subst hhash
        simp only [if_true, Option.some.injEq, Prod.mk.injEq, true_and, h.fresh]
        constructor
        · rintro ⟨rfl, -, -⟩
          exact .inr rfl
        · rintro (⟨hnone, -⟩ | rfl)
          · cases hnone
          · exact ⟨rfl, by simp, rfl⟩
      · by_cases hreplaced : replacement = some hash
        · simp [hhash, hreplaced, Ne.symm hhash]
        · simp [hhash, hreplaced, Ne.symm hhash, Ne.symm hreplaced]
  have hmap := hentries.map fun e => e.2.transaction
  rw [List.map_append, List.map_singleton] at hmap
  exact (pendingFromSender_perm_entries _ _ _).trans
    (hmap.trans ((pendingFromSender_perm_entries _ _ _).symm.append_right _))

/-- A queue without gaps whose sum is covered can be executed. -/
theorem Executable.of_covered {account : P.Account} {height : UInt64}
    (hqueue : Contiguous (P.account.nonce account) queue)
    (hcovered : (queue.map cost).sum ≤ (P.account.availableBalanceAt account height).toNat) :
    Executable account height queue where
  contiguous := hqueue
  fits t ht := by
    have hle := List.single_le_sum (fun _ _ => Nat.zero_le _) _ (List.mem_map_of_mem (f := cost) ht)
    have hlt := (P.account.availableBalanceAt account height).toNat_lt
    omega
  covered := hcovered

/-- What `validate_against_ledger_excluding` has checked when it passes, for a
newcomer whose nonce is not pending otherwise. -/
theorem validateAgainstLedgerExcluding_queue
    (h : pool.validateAgainstLedgerExcluding ledger t excluded = .ok ())
    (hfree : ∀ pending ∈ pool.pendingFromSender (P.transaction.sender t) excluded,
      P.transaction.nonce pending ≠ P.transaction.nonce t) :
    ∃ account, ledger.account (P.transaction.sender t) = some account ∧
      Executable account ((P.ledger.tipHeight ledger).getD 0)
        (pool.pendingFromSender (P.transaction.sender t) excluded ++ [t]) := by
  unfold validateAgainstLedgerExcluding at h
  split at h
  · cases h
  split at h
  · cases h
  split at h
  · cases h
  next account haccount =>
  simp only at h
  split at h
  · cases h
  next last left hall =>
  split at h
  · cases h
  next hspend =>
  obtain ⟨hnonce, hcost, -⟩ := spend_eq_ok.mp hspend
  rw [hnonce] at hfree
  obtain ⟨hqueue, hlast, hsum⟩ := spendAll_contiguous hall hfree
  refine ⟨account, haccount, .of_covered ?_ ?_⟩
  · refine contiguous_concat_iff.mpr ⟨hqueue, ?_⟩
    rw [hnonce, hlast]
  · rw [List.map_append, List.sum_append, List.map_singleton, List.sum_singleton]
    omega

/-- **The queue check, read backwards**: a queue that is executable with the
newcomer at its end passes. -/
theorem validateAgainstLedgerExcluding_of_executable {account : P.Account}
    (hsigned : P.transaction.validateSigned t = .ok ()) (hfee : pool.validateFeePolicy t = .ok ())
    (haccount : ledger.account (P.transaction.sender t) = some account)
    (hqueue : Executable account ((P.ledger.tipHeight ledger).getD 0)
      (pool.pendingFromSender (P.transaction.sender t) excluded ++ [t])) :
    pool.validateAgainstLedgerExcluding ledger t excluded = .ok () := by
  obtain ⟨hpending, hlast⟩ := contiguous_concat_iff.mp hqueue.contiguous
  have hcovered := hqueue.covered
  rw [List.map_append, List.sum_append, List.map_singleton, List.sum_singleton] at hcovered
  have hbound := (P.transaction.nonce t).toNat_lt
  unfold Contiguous Gapless at hpending
  rw [List.length_map] at hpending
  obtain ⟨last, left, hspendAll, hlastNonce, hleft⟩ := spendAll_of_range hpending (by omega)
    (Nat.le_trans (Nat.le_add_right _ _) hcovered)
  obtain ⟨rest, hspend, -⟩ := exists_spend left
    (UInt64.toNat_inj.mp (hlast.trans hlastNonce.symm)) (by omega)
  unfold validateAgainstLedgerExcluding
  simp only [hsigned, hfee, haccount, hspendAll, hspend]

/-- A newcomer that passes all checks and has room goes in. -/
theorem insertPruned_of_valid {replacement : Option TransactionHash}
    (htimestamp : validateTimestampPolicy t now = .ok ())
    (hsignedAt : P.transaction.validateSignedAt t now = .ok ())
    (hfee : pool.validateFeePolicy t = .ok ())
    (hreplacement : pool.replacementCandidate t = .ok replacement)
    (hvalid : pool.validateAgainstLedgerExcluding ledger t replacement = .ok ())
    (hfresh : pool.transactions[P.transaction.hash t]? = none)
    (hroom : replacement = none → pool.transactions.size < pool.config.maxTransactions)
    (hbytes : pool.totalBytes - pool.replacementSize replacement +
      P.transaction.serializedSize t ≤ pool.config.maxBytes) :
    ∃ pool', pool.insertPruned ledger t now = .ok (P.transaction.hash t, pool') := by
  have hcontains : pool.transactions.contains (P.transaction.hash t) = false := by
    rw [BTreeMap.contains_eq_isSome, hfresh]
    rfl
  have hplace : ¬(replacement.isNone ∧ pool.config.maxTransactions ≤ pool.transactions.size) := by
    rintro ⟨hnone, hfull⟩
    exact absurd (hroom (Option.isNone_iff_eq_none.mp hnone)) (Nat.not_lt.mpr hfull)
  have hfits : ¬pool.config.maxBytes < min (pool.totalBytes - pool.replacementSize replacement +
      P.transaction.serializedSize t) usizeMax := by
    omega
  unfold insertPruned insertUnchecked
  simp only [htimestamp, hsignedAt, hfee, hreplacement, hvalid, hcontains, Bool.false_eq_true,
    if_false, hplace, hfits]
  exact ⟨_, rfl⟩

/-- The nonce of a newcomer is not pending once its replacement is set
aside. -/
theorem OnePerSlot.nonce_ne (h : pool.OnePerSlot) {replacement : Option TransactionHash}
    (hreplacement : pool.replacementCandidate t = .ok replacement) :
    ∀ pending ∈ pool.pendingFromSender (P.transaction.sender t) replacement,
      P.transaction.nonce pending ≠ P.transaction.nonce t := by
  intro pending hmem hnonce
  obtain ⟨hash, entry, hentry, hne, rfl, hsender⟩ := mem_pendingFromSender.mp hmem
  rcases replacementCandidate_ok hreplacement with ⟨-, hfree⟩ | ⟨r, e, rfl, he, hslot, -⟩
  · exact hfree hentry ⟨hsender, hnonce⟩
  · exact hne (congrArg some
      (h hentry he ⟨hsender.trans hslot.1.symm, hnonce.trans hslot.2.symm⟩))

/-- What an accepted transaction has passed. -/
theorem insertValidatedAt_ok (haccepted : (pool.insertValidatedAt ledger t now).2 = .ok hash) :
    ∃ replacement, (pool.pruneExpired now).replacementCandidate t = .ok replacement ∧
      (pool.pruneExpired now).validateAgainstLedgerExcluding ledger t replacement = .ok () ∧
      Inserted (pool.pruneExpired now) (pool.insertValidatedAt ledger t now).1 t now
        replacement := by
  unfold insertValidatedAt at haccepted ⊢
  simp only at haccepted ⊢
  cases hinsert : (pool.pruneExpired now).insertPruned ledger t now with
  | error e =>
      rw [hinsert] at haccepted
      cases haccepted
  | ok result =>
      obtain ⟨hash', pool'⟩ := result
      obtain ⟨replacement, hreplacement, hvalid, -, hinserted⟩ := insertPruned_ok hinsert
      exact ⟨replacement, hreplacement, hvalid, hinserted⟩

/-- The queue that an accepted transaction leaves behind, with it at the
end. -/
theorem executable_of_accepted (hslots : pool.OnePerSlot)
    (haccepted : (pool.insertValidatedAt ledger t now).2 = .ok hash) :
    ∃ account earlier, ledger.account (P.transaction.sender t) = some account ∧
      (pool.insertValidatedAt ledger t now).1.pendingFromSender (P.transaction.sender t) none =
        earlier ++ [t] ∧
      Executable account ((P.ledger.tipHeight ledger).getD 0) (earlier ++ [t]) := by
  obtain ⟨replacement, hreplacement, hvalid, hinserted⟩ := insertValidatedAt_ok haccepted
  obtain ⟨account, haccount, hqueue⟩ := validateAgainstLedgerExcluding_queue hvalid
    ((hslots.pruneExpired now).nonce_ne hreplacement)
  exact ⟨account, _, haccount,
    pendingFromSender_eq_of_perm hinserted.pendingFromSender_perm hqueue.contiguous, hqueue⟩

/-- Nothing of the sender comes after an accepted transaction. -/
theorem nonce_le_of_accepted (hslots : pool.OnePerSlot)
    (haccepted : (pool.insertValidatedAt ledger t now).2 = .ok hash) :
    ∀ pending ∈ (pool.insertValidatedAt ledger t now).1.pendingFromSender
      (P.transaction.sender t) none, P.transaction.nonce pending ≤ P.transaction.nonce t := by
  obtain ⟨account, earlier, -, heq, -⟩ := executable_of_accepted hslots haccepted
  have hsorted := pendingFromSender_sorted
    (pool.insertValidatedAt ledger t now).1 (P.transaction.sender t) none
  rw [heq] at hsorted ⊢
  intro pending hmem
  rcases List.mem_append.mp hmem with hearlier | hnew
  · exact (List.pairwise_append.mp hsorted).2.2 pending hearlier t (List.mem_singleton_self t)
  · rw [List.mem_singleton.mp hnew]
    exact UInt64.le_refl _

/-- An accepted transaction completes an executable queue: afterwards the
nonces of everything its sender has pending run from the ledger nonce on, the
newcomer comes last, each cost fits into 32 bits and the exact sum of the
costs is covered by the balance available at the tip. -/
theorem accepted_completes_queue {pool : Mempool P} (hslots : pool.OnePerSlot) (ledger : P.Ledger)
    (t : P.SignedTransaction) (now : UInt64) {hash : TransactionHash}
    (haccepted : (pool.insertValidatedAt ledger t now).2 = .ok hash) :
    ∃ account queue, ledger.account (P.transaction.sender t) = some account ∧
      (pool.insertValidatedAt ledger t now).1.pendingFromSender (P.transaction.sender t) none =
        queue ∧
      Executable account ((P.ledger.tipHeight ledger).getD 0) queue ∧
      (P.account.nonce account).toNat + queue.length ≤ 2 ^ 64 ∧
      queue.getLast? = some t ∧
      ∀ pending ∈ queue, P.transaction.nonce pending ≤ P.transaction.nonce t := by
  obtain ⟨account, earlier, haccount, heq, hqueue⟩ := executable_of_accepted hslots haccepted
  refine ⟨account, _, haccount, heq, hqueue, hqueue.contiguous.bound, by simp, ?_⟩
  rw [← heq]
  exact nonce_le_of_accepted hslots haccepted

/-- The miner's second payment completes a queue of two. -/
theorem accepted_completes_queue_of_two :
    Reference.payingPool.OnePerSlot ∧
      ∃ account queue, Reference.fundedLedger.account (1 : Address) = some account ∧
        (Reference.payingPool.insertValidatedAt Reference.fundedLedger
          (Reference.payment 2 1) 0).1.pendingFromSender 1 none = queue ∧
        Executable (P := Reference.paqus) account 0 queue ∧
        (Reference.paqus.account.nonce account).toNat + queue.length ≤ 2 ^ 64 ∧
        queue.getLast? = some (Reference.payment 2 1) ∧
        ∀ pending ∈ queue, Reference.paqus.transaction.nonce pending ≤ 1 :=
  have hslots : Reference.payingPool.OnePerSlot :=
    ((WellFormed.withConfig _).runAll _).onePerSlot
  have haccepted : (Reference.payingPool.insertValidatedAt Reference.fundedLedger
      (Reference.payment 2 1) 0).2 = .ok (Reference.payment 2 1).hash := by
    decide +kernel
  ⟨hslots, accepted_completes_queue hslots Reference.fundedLedger (Reference.payment 2 1) 0
    haccepted⟩

/-! ## Expiry -/

/-- Gaplessness of a queue, entry by entry. -/
theorem OnePerSlot.contiguous_iff (h : pool.OnePerSlot) :
    Contiguous start (pool.pendingFromSender sender none) ↔
      ∀ (hash : TransactionHash) entry, pool.transactions[hash]? = some entry →
        P.transaction.sender entry.transaction = sender →
        start ≤ P.transaction.nonce entry.transaction ∧
          ∀ n : Nat, start.toNat ≤ n → n < (P.transaction.nonce entry.transaction).toNat →
            ∃ (hash' : TransactionHash) (entry' : _), pool.transactions[hash']? = some entry' ∧
              P.transaction.sender entry'.transaction = sender ∧
              (P.transaction.nonce entry'.transaction).toNat = n := by
  unfold Contiguous
  rw [gapless_iff_of_sorted (h.nonces_sorted sender none)]
  simp only [mem_nonces, reduceCtorEq, ne_eq, not_false_eq_true, true_and]
  constructor
  · intro hdown hash entry hentry hsender
    obtain ⟨hge, hbelow⟩ := hdown _ ⟨hash, entry, hentry, hsender, rfl⟩
    exact ⟨UInt64.le_iff_toNat_le.mpr hge, hbelow⟩
  · rintro hdown _ ⟨hash, entry, hentry, hsender, rfl⟩
    obtain ⟨hge, hbelow⟩ := hdown hash entry hentry hsender
    exact ⟨UInt64.le_iff_toNat_le.mp hge, hbelow⟩

/-- Of each sender's entries, those past their lifetime at `now` have the
highest nonces. -/
def ExpiresFromTheEnd (pool : Mempool P) (now : UInt64) : Prop :=
  ∀ (hash hash' : TransactionHash) (entry entry' : MempoolEntry P),
    pool.transactions[hash]? = some entry → pool.transactions[hash']? = some entry' →
    P.transaction.sender entry.transaction = P.transaction.sender entry'.transaction →
    P.transaction.nonce entry.transaction < P.transaction.nonce entry'.transaction →
    satSub now entry'.insertedAt ≤ ttl pool.config entry' →
    satSub now entry.insertedAt ≤ ttl pool.config entry

/-- When all queues are gapless from the ledger nonces, expiry keeps them so
exactly if no transaction expires before a later one of its sender. -/
theorem pruneExpired_contiguous_iff (pool : Mempool P) (ledger : P.Ledger) (now : UInt64)
    (hqueues : ∀ sender, Contiguous (nonceOf ledger.accounts sender)
      (pool.pendingFromSender sender none)) :
    (∀ sender, Contiguous (nonceOf ledger.accounts sender)
        ((pool.pruneExpired now).pendingFromSender sender none)) ↔
      pool.ExpiresFromTheEnd now := by
  have hslots := onePerSlot_of_contiguous _ hqueues
  simp only [hslots.contiguous_iff] at hqueues
  simp only [(hslots.pruneExpired now).contiguous_iff, getElem?_pruneExpired,
    Option.filter_eq_some_iff, retained, decide_eq_true_eq]
  constructor
  · intro hpruned hash hash' entry entry' hentry hentry' hsender hlt hstays
    obtain ⟨hge, -⟩ := hqueues _ hash entry hentry rfl
    obtain ⟨-, hbelow⟩ := hpruned _ hash' entry' ⟨hentry', hstays⟩ hsender.symm
    obtain ⟨hash'', entry'', ⟨hentry'', hstays''⟩, hsender'', hnonce⟩ :=
      hbelow _ (UInt64.le_iff_toNat_le.mp hge) (UInt64.lt_iff_toNat_lt.mp hlt)
    -- the survivor with that nonce is the entry itself
    obtain rfl := hslots hentry hentry'' ⟨hsender''.symm, UInt64.toNat_inj.mp hnonce.symm⟩
    rw [hentry, Option.some.injEq] at hentry''
    rwa [hentry'']
  · rintro hends sender hash entry ⟨hentry, hstays⟩ hsender
    obtain ⟨hge, hbelow⟩ := hqueues sender hash entry hentry hsender
    refine ⟨hge, ?_⟩
    intro n hle hlt
    obtain ⟨hash', entry', hentry', hsender', hnonce⟩ := hbelow n hle hlt
    refine ⟨hash', entry', ⟨hentry', ?_⟩, hsender', hnonce⟩
    exact hends hash' hash entry' entry hentry' hentry (hsender'.trans hsender.symm)
      (UInt64.lt_iff_toNat_lt.mpr (hnonce.symm ▸ hlt)) hstays

theorem pendingFromSender_eq_nil (h : ∀ entry ∈ pool.transactions.valuesList,
      P.transaction.sender entry.transaction ≠ sender) (excluded : Option TransactionHash) :
    pool.pendingFromSender sender excluded = [] := by
  refine List.eq_nil_iff_forall_not_mem.mpr ?_
  intro t hmem
  obtain ⟨hash, entry, hentry, -, rfl, hsender⟩ := mem_pendingFromSender.mp hmem
  exact h entry (BTreeMap.mem_valuesList.mpr ⟨hash, hentry⟩) hsender

end Mempool

namespace Reference

/-- A pool that has taken in a low-fee payment of the miner and, after it, one
that pays the market fee. -/
def stackedPool : Mempool paqus :=
  (Mempool.withConfig MempoolConfig.default).runAll
    [.insertValidatedAt fundedLedger (payment 1 0) 0,
      .insertValidatedAt fundedLedger (payment 2 1) 0]

/-- Every queue of that pool starts at the nonce of the ledger. -/
theorem stackedPool_contiguous (sender : Address) :
    Mempool.Contiguous (nonceOf (P := paqus) fundedLedger.accounts sender)
      (stackedPool.pendingFromSender sender none) := by
  by_cases hsender : sender = 1
  · subst hsender
    decide +kernel
  · have hother : ∀ entry ∈ stackedPool.transactions.valuesList,
        paqus.transaction.sender entry.transaction = 1 := by
      decide +kernel
    rw [Mempool.pendingFromSender_eq_nil]
    · exact gapless_nil
    · intro entry hmem heq
      exact hsender (heq.symm.trans (hother entry hmem))

end Reference

namespace Mempool

/-- After half an hour the first payment is gone and the second stranded. -/
theorem pruneExpired_not_contiguous :
    ∃ (pool : Mempool Reference.paqus) (ledger : Reference.paqus.Ledger) (now : UInt64),
      (∀ sender, Contiguous (nonceOf ledger.accounts sender)
        (pool.pendingFromSender sender none)) ∧
      ¬∀ sender, Contiguous (nonceOf ledger.accounts sender)
        ((pool.pruneExpired now).pendingFromSender sender none) := by
  refine ⟨Reference.stackedPool, Reference.fundedLedger, 1801,
    Reference.stackedPool_contiguous, ?_⟩
  intro hpruned
  exact absurd (hpruned 1) (by decide +kernel)

/-- Within the half hour nothing expires and both stay. -/
theorem pruneExpired_contiguous_iff_of_stacked :
    Reference.stackedPool.ExpiresFromTheEnd 1800 ∧
      ∀ sender, Contiguous (nonceOf (P := Reference.paqus) Reference.fundedLedger.accounts sender)
        ((Reference.stackedPool.pruneExpired 1800).pendingFromSender sender none) :=
  have hfresh : ∀ entry ∈ Reference.stackedPool.transactions.valuesList,
      satSub 1800 entry.insertedAt ≤ ttl Reference.stackedPool.config entry := by
    decide +kernel
  have hends : Reference.stackedPool.ExpiresFromTheEnd 1800 :=
    fun hash _ entry _ hentry _ _ _ _ =>
      hfresh entry (BTreeMap.mem_valuesList.mpr ⟨hash, hentry⟩)
  ⟨hends, (pruneExpired_contiguous_iff Reference.stackedPool Reference.fundedLedger 1800
    Reference.stackedPool_contiguous).mpr hends⟩

end Mempool

end PaqusNode
