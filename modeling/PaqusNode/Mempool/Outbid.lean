import PaqusNode.Mempool.Queue
import PaqusNode.Mempool.Readmission

/-!
# PaqusNode.Mempool.Outbid

Replace-by-fee at every position of a sender's queue.  The entry a newcomer
replaces is set aside before the queue check, which then expects the newcomer
right after the rest of the queue: the exchange goes through only for the
last transaction of the queue.
-/

namespace PaqusNode

namespace Mempool

variable {P : Paqus}

/-- The transaction `t` bids for the slot of a pending one: correctly signed
and timely, with a strictly greater fee, the sender's queue executable before
the exchange and covered after it, and the pool within its limits. -/
structure Bid (pool : Mempool P) (ledger : P.Ledger) (hash : TransactionHash)
    (entry : MempoolEntry P) (t : P.SignedTransaction) (now : UInt64) : Prop where
  present : pool.transactions[hash]? = some entry
  slot : SameSlot entry.transaction t
  fee : P.transaction.fee entry.transaction < P.transaction.fee t
  signed : P.transaction.validateSigned t = .ok ()
  signedAt : P.transaction.validateSignedAt t now = .ok ()
  timely : validateTimestampPolicy t now = .ok ()
  queue : ∃ account, ledger.account (P.transaction.sender t) = some account ∧
    Executable account ((P.ledger.tipHeight ledger).getD 0)
      (pool.pendingFromSender (P.transaction.sender t) none) ∧
    ((pool.pendingFromSender (P.transaction.sender t) (some hash)).map cost).sum + cost t ≤
      (P.account.availableBalanceAt account ((P.ledger.tipHeight ledger).getD 0)).toNat
  count : (pool.transactions.erase hash).size + 1 ≤ pool.config.maxTransactions
  bytes : Mempool.bytes (pool.transactions.erase hash) + P.transaction.serializedSize t ≤
    pool.config.maxBytes

/-- The pool with the entry at `hash` exchanged for `t` and nothing else
changed. -/
structure Exchanged (pool pool' : Mempool P) (hash : TransactionHash) (t : P.SignedTransaction)
    (now : UInt64) : Prop where
  gone : pool'.transactions[hash]? = none
  present : pool'.transactions[P.transaction.hash t]? = some ⟨t, now⟩
  others : ∀ hash' : TransactionHash, hash' ≠ hash → hash' ≠ P.transaction.hash t →
    pool'.transactions[hash']? = pool.transactions[hash']?

/-- What a bid needs: a fee the node relays, the last place of the queue, and
no other entry past its lifetime. -/
structure Winning (pool : Mempool P) (hash : TransactionHash) (t : P.SignedTransaction)
    (now : UInt64) : Prop where
  relayed : max pool.config.minRelayFee minRelayFeeFloor ≤ P.transaction.fee t
  last : ∀ (hash' : TransactionHash) entry', pool.transactions[hash']? = some entry' →
    P.transaction.sender entry'.transaction = P.transaction.sender t →
    P.transaction.nonce entry'.transaction ≤ P.transaction.nonce t
  alive : ∀ (hash' : TransactionHash) entry', pool.transactions[hash']? = some entry' →
    hash' ≠ hash → satSub now entry'.insertedAt ≤ ttl pool.config entry'

variable {pool : Mempool P} {ledger : P.Ledger} {hash : TransactionHash} {entry : MempoolEntry P}
  {t : P.SignedTransaction} {now : UInt64}

/-! ## The exchange goes through -/

theorem validateFeePolicy_eq_ok :
    pool.validateFeePolicy t = .ok () ↔
      max pool.config.minRelayFee minRelayFeeFloor ≤ P.transaction.fee t := by
  unfold validateFeePolicy
  split
  · next hlt => simp [UInt32.not_le.mpr hlt]
  · next hge => simp [UInt32.not_lt.mp hge]

/-- A bid is not yet in the pool. -/
theorem Bid.fresh (h : Bid pool ledger hash entry t now) (hwf : pool.WellFormed)
    (hapart : pool.Apart t) : pool.transactions[P.transaction.hash t]? = none := by
  cases he : pool.transactions[P.transaction.hash t]? with
  | none => rfl
  | some own =>
      have hown : own.transaction = t := hapart he (hwf.keyed he)
      obtain rfl := hwf.unique he h.present (by rw [hown, h.slot.1]) (by rw [hown, h.slot.2])
      rw [h.present, Option.some.injEq] at he
      have hfee := h.fee
      rw [he, hown] at hfee
      exact absurd hfee (UInt32.lt_irrefl _)

/-- Pruning leaves all but the entry bid for. -/
theorem Winning.getElem?_pruneExpired (h : Winning pool hash t now) {hash' : TransactionHash}
    (hne : hash' ≠ hash) :
    (pool.pruneExpired now).transactions[hash']? = pool.transactions[hash']? := by
  rw [Mempool.getElem?_pruneExpired]
  cases he : pool.transactions[hash']? with
  | none => rfl
  | some entry' =>
      rw [Option.filter_some, if_pos]
      exact decide_eq_true (h.alive hash' entry' he hne)

/-- The candidate for replacement: the entry bid for, or nothing if it has
expired. -/
theorem Bid.replacementCandidate (h : Bid pool ledger hash entry t now) (hwf : pool.WellFormed) :
    (pool.pruneExpired now).replacementCandidate t =
      .ok (if retained pool.config now entry then some hash else none) := by
  cases hretained : retained pool.config now entry with
  | true =>
      have hkept : (pool.pruneExpired now).transactions[hash]? = some entry :=
        getElem?_pruneExpired_eq_some.mpr ⟨h.present, hretained⟩
      rw [replacementCandidate_of_slot (hwf.pruneExpired now) hkept h.slot,
        if_neg (UInt32.not_le.mpr h.fee)]
      rfl
  | false =>
      refine replacementCandidate_of_free ?_
      intro hash' entry' hentry' hslot
      obtain ⟨hin, hstays⟩ := getElem?_pruneExpired_eq_some.mp hentry'
      obtain rfl := hwf.unique hin h.present (hslot.1.trans h.slot.1.symm)
        (hslot.2.trans h.slot.2.symm)
      rw [h.present, Option.some.injEq] at hin
      rw [← hin, hretained] at hstays
      cases hstays

/-- The rest of the queue after pruning is the queue less the transaction bid
for. -/
theorem Bid.rest_perm (h : Bid pool ledger hash entry t now) (hwin : Winning pool hash t now) :
    ((pool.pruneExpired now).pendingFromSender (P.transaction.sender t)
        (if retained pool.config now entry then some hash else none)).Perm
      (pool.pendingFromSender (P.transaction.sender t) (some hash)) := by
  refine (pendingFromSender_perm_entries _ _ _).trans
    (List.Perm.trans ?_ (pendingFromSender_perm_entries _ _ _).symm)
  refine List.Perm.map _ ((List.perm_ext_iff_of_nodup (nodup_entriesFromSender _ _ _)
    (nodup_entriesFromSender _ _ _)).mpr ?_)
  rintro ⟨hash', entry'⟩
  rw [mem_entriesFromSender, mem_entriesFromSender]
  by_cases hne : hash' = hash
  · subst hne
    rw [Mempool.getElem?_pruneExpired, h.present, Option.filter_some]
    cases retained pool.config now entry <;> simp
  · rw [hwin.getElem?_pruneExpired hne]
    cases retained pool.config now entry <;> simp [hne]

/-- The queue with the transaction exchanged is executable. -/
theorem Bid.executable (h : Bid pool ledger hash entry t now) (hwf : pool.WellFormed)
    (hwin : Winning pool hash t now) :
    ∃ account, ledger.account (P.transaction.sender t) = some account ∧
      Executable account ((P.ledger.tipHeight ledger).getD 0)
        (pool.pendingFromSender (P.transaction.sender t) (some hash) ++ [t]) := by
  obtain ⟨account, haccount, hqueue, hcost⟩ := h.queue
  have hcontiguous := hwf.onePerSlot.contiguous_iff.mp hqueue.contiguous
  obtain ⟨hge, hbelow⟩ := hcontiguous hash entry h.present h.slot.1
  rw [h.slot.2] at hge hbelow
  refine ⟨account, haccount, .of_covered (hwf.onePerSlot.contiguous_concat hge ?_) ?_⟩
  · intro n
    rw [mem_nonces]
    constructor
    · rintro ⟨hash', entry', hentry', hne, hsender, rfl⟩
      refine ⟨UInt64.le_iff_toNat_le.mp (hcontiguous hash' entry' hentry' hsender).1, ?_⟩
      refine Nat.lt_of_le_of_ne
        (UInt64.le_iff_toNat_le.mp (hwin.last hash' entry' hentry' hsender)) ?_
      intro heq
      exact hne (congrArg some (hwf.unique hentry' h.present (hsender.trans h.slot.1.symm)
        ((UInt64.toNat_inj.mp heq).trans h.slot.2.symm)))
    · rintro ⟨hle, hlt⟩
      obtain ⟨hash', entry', hentry', hsender, hnonce⟩ := hbelow n hle hlt
      refine ⟨hash', entry', hentry', ?_, hsender, hnonce⟩
      intro heq
      rw [Option.some.inj heq, h.present, Option.some.injEq] at hentry'
      rw [← hentry', h.slot.2] at hnonce
      omega
  · rw [List.map_append, List.sum_append, List.map_singleton, List.sum_singleton]
    exact hcost

/-- What pruning leaves besides the entry bid for is the rest of the pool. -/
theorem Bid.pruneExpired_sub (h : Bid pool ledger hash entry t now) (hash' : TransactionHash)
    (entry' : MempoolEntry P)
    (hentry' : (pool.pruneExpired now).transactions[hash']? = some entry') :
    (hash', entry') ∈ (if retained pool.config now entry then [(hash, entry)] else []) ∨
      (pool.transactions.erase hash)[hash']? = some entry' := by
  obtain ⟨hin, hstays⟩ := getElem?_pruneExpired_eq_some.mp hentry'
  rw [BTreeMap.getElem?_erase_eq]
  by_cases hne : hash = hash'
  · subst hne
    rw [h.present, Option.some.injEq] at hin
    subst hin
    simp [hstays]
  · rw [if_neg hne]
    exact .inr hin

/-- The exchanged transaction has room in the pool. -/
theorem Bid.room (h : Bid pool ledger hash entry t now) :
    ((if retained pool.config now entry then some hash else none) = none →
        (pool.pruneExpired now).transactions.size < pool.config.maxTransactions) ∧
      (pool.pruneExpired now).totalBytes - (pool.pruneExpired now).replacementSize
          (if retained pool.config now entry then some hash else none) +
        P.transaction.serializedSize t ≤ pool.config.maxBytes := by
  have hcount := BTreeMap.sum_valuesList_le (fun _ => 1) _ h.pruneExpired_sub
  have hbytes := BTreeMap.sum_valuesList_le
    (fun e => P.transaction.serializedSize e.transaction) _ h.pruneExpired_sub
  have htotal : (pool.pruneExpired now).totalBytes ≤ _ :=
    sumBytes_le (pool.pruneExpired now).transactions.valuesList
  have hroom := h.count
  have hlimit := h.bytes
  unfold Mempool.bytes at hlimit
  simp only [List.map_const', List.sum_replicate_nat, Nat.mul_one, BTreeMap.length_valuesList,
    Function.comp_def] at hcount
  cases hretained : retained pool.config now entry with
  | true =>
      have hkept : (pool.pruneExpired now).transactions[hash]? = some entry :=
        getElem?_pruneExpired_eq_some.mpr ⟨h.present, hretained⟩
      simp only [hretained, if_true, List.map_cons, List.map_nil, List.sum_cons, List.sum_nil,
        Function.comp_apply, Nat.add_zero] at hbytes
      simp only [if_true, reduceCtorEq, false_implies, true_and, replacementSize, Option.bind_some,
        hkept]
      omega
  | false =>
      simp only [hretained, Bool.false_eq_true, if_false, List.map_nil, List.sum_nil,
        List.length_nil, Nat.zero_add] at hbytes hcount
      simp only [Bool.false_eq_true, if_false, replacementSize, Option.bind_none, true_implies]
      omega

/-- A winning bid is exchanged for the pending transaction. -/
theorem Bid.exchanged (h : Bid pool ledger hash entry t now) (hwf : pool.WellFormed)
    (hapart : pool.Apart t) (hwin : Winning pool hash t now) :
    (pool.insertValidatedAt ledger t now).2 = .ok (P.transaction.hash t) ∧
      Exchanged pool (pool.insertValidatedAt ledger t now).1 hash t now := by
  obtain ⟨account, haccount, hqueue⟩ := h.executable hwf hwin
  have hfresh := h.fresh hwf hapart
  have hfee : (pool.pruneExpired now).validateFeePolicy t = .ok () :=
    validateFeePolicy_eq_ok.mpr hwin.relayed
  have hrest := pendingFromSender_eq_of_perm (h.rest_perm hwin)
    (contiguous_concat_iff.mp hqueue.contiguous).1
  have hvalid := validateAgainstLedgerExcluding_of_executable h.signed hfee haccount
    (hrest.symm ▸ hqueue)
  obtain ⟨hroom, hbytes⟩ := h.room
  obtain ⟨pool', hinsert⟩ := insertPruned_of_valid h.timely h.signedAt hfee
    (h.replacementCandidate hwf) hvalid (by rw [Mempool.getElem?_pruneExpired, hfresh]; rfl)
    hroom hbytes
  obtain ⟨replacement, hreplacement, -, -, hinserted⟩ := insertPruned_ok hinsert
  rw [h.replacementCandidate hwf, Except.ok.injEq] at hreplacement
  unfold insertValidatedAt
  simp only [hinsert]
  refine ⟨trivial, ?_, ?_, ?_⟩
  · have hne : P.transaction.hash t ≠ hash := by
      rintro rfl
      exact absurd (h.present.symm.trans hfresh) (by simp)
    rw [hinserted.lookup, if_neg hne, ← hreplacement, Mempool.getElem?_pruneExpired, h.present,
      Option.filter_some]
    cases retained pool.config now entry <;> simp
  · rw [hinserted.lookup, if_pos rfl]
  · intro hash' hne hne'
    rw [hinserted.lookup, if_neg (Ne.symm hne'), if_neg, hwin.getElem?_pruneExpired hne]
    rw [← hreplacement]
    cases retained pool.config now entry <;> simp [Ne.symm hne]

/-! ## What an exchange shows -/

/-- What the pool holds after an insertion and was there before has not
expired. -/
theorem retained_of_insertValidatedAt {hash' : TransactionHash} {entry' : MempoolEntry P}
    (hne : hash' ≠ P.transaction.hash t)
    (hentry' : (pool.insertValidatedAt ledger t now).1.transactions[hash']? = some entry') :
    retained pool.config now entry' = true := by
  rcases insertValidatedAt_cases pool ledger t now with heq | ⟨_, -, -, hinserted⟩
  · rw [heq] at hentry'
    exact (getElem?_pruneExpired_eq_some.mp hentry').2
  · rw [hinserted.lookup, if_neg (Ne.symm hne)] at hentry'
    split at hentry'
    · cases hentry'
    · exact (getElem?_pruneExpired_eq_some.mp hentry').2

/-- An accepted transaction pays a fee that the node relays. -/
theorem relayed_of_accepted {hash' : TransactionHash}
    (haccepted : (pool.insertValidatedAt ledger t now).2 = .ok hash') :
    max pool.config.minRelayFee minRelayFeeFloor ≤ P.transaction.fee t := by
  obtain ⟨replacement, -, hvalid, -⟩ := insertValidatedAt_ok haccepted
  unfold validateAgainstLedgerExcluding at hvalid
  split at hvalid
  · cases hvalid
  split at hvalid
  · cases hvalid
  next hpolicy =>
  exact validateFeePolicy_eq_ok.mp hpolicy

/-- An exchanged bid was winning. -/
theorem Bid.winning (h : Bid pool ledger hash entry t now) (hwf : pool.WellFormed)
    (hapart : pool.Apart t)
    (haccepted : (pool.insertValidatedAt ledger t now).2 = .ok (P.transaction.hash t))
    (hexchanged : Exchanged pool (pool.insertValidatedAt ledger t now).1 hash t now) :
    Winning pool hash t now := by
  have hfresh := h.fresh hwf hapart
  have hother : ∀ {hash' : TransactionHash} {entry'}, pool.transactions[hash']? = some entry' →
      hash' ≠ P.transaction.hash t := by
    rintro hash' entry' hentry' rfl
    rw [hfresh] at hentry'
    cases hentry'
  refine ⟨relayed_of_accepted haccepted, ?_, ?_⟩
  · intro hash' entry' hentry' hsender
    by_cases hne : hash' = hash
    · subst hne
      rw [h.present, Option.some.injEq] at hentry'
      rw [← hentry', h.slot.2]
      exact UInt64.le_refl _
    · have hstays := hexchanged.others hash' hne (hother hentry')
      rw [hentry'] at hstays
      exact nonce_le_of_accepted hwf.onePerSlot haccepted _ (mem_pendingFromSender.mpr
        ⟨hash', entry', hstays, Option.some_ne_none hash', rfl, hsender⟩)
  · intro hash' entry' hentry' hne
    have hstays := hexchanged.others hash' hne (hother hentry')
    rw [hentry'] at hstays
    exact of_decide_eq_true (retained_of_insertValidatedAt (hother hentry') hstays)

/-- Replace-by-fee goes through exactly for the last transaction of the
queue, as long as the fee is one the node relays and no other entry of the
pool expires at the same reading. -/
theorem outbid_iff (hwf : pool.WellFormed) (hapart : pool.Apart t)
    (h : Bid pool ledger hash entry t now) :
    ((pool.insertValidatedAt ledger t now).2 = .ok (P.transaction.hash t) ∧
        Exchanged pool (pool.insertValidatedAt ledger t now).1 hash t now) ↔
      Winning pool hash t now := by
  constructor
  · rintro ⟨haccepted, hexchanged⟩
    exact h.winning hwf hapart haccepted hexchanged
  · exact h.exchanged hwf hapart

end Mempool

namespace Reference

/-- A pool that has taken in two payments of the miner. -/
def queuedPool : Mempool paqus :=
  (Mempool.withConfig MempoolConfig.default).runAll
    [.insertValidatedAt fundedLedger (payment 2 0) 0,
      .insertValidatedAt fundedLedger (payment 2 1) 0]

theorem queuedPool_wellFormed : queuedPool.WellFormed := (Mempool.WellFormed.withConfig _).runAll _

/-- A payment of three units with either nonce bids for the pending one. -/
theorem queuedPool_bid (nonce : UInt64) (hnonce : nonce = 0 ∨ nonce = 1) :
    ∃ entry, queuedPool.Bid fundedLedger (payment 2 nonce).hash entry (payment 3 nonce) 0 := by
  rcases hnonce with rfl | rfl
  · exact ⟨_, (Option.some_get (by decide +kernel)).symm, by decide +kernel, by decide +kernel,
      by decide +kernel, by decide +kernel, by decide +kernel,
      ⟨_, (Option.some_get (by decide +kernel)).symm, .of_covered (by decide +kernel)
        (by decide +kernel), by decide +kernel⟩, by decide +kernel, by decide +kernel⟩
  · exact ⟨_, (Option.some_get (by decide +kernel)).symm, by decide +kernel, by decide +kernel,
      by decide +kernel, by decide +kernel, by decide +kernel,
      ⟨_, (Option.some_get (by decide +kernel)).symm, .of_covered (by decide +kernel)
        (by decide +kernel), by decide +kernel⟩, by decide +kernel, by decide +kernel⟩

end Reference

namespace Mempool

/-- The first of two pending payments cannot be outbid. -/
theorem outbid_first_rejected :
    ∃ entry, Reference.queuedPool.WellFormed ∧
      Reference.queuedPool.Bid Reference.fundedLedger (Reference.payment 2 0).hash entry
        (Reference.payment 3 0) 0 ∧
      (Reference.queuedPool.insertValidatedAt Reference.fundedLedger (Reference.payment 3 0) 0).2 =
        .error (.invalidLedgerState (.invalidState .invalidNonce)) := by
  obtain ⟨entry, hbid⟩ := Reference.queuedPool_bid 0 (.inl rfl)
  exact ⟨entry, Reference.queuedPool_wellFormed, hbid, by decide +kernel⟩

/-- The second one is exchanged. -/
theorem outbid_iff_of_last :
    Exchanged Reference.queuedPool (Reference.queuedPool.insertValidatedAt Reference.fundedLedger
        (Reference.payment 3 1) 0).1 (Reference.payment 2 1).hash (Reference.payment 3 1) 0 := by
  obtain ⟨entry, hbid⟩ := Reference.queuedPool_bid 1 (.inr rfl)
  have hall : ∀ entry ∈ Reference.queuedPool.transactions.valuesList,
      Reference.paqus.transaction.nonce entry.transaction ≤ 1 ∧
        satSub 0 entry.insertedAt ≤ ttl Reference.queuedPool.config entry := by
    decide +kernel
  have hwin : Reference.queuedPool.Winning (Reference.payment 2 1).hash
      (Reference.payment 3 1) 0 :=
    ⟨by decide +kernel,
      fun hash entry hentry _ => (hall entry (BTreeMap.mem_valuesList.mpr ⟨hash, hentry⟩)).1,
      fun hash entry hentry _ => (hall entry (BTreeMap.mem_valuesList.mpr ⟨hash, hentry⟩)).2⟩
  have hapart : Reference.queuedPool.Apart (Reference.payment 3 1) :=
    fun _ _ _ => Reference.hash_inj
  exact ((outbid_iff Reference.queuedPool_wellFormed hapart hbid).mpr hwin).2

end Mempool

end PaqusNode
