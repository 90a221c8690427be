import Mathlib.Data.List.Induction
import PaqusNode.Mempool.Capacity
import PaqusNode.Mempool.Queue

/-!
# PaqusNode.Mempool.Readmission

Offering a list of transactions to the pool, one after the other, as a reorg
does.  The offers of one sender that are still live form a gapless queue;
they all end up in the pool exactly if, at the turn of each, the sender has
nothing else pending than earlier ones of the queue and transactions that
the queue outbids.
-/

namespace PaqusNode

namespace Mempool

variable {P : Paqus}

/-! ## A successful insertion -/

/-- The pool knows a transaction by its hash. -/
theorem WellFormed.entry_of_hash {pool : Mempool P} (hwf : pool.WellFormed)
    {t : P.SignedTransaction} (hapart : pool.Apart t) {hash : TransactionHash}
    {entry : MempoolEntry P} (hentry : pool.transactions[hash]? = some entry)
    (ht : P.transaction.hash t = hash) : entry.transaction = t :=
  hapart hentry ((hwf.keyed hentry).trans ht.symm)

/-- A transaction that outbids whatever holds its slot has a candidate to
replace, or none to replace. -/
theorem WellFormed.exists_replacementCandidate {pool : Mempool P} (hwf : pool.WellFormed)
    {d : P.SignedTransaction}
    (hslot : ∀ {hash : TransactionHash} {entry}, pool.transactions[hash]? = some entry →
      SameSlot entry.transaction d → P.transaction.fee entry.transaction < P.transaction.fee d) :
    ∃ replacement, pool.replacementCandidate d = .ok replacement := by
  by_cases hfree : ∃ (hash : TransactionHash) (entry : _),
      pool.transactions[hash]? = some entry ∧ SameSlot entry.transaction d
  · obtain ⟨hash, entry, he, hs⟩ := hfree
    refine ⟨some hash, ?_⟩
    rw [replacementCandidate_of_slot hwf he hs, if_neg (UInt32.not_le.mpr (hslot he hs))]
  · refine ⟨none, replacementCandidate_of_free ?_⟩
    intro hash entry he hs
    exact hfree ⟨hash, entry, he, hs⟩

/-- What the sender has pending besides the replaced transaction is the queue. -/
theorem WellFormed.pendingFromSender_perm {pool : Mempool P} (hwf : pool.WellFormed)
    {d : P.SignedTransaction} {queue : List P.SignedTransaction}
    (hapart : ∀ t ∈ queue, pool.Apart t) {replacement : Option TransactionHash}
    (hreplacement : pool.replacementCandidate d = .ok replacement) (hnodup : queue.Nodup)
    (hpending : ∀ t ∈ queue, P.transaction.sender t = P.transaction.sender d ∧
      ∃ entry, pool.transactions[P.transaction.hash t]? = some entry)
    (hbefore : ∀ t ∈ queue, P.transaction.nonce t ≠ P.transaction.nonce d)
    (hrivals : ∀ (hash : TransactionHash) entry, pool.transactions[hash]? = some entry →
      P.transaction.sender entry.transaction = P.transaction.sender d →
      (∃ t ∈ queue, P.transaction.hash t = hash) ∨ SameSlot entry.transaction d) :
    (pool.pendingFromSender (P.transaction.sender d) replacement).Perm queue := by
  refine (List.perm_ext_iff_of_nodup (nodup_pendingFromSender hwf _ _) hnodup).mpr fun t => ?_
  rw [mem_pendingFromSender]
  constructor
  · rintro ⟨hash, entry, he, hne, rfl, hsender⟩
    rcases hrivals hash entry he hsender with ⟨t, ht, hhash⟩ | hs
    · rwa [hwf.entry_of_hash (hapart t ht) he hhash]
    · exact absurd (replaced_of_sameSlot hwf hreplacement he hs).symm hne
  · intro ht
    obtain ⟨hsender, entry, he⟩ := hpending t ht
    have htx := hwf.entry_of_hash (hapart t ht) he rfl
    refine ⟨_, entry, he, not_replaced_of_slot hreplacement he ?_, htx, hsender⟩
    rw [htx]
    exact fun hs => hbefore t ht hs.2

/-- A transaction that comes right after `queue`, all of it pending, is
admitted if the sender has nothing else pending than what it outbids. -/
theorem insertPruned_of_queue {pool : Mempool P} (hwf : pool.WellFormed) {ledger : P.Ledger}
    {d : P.SignedTransaction} {now : UInt64} {queue : List P.SignedTransaction}
    (hapart : pool.Apart d) (hapart' : ∀ t ∈ queue, pool.Apart t)
    {account : P.Account} (htimestamp : validateTimestampPolicy d now = .ok ())
    (hsigned : P.transaction.validateSigned d = .ok ())
    (hsignedAt : P.transaction.validateSignedAt d now = .ok ())
    (hfee : pool.validateFeePolicy d = .ok ())
    (haccount : ledger.account (P.transaction.sender d) = some account)
    (hpending : ∀ t ∈ queue, P.transaction.sender t = P.transaction.sender d ∧
      ∃ entry, pool.transactions[P.transaction.hash t]? = some entry)
    (hnonces : queue.map (fun t => (P.transaction.nonce t).toNat) =
      List.range' (P.account.nonce account).toNat queue.length)
    (hlast : (P.transaction.nonce d).toNat = (P.account.nonce account).toNat + queue.length)
    (hcost : (queue.map cost).sum + cost d ≤ (P.account.availableBalanceAt account
      ((P.ledger.tipHeight ledger).getD 0)).toNat)
    (hrivals : ∀ (hash : TransactionHash) entry, pool.transactions[hash]? = some entry →
      P.transaction.sender entry.transaction = P.transaction.sender d →
      (∃ t ∈ queue, P.transaction.hash t = hash) ∨
        (SameSlot entry.transaction d ∧
          P.transaction.fee entry.transaction < P.transaction.fee d))
    (hsize : pool.transactions.size < pool.config.maxTransactions)
    (hbytes : pool.totalBytes + P.transaction.serializedSize d ≤ pool.config.maxBytes) :
    ∃ pool', pool.insertPruned ledger d now = .ok (P.transaction.hash d, pool') := by
  -- the queue has smaller nonces, so its entries are not in the newcomer's slot
  have hbefore : ∀ t ∈ queue, P.transaction.nonce t ≠ P.transaction.nonce d := by
    intro t ht heq
    have hmem := List.mem_map_of_mem (f := fun t => (P.transaction.nonce t).toNat) ht
    rw [hnonces, heq, hlast] at hmem
    simp at hmem
  have hslot : ∀ {hash : TransactionHash} {entry}, pool.transactions[hash]? = some entry →
      SameSlot entry.transaction d → P.transaction.fee entry.transaction < P.transaction.fee d := by
    intro hash entry he hs
    rcases hrivals hash entry he hs.1 with ⟨t, ht, hhash⟩ | ⟨-, hlt⟩
    · rw [hwf.entry_of_hash (hapart' t ht) he hhash] at hs
      exact absurd hs.2 (hbefore t ht)
    · exact hlt
  have hfresh : pool.transactions[P.transaction.hash d]? = none := by
    cases he : pool.transactions[P.transaction.hash d]? with
    | none => rfl
    | some entry =>
        have hd := hwf.entry_of_hash hapart he rfl
        have hlt := hslot he (by rw [hd]; exact ⟨rfl, rfl⟩)
        rw [hd] at hlt
        exact absurd hlt (UInt32.lt_irrefl _)
  obtain ⟨replacement, hreplacement⟩ := hwf.exists_replacementCandidate hslot
  have hnodup : queue.Nodup := by
    refine List.Nodup.of_map (fun t => (P.transaction.nonce t).toNat) ?_
    rw [hnonces]
    exact List.nodup_range'
  have hperm := hwf.pendingFromSender_perm hapart' hreplacement hnodup hpending hbefore
    fun hash entry he hsender => (hrivals hash entry he hsender).imp_right And.left
  have hqueue : Contiguous (P.account.nonce account) queue := by
    unfold Contiguous Gapless
    rw [List.length_map]
    exact hnonces
  have hvalid : pool.validateAgainstLedgerExcluding ledger d replacement = .ok () := by
    refine validateAgainstLedgerExcluding_of_executable hsigned hfee haccount ?_
    rw [pendingFromSender_eq_of_perm hperm hqueue]
    refine .of_covered (contiguous_concat_iff.mpr ⟨hqueue, hlast⟩) ?_
    rw [List.map_append, List.sum_append, List.map_singleton, List.sum_singleton]
    exact hcost
  exact insertPruned_of_valid htimestamp hsignedAt hfee hreplacement hvalid hfresh
    (fun _ => hsize) (by omega)

/-! ## One offer, seen from one sender -/

/-- The entry expires at none of the readings of the offers. -/
def Outlives (config : MempoolConfig) (offers : List (P.SignedTransaction × UInt64))
    (entry : MempoolEntry P) : Prop :=
  ∀ offer ∈ offers, retained config offer.2 entry = true

instance (config : MempoolConfig) (offers : List (P.SignedTransaction × UInt64))
    (entry : MempoolEntry P) : Decidable (Outlives config offers entry) :=
  inferInstanceAs (Decidable (∀ offer ∈ offers, _ = _))

theorem outlives_concat {config : MempoolConfig} {offers : List (P.SignedTransaction × UInt64)}
    {offer : P.SignedTransaction × UInt64} {entry : MempoolEntry P} :
    Outlives config (offers ++ [offer]) entry ↔
      Outlives config offers entry ∧ retained config offer.2 entry = true := by
  simp [Outlives, or_imp, forall_and]

/-- A transaction below the ledger nonce is never admitted. -/
theorem insertValidatedAt_of_spent (pool : Mempool P) {ledger : P.Ledger} {t : P.SignedTransaction}
    (now : UInt64)
    (hspent : P.transaction.nonce t < nonceOf ledger.accounts (P.transaction.sender t)) :
    (pool.insertValidatedAt ledger t now).1 = pool.pruneExpired now := by
  rcases insertValidatedAt_cases pool ledger t now with heq | ⟨_, -, hvalid, -⟩
  · exact heq
  · exact absurd hspent (UInt64.not_lt.mpr (validateAgainstLedgerExcluding_ok hvalid).1)

/-- A transaction already pending is not admitted again. -/
theorem insertValidatedAt_of_pending (pool : Mempool P) (ledger : P.Ledger)
    {t : P.SignedTransaction} {now : UInt64} {entry : MempoolEntry P}
    (hentry : (pool.pruneExpired now).transactions[P.transaction.hash t]? = some entry) :
    (pool.insertValidatedAt ledger t now).1 = pool.pruneExpired now := by
  rcases insertValidatedAt_cases pool ledger t now with heq | ⟨_, -, -, hinserted⟩
  · exact heq
  · rw [hinserted.fresh] at hentry
    cases hentry

/-- The entries of other senders are only pruned. -/
theorem getElem?_insertValidatedAt_of_sender_ne (pool : Mempool P) (ledger : P.Ledger)
    {t : P.SignedTransaction} {now : UInt64} {hash : TransactionHash} {entry : MempoolEntry P}
    (hne : P.transaction.sender entry.transaction ≠ P.transaction.sender t) :
    (pool.insertValidatedAt ledger t now).1.transactions[hash]? = some entry ↔
      pool.transactions[hash]? = some entry ∧ retained pool.config now entry = true := by
  rw [← getElem?_pruneExpired_eq_some]
  rcases insertValidatedAt_cases pool ledger t now with
    heq | ⟨replacement, hreplacement, -, hinserted⟩
  · rw [heq]
  rw [hinserted.lookup]
  split
  · next heq =>
      subst heq
      rw [hinserted.fresh]
      constructor
      · intro h
        cases h
        exact absurd rfl hne
      · intro h
        cases h
  split
  · next hreplaced =>
      subst hreplaced
      rcases replacementCandidate_ok hreplacement with ⟨hnone, -⟩ | ⟨r, e, hsome, he, hslot, -⟩
      · cases hnone
      · cases hsome
        rw [he]
        constructor
        · intro h
          cases h
        · intro h
          cases h
          exact absurd hslot.1 hne
  · exact Iff.rfl

/-- What is in the pool after some offers and was not offered was there
before, and has not expired. -/
theorem getElem?_of_insertAll {pool : Mempool P} {ledger : P.Ledger}
    {offers : List (P.SignedTransaction × UInt64)} {hash : TransactionHash}
    {entry : MempoolEntry P}
    (h : (pool.insertAll ledger offers).transactions[hash]? = some entry)
    (hother : ∀ offer ∈ offers, P.transaction.hash offer.1 ≠ hash) :
    pool.transactions[hash]? = some entry ∧ Outlives pool.config offers entry := by
  induction offers generalizing pool with
  | nil => exact ⟨h, by simp [Outlives]⟩
  | cons offer rest ih =>
      obtain ⟨hnext, hrest⟩ := ih h fun o ho => hother o (List.mem_cons_of_mem _ ho)
      rw [insertValidatedAt_config] at hrest
      simp only at hnext
      have hpruned : (pool.pruneExpired offer.2).transactions[hash]? = some entry := by
        rcases insertValidatedAt_cases pool ledger offer.1 offer.2 with heq | ⟨_, -, -, hinserted⟩
        · rwa [heq] at hnext
        · rw [hinserted.lookup, if_neg (hother offer List.mem_cons_self)] at hnext
          split at hnext
          · cases hnext
          · exact hnext
      obtain ⟨hentry, hretained⟩ := getElem?_pruneExpired_eq_some.mp hpruned
      refine ⟨hentry, ?_⟩
      intro o ho
      rcases List.mem_cons.mp ho with rfl | ho
      · exact hretained
      · exact hrest o ho

/-! ## The transactions at hand -/

/-- The transactions of a pool and of the offers made to it. -/
def atHand (pool : Mempool P) (offers : List (P.SignedTransaction × UInt64)) :
    Set P.SignedTransaction :=
  {t | (∃ (hash : TransactionHash) (entry : MempoolEntry P),
        pool.transactions[hash]? = some entry ∧ entry.transaction = t) ∨
      ∃ offer ∈ offers, offer.1 = t}

/-- If nothing at hand collides, a pool that has been offered some of it knows
all of it by its hash. -/
theorem WellFormed.transaction_of_insertAll {pool : Mempool P} (hwf : pool.WellFormed)
    {offers made : List (P.SignedTransaction × UInt64)}
    (hapart : Set.InjOn P.transaction.hash (pool.atHand offers)) (hmade : made ⊆ offers)
    {ledger : P.Ledger} {t : P.SignedTransaction} (ht : t ∈ pool.atHand offers)
    {entry : MempoolEntry P}
    (hentry : (pool.insertAll ledger made).transactions[P.transaction.hash t]? = some entry) :
    entry.transaction = t := by
  refine hapart ?_ ht ((hwf.insertAll ledger made).keyed hentry)
  rcases of_getElem?_insertAll ledger hentry with hpooled | ⟨offer, hoffer, heq⟩
  · exact .inl ⟨_, entry, hpooled, rfl⟩
  · exact .inr ⟨offer, hmade hoffer, heq⟩

/-! ## The queue of one sender -/

section Queue

variable (live : P.SignedTransaction → Prop) [DecidablePred live]

/-- The live offers of `sender`, in the order in which they are made. -/
def queueOf (sender : Address) (offers : List (P.SignedTransaction × UInt64)) :
    List P.SignedTransaction :=
  (offers.map Prod.fst).filter fun t => decide (live t ∧ P.transaction.sender t = sender)

/-- What a live offer `d` needs besides room and a free slot: it passes the
relay policy, continues the sender's queue, is covered by the balance
together with it, and does not expire during the offers after it. -/
structure Admissible (config : MempoolConfig) (ledger : P.Ledger) (queue : List P.SignedTransaction)
    (d : P.SignedTransaction) (now : UInt64) (after : List (P.SignedTransaction × UInt64)) :
    Prop where
  timestamp : validateTimestampPolicy d now = .ok ()
  signed : P.transaction.validateSigned d = .ok ()
  signedAt : P.transaction.validateSignedAt d now = .ok ()
  fee : max config.minRelayFee minRelayFeeFloor ≤ P.transaction.fee d
  nonce : (P.transaction.nonce d).toNat =
    (nonceOf ledger.accounts (P.transaction.sender d)).toNat + queue.length
  funded : ∃ account, ledger.account (P.transaction.sender d) = some account ∧
    (queue.map cost).sum + cost d ≤
      (P.account.availableBalanceAt account ((P.ledger.tipHeight ledger).getD 0)).toNat
  stays : Outlives config after ⟨d, now⟩

/-- The live offers among `offers` can be applied in their order to `ledger`
and fit into the pool. -/
structure Applicable (pool : Mempool P) (ledger : P.Ledger)
    (offers : List (P.SignedTransaction × UInt64)) : Prop where
  admissible : ∀ before d now after, offers = before ++ (d, now) :: after → live d →
    Admissible pool.config ledger (queueOf live (P.transaction.sender d) before) d now after
  room : pool.transactions.size + (offers.filter fun offer => decide (live offer.1)).length ≤
    pool.config.maxTransactions
  bytes : pool.weight + ((offers.filter fun offer => decide (live offer.1)).map
    fun offer => P.transaction.serializedSize offer.1).sum ≤ pool.config.maxBytes

/-- The live offers are applicable, the others are below the ledger nonce. -/
structure Readmissible (pool : Mempool P) (ledger : P.Ledger)
    (offers : List (P.SignedTransaction × UInt64)) : Prop extends
    Applicable live pool ledger offers where
  spent : ∀ offer ∈ offers, ¬live offer.1 →
    P.transaction.nonce offer.1 < nonceOf ledger.accounts (P.transaction.sender offer.1)

/-- At the turn of the live offer `d`, it is pending already and stays so, or
everything its sender has pending comes earlier in the queue or is outbid by
the queue up to `d`. -/
def Unrivalled (pool : Mempool P) (offers before : List (P.SignedTransaction × UInt64))
    (d : P.SignedTransaction) (now : UInt64) : Prop :=
  (∃ entry, pool.transactions[P.transaction.hash d]? = some entry ∧
      Outlives pool.config offers entry) ∨
    ∀ (hash : TransactionHash) entry, pool.transactions[hash]? = some entry →
      P.transaction.sender entry.transaction = P.transaction.sender d →
      Outlives pool.config (before ++ [(d, now)]) entry →
      (∃ t ∈ queueOf live (P.transaction.sender d) before, P.transaction.hash t = hash) ∨
        ∃ t ∈ queueOf live (P.transaction.sender d) (before ++ [(d, now)]),
          SameSlot entry.transaction t ∧
            P.transaction.fee entry.transaction < P.transaction.fee t

variable {live}

theorem queueOf_concat (sender : Address) (before : List (P.SignedTransaction × UInt64))
    (d : P.SignedTransaction) (now : UInt64) :
    queueOf live sender (before ++ [(d, now)]) = queueOf live sender before ++
      if live d ∧ P.transaction.sender d = sender then [d] else [] := by
  by_cases h : live d ∧ P.transaction.sender d = sender
  · simp [queueOf, h]
  · simp [queueOf, h]

/-- A live offer is the last of its sender's queue. -/
theorem queueOf_concat_live {d : P.SignedTransaction} (hlive : live d)
    (before : List (P.SignedTransaction × UInt64)) (now : UInt64) :
    queueOf live (P.transaction.sender d) (before ++ [(d, now)]) =
      queueOf live (P.transaction.sender d) before ++ [d] := by
  rw [queueOf_concat, if_pos ⟨hlive, rfl⟩]

/-- An offer that is not live, or of another sender, is in no queue of the
sender. -/
theorem queueOf_concat_of_not {sender : Address} {d : P.SignedTransaction}
    (hnot : ¬(live d ∧ P.transaction.sender d = sender))
    (before : List (P.SignedTransaction × UInt64)) (now : UInt64) :
    queueOf live sender (before ++ [(d, now)]) = queueOf live sender before := by
  rw [queueOf_concat, if_neg hnot, List.append_nil]

theorem mem_queueOf {sender : Address} {offers : List (P.SignedTransaction × UInt64)}
    {t : P.SignedTransaction} :
    t ∈ queueOf live sender offers ↔
      (∃ now, (t, now) ∈ offers) ∧ live t ∧ P.transaction.sender t = sender := by
  simp [queueOf]

variable {pool : Mempool P} {ledger : P.Ledger} {offers : List (P.SignedTransaction × UInt64)}

/-- One offer alone. -/
theorem Applicable.singleton {d : P.SignedTransaction} {now : UInt64}
    (hd : Admissible pool.config ledger [] d now [])
    (hroom : pool.transactions.size < pool.config.maxTransactions)
    (hbytes : pool.weight + P.transaction.serializedSize d ≤ pool.config.maxBytes) :
    Applicable live pool ledger [(d, now)] where
  admissible before d' now' after hsplit _ := by
    obtain ⟨rfl, heq⟩ | ⟨rest, -, heq⟩ := List.cons_eq_append_iff.mp hsplit
    · cases heq
      exact hd
    · simp at heq
  room := by
    have := List.length_filter_le (fun offer => decide (live offer.1)) [(d, now)]
    rw [List.length_singleton] at this
    omega
  bytes := by
    rw [List.filter_cons]
    split
    · simpa using hbytes
    · simp only [List.filter_nil, List.map_nil, List.sum_nil]
      omega

/-- The queue is gapless, from the ledger nonce on. -/
theorem Readmissible.nonces (h : Readmissible live pool ledger offers) (sender : Address)
    {before after : List (P.SignedTransaction × UInt64)} (hsplit : offers = before ++ after) :
    (queueOf live sender before).map (fun t => (P.transaction.nonce t).toNat) =
      List.range' (nonceOf ledger.accounts sender).toNat (queueOf live sender before).length := by
  induction before using List.reverseRecOn generalizing after with
  | nil => rfl
  | append_singleton before offer ih =>
      obtain ⟨d, now⟩ := offer
      have hsplit' : offers = before ++ (d, now) :: after := by simpa using hsplit
      rw [queueOf_concat]
      split
      · next hd =>
          obtain ⟨hlive, rfl⟩ := hd
          have hnonce := (h.admissible before d now after hsplit' hlive).nonce
          rw [List.map_append, ih hsplit', List.length_append, List.length_singleton,
            List.range'_1_concat, List.map_singleton, hnonce]
      · rw [List.append_nil]
        exact ih hsplit'

/-- A live offer is made once. -/
theorem Readmissible.hash_ne (h : Readmissible live pool ledger offers)
    (hapart : Set.InjOn P.transaction.hash (pool.atHand offers))
    {before after : List (P.SignedTransaction × UInt64)} {d : P.SignedTransaction} {now : UInt64}
    (hsplit : offers = before ++ (d, now) :: after) (hlive : live d) :
    ∀ offer ∈ after, P.transaction.hash offer.1 ≠ P.transaction.hash d := by
  rintro ⟨t, later⟩ hmem heq
  obtain rfl : t = d :=
    hapart (.inr ⟨(t, later), by simp [hsplit, hmem], rfl⟩)
      (.inr ⟨(d, now), by simp [hsplit], rfl⟩) heq
  obtain ⟨middle, rest, rfl⟩ := List.append_of_mem hmem
  have hfirst := (h.admissible before t now _ hsplit hlive).nonce
  have hsecond := (h.admissible (before ++ (t, now) :: middle) t later rest
    (by simpa using hsplit) hlive).nonce
  have hlonger : (queueOf live (P.transaction.sender t) before).length <
      (queueOf live (P.transaction.sender t) (before ++ (t, now) :: middle)).length := by
    simp [queueOf, hlive]
  omega

/-- The queue before an offer has smaller nonces. -/
theorem Readmissible.nonce_lt (h : Readmissible live pool ledger offers)
    {before after : List (P.SignedTransaction × UInt64)} {d t : P.SignedTransaction} {now : UInt64}
    (hsplit : offers = before ++ (d, now) :: after) (hlive : live d)
    (ht : t ∈ queueOf live (P.transaction.sender d) before) :
    P.transaction.nonce t < P.transaction.nonce d := by
  have hmem := List.mem_map_of_mem (f := fun t => (P.transaction.nonce t).toNat) ht
  rw [h.nonces (P.transaction.sender d) hsplit, List.mem_range'_1] at hmem
  rw [UInt64.lt_iff_toNat_lt, (h.admissible before d now after hsplit hlive).nonce]
  exact hmem.2

theorem insertAll_concat (pool : Mempool P) (ledger : P.Ledger)
    (before : List (P.SignedTransaction × UInt64)) (d : P.SignedTransaction) (now : UInt64) :
    pool.insertAll ledger (before ++ [(d, now)]) =
      ((pool.insertAll ledger before).insertValidatedAt ledger d now).1 := by
  simp [insertAll]

/-- Offers that are not live add nothing to the pool, a live one adds at most
itself. -/
theorem Readmissible.sum_insertAll_le (h : Readmissible live pool ledger offers)
    (f : MempoolEntry P → Nat) {before after : List (P.SignedTransaction × UInt64)}
    (hsplit : offers = before ++ after) :
    ((pool.insertAll ledger before).transactions.valuesList.map f).sum ≤
      (pool.transactions.valuesList.map f).sum +
        ((before.filter fun offer => decide (live offer.1)).map
          fun offer => f ⟨offer.1, offer.2⟩).sum := by
  induction before using List.reverseRecOn generalizing after with
  | nil => exact Nat.le_add_right _ _
  | append_singleton before offer ih =>
      obtain ⟨d, now⟩ := offer
      have hsplit' : offers = before ++ (d, now) :: after := by simpa using hsplit
      have hbefore := ih hsplit'
      have hpruned := BTreeMap.sum_valuesList_le f []
        (pruneExpired_sub (pool.insertAll ledger before) now)
      rw [insertAll_concat]
      simp only [List.map_nil, List.sum_nil, Nat.zero_add] at hpruned
      by_cases hlive : live d
      · simp only [List.filter_append, List.filter_cons, hlive, decide_true, if_true,
          List.filter_nil, List.map_append, List.map_cons, List.map_nil, List.sum_append,
          List.sum_cons, List.sum_nil, Nat.add_zero]
        rcases insertValidatedAt_cases (pool.insertAll ledger before) ledger d now with
          heq | ⟨_, -, -, hinserted⟩
        · rw [heq]
          omega
        · have hsum := BTreeMap.sum_valuesList_le f _ hinserted.sub
          simp only [List.map_cons, List.map_nil, List.sum_cons, List.sum_nil,
            Function.comp_apply, Nat.add_zero] at hsum
          omega
      · have hspent := h.spent (d, now) (by simp [hsplit']) hlive
        simp only [List.filter_append, List.filter_cons, hlive, decide_false, Bool.false_eq_true,
          if_false, List.filter_nil, List.append_nil]
        rw [insertValidatedAt_of_spent _ now hspent]
        omega

/-- There is room for a live offer at its turn. -/
theorem Readmissible.fits (h : Readmissible live pool ledger offers)
    {before after : List (P.SignedTransaction × UInt64)} {d : P.SignedTransaction} {now : UInt64}
    (hsplit : offers = before ++ (d, now) :: after) (hlive : live d) :
    ((pool.insertAll ledger before).pruneExpired now).transactions.size <
        pool.config.maxTransactions ∧
      ((pool.insertAll ledger before).pruneExpired now).totalBytes +
        P.transaction.serializedSize d ≤ pool.config.maxBytes := by
  have hcount := h.sum_insertAll_le (fun _ => 1) hsplit
  have hweight := h.sum_insertAll_le
    (fun entry => P.transaction.serializedSize entry.transaction) hsplit
  have hpruned := fun f => BTreeMap.sum_valuesList_le f []
    (pruneExpired_sub (pool.insertAll ledger before) now)
  have hroom := h.room
  have hbytes := h.bytes
  simp only [hsplit, List.filter_append, List.filter_cons, hlive, decide_true, if_true,
    List.length_append, List.length_cons, List.map_append, List.map_cons, List.sum_append,
    List.sum_cons] at hroom hbytes
  constructor
  · have hsize := hpruned fun _ => 1
    simp only [List.map_const', List.sum_replicate_nat, Nat.mul_one, BTreeMap.length_valuesList,
      List.map_nil, List.sum_nil, Nat.zero_add] at hsize hcount
    omega
  · have htotal := sumBytes_le
      ((pool.insertAll ledger before).pruneExpired now).transactions.valuesList
    have hsum := hpruned fun entry => P.transaction.serializedSize entry.transaction
    simp only [List.map_nil, List.sum_nil, Nat.zero_add] at hsum hweight
    have hbytes' : ((pool.insertAll ledger before).pruneExpired now).totalBytes =
        sumBytes ((pool.insertAll ledger before).pruneExpired now).transactions.valuesList := rfl
    unfold weight bytes at hbytes
    omega

/-! ## From free slots to the pool -/

variable (live pool ledger) in
/-- The sender's part of the pool is what was there and has not expired. -/
def Untouched (sender : Address) (before : List (P.SignedTransaction × UInt64)) : Prop :=
  ∀ (hash : TransactionHash) entry, P.transaction.sender entry.transaction = sender →
    ((pool.insertAll ledger before).transactions[hash]? = some entry ↔
      pool.transactions[hash]? = some entry ∧ Outlives pool.config before entry)

variable (live pool ledger) in
/-- After the offers `before`, with `after` still to come: the sender's queue
is in the pool to stay, and the sender has nothing else there, unless nothing
of the queue had to be inserted. -/
structure Progress (sender : Address) (before after : List (P.SignedTransaction × UInt64)) :
    Prop where
  queued : ∀ t ∈ queueOf live sender before, ∃ entry,
    (pool.insertAll ledger before).transactions[P.transaction.hash t]? = some entry ∧
      Outlives pool.config after entry
  others : Untouched pool ledger sender before ∨
    ∀ (hash : TransactionHash) entry,
      (pool.insertAll ledger before).transactions[hash]? = some entry →
      P.transaction.sender entry.transaction = sender →
      ∃ t ∈ queueOf live sender before, P.transaction.hash t = hash

variable (pool ledger) in
/-- All that the offer of `d` does to the sender's part of the pool is to prune it. -/
def Prunes (sender : Address) (before : List (P.SignedTransaction × UInt64))
    (d : P.SignedTransaction) (now : UInt64) : Prop :=
  ∀ (hash : TransactionHash) entry, P.transaction.sender entry.transaction = sender →
    ((pool.insertAll ledger (before ++ [(d, now)])).transactions[hash]? = some entry ↔
      (pool.insertAll ledger before).transactions[hash]? = some entry ∧
        retained pool.config now entry = true)

variable {before after : List (P.SignedTransaction × UInt64)} {d : P.SignedTransaction}
  {now : UInt64} {sender : Address}

theorem Untouched.pruned (h : Untouched pool ledger sender before)
    (hview : Prunes pool ledger sender before d now) :
    Untouched pool ledger sender (before ++ [(d, now)]) := by
  intro hash entry hsender
  rw [hview hash entry hsender, h hash entry hsender, outlives_concat, and_assoc]

/-- The offer of another sender only prunes. -/
theorem prunes_of_sender_ne (hne : P.transaction.sender d ≠ sender) :
    Prunes pool ledger sender before d now := by
  intro hash entry hsender
  have hother : P.transaction.sender entry.transaction ≠ P.transaction.sender d := by
    rw [hsender]
    exact hne.symm
  rw [insertAll_concat, getElem?_insertValidatedAt_of_sender_ne _ _ hother, insertAll_config]

/-- So does an offer that is not inserted. -/
theorem prunes_of_not_inserted (h : ((pool.insertAll ledger before).insertValidatedAt ledger d
    now).1 = (pool.insertAll ledger before).pruneExpired now) :
    Prunes pool ledger sender before d now := by
  intro hash entry _
  rw [insertAll_concat, h, getElem?_pruneExpired_eq_some, insertAll_config]

/-- An offer that only prunes the sender's entries. -/
theorem Progress.pruned (h : Progress live pool ledger sender before ((d, now) :: after))
    (hsender : ∀ t ∈ queueOf live sender before, ∀ entry,
      (pool.insertAll ledger before).transactions[P.transaction.hash t]? = some entry →
      P.transaction.sender entry.transaction = sender)
    (hview : Prunes pool ledger sender before d now)
    (hqueue : queueOf live sender (before ++ [(d, now)]) = queueOf live sender before) :
    Progress live pool ledger sender (before ++ [(d, now)]) after := by
  refine ⟨?_, ?_⟩
  · intro t ht
    rw [hqueue] at ht
    obtain ⟨entry, hentry, hstays⟩ := h.queued t ht
    refine ⟨entry, ?_, fun offer ho => hstays offer (List.mem_cons_of_mem _ ho)⟩
    exact (hview _ _ (hsender t ht entry hentry)).mpr ⟨hentry, hstays _ List.mem_cons_self⟩
  · rcases h.others with huntouched | honly
    · exact .inl (huntouched.pruned hview)
    · refine .inr fun hash entry hentry hs => ?_
      rw [hqueue]
      exact honly hash entry ((hview hash entry hs).mp hentry).1 hs

section Forward

variable (h : Readmissible live pool ledger offers)
  (hapart : Set.InjOn P.transaction.hash (pool.atHand offers)) (hwf : pool.WellFormed)
  (hsplit : offers = before ++ (d, now) :: after) (hlive : live d)

include hsplit in
omit [DecidablePred live] in
theorem atHand_of_split : d ∈ pool.atHand offers := .inr ⟨(d, now), by simp [hsplit], rfl⟩

include hsplit in
theorem atHand_of_queueOf {t : P.SignedTransaction}
    (ht : t ∈ queueOf live sender before) : t ∈ pool.atHand offers := by
  obtain ⟨later, hlater⟩ := (mem_queueOf.mp ht).1
  exact .inr ⟨(t, later), by simp [hsplit, hlater], rfl⟩

include hsplit hwf hapart in
/-- What is pending at an offer's turn under the hash of a queued transaction
is that transaction. -/
theorem transaction_of_queued {t : P.SignedTransaction}
    (ht : t ∈ queueOf live sender before) {entry : MempoolEntry P}
    (hentry : (pool.insertAll ledger before).transactions[P.transaction.hash t]? = some entry) :
    entry.transaction = t :=
  hwf.transaction_of_insertAll hapart (by simp [hsplit]) (atHand_of_queueOf hsplit ht) hentry

include h hapart hwf hsplit hlive

omit h in
/-- At the turn of a live offer that is not pending, what the sender has
pending comes earlier in the queue or shares the offer's slot and pays
less. -/
theorem rivals_of_unrivalled
    (hprogress : Progress live pool ledger (P.transaction.sender d) before ((d, now) :: after))
    (hfree : Unrivalled live pool offers before d now)
    (hnone : ((pool.insertAll ledger before).pruneExpired now).transactions[
      P.transaction.hash d]? = none) (hash : TransactionHash) (entry : MempoolEntry P)
    (hentry : ((pool.insertAll ledger before).pruneExpired now).transactions[hash]? = some entry)
    (hsender : P.transaction.sender entry.transaction = P.transaction.sender d) :
    (∃ t ∈ queueOf live (P.transaction.sender d) before, P.transaction.hash t = hash) ∨
      (SameSlot entry.transaction d ∧
        P.transaction.fee entry.transaction < P.transaction.fee d) := by
  obtain ⟨hin, hretained⟩ := getElem?_pruneExpired_eq_some.mp hentry
  rw [insertAll_config] at hretained
  rcases hprogress.others with huntouched | honly
  · obtain ⟨hpool, houtlives⟩ := (huntouched hash entry hsender).mp hin
    rcases hfree with ⟨own, hown, hstays⟩ | hall
    · -- the offer itself would be pending
      have hd := hapart (.inl ⟨_, own, hown, rfl⟩) (atHand_of_split hsplit) (hwf.keyed hown)
      have hown' := (huntouched _ own (by rw [hd])).mpr
        ⟨hown, fun offer ho => hstays offer (by rw [hsplit]; exact List.mem_append_left _ ho)⟩
      have := getElem?_pruneExpired_eq_some.mpr
        ⟨hown', by rw [insertAll_config]; exact hstays (d, now) (by simp [hsplit])⟩
      rw [hnone] at this
      cases this
    · rcases hall hash entry hpool hsender (outlives_concat.mpr ⟨houtlives, hretained⟩) with
        hqueue | ⟨t, ht, hslot, hfee⟩
      · exact .inl hqueue
      · rw [queueOf_concat_live hlive, List.mem_append, List.mem_singleton] at ht
        rcases ht with ht | rfl
        · -- an earlier offer of that slot is pending, so it is the entry
          obtain ⟨other, hother, -⟩ := hprogress.queued t ht
          have ht' := transaction_of_queued hapart hwf hsplit ht hother
          refine .inl ⟨t, ht, ?_⟩
          rw [← ht'] at hslot
          exact (hwf.insertAll ledger before).unique hother hin hslot.1.symm hslot.2.symm
        · exact .inr ⟨hslot, hfee⟩
  · exact .inl (honly hash entry hin hsender)

omit h hlive in
/-- What is queued before an offer's turn is pending at it, and stays. -/
theorem Progress.queued_pruned
    (hprogress : Progress live pool ledger sender before ((d, now) :: after))
    {t : P.SignedTransaction} (ht : t ∈ queueOf live sender before) :
    ∃ entry, ((pool.insertAll ledger before).pruneExpired now).transactions[
        P.transaction.hash t]? = some entry ∧ entry.transaction = t ∧
      Outlives pool.config after entry := by
  obtain ⟨entry, hentry, hstays⟩ := hprogress.queued t ht
  refine ⟨entry, ?_, transaction_of_queued hapart hwf hsplit ht hentry,
    fun offer ho => hstays offer (List.mem_cons_of_mem _ ho)⟩
  refine getElem?_pruneExpired_eq_some.mpr ⟨hentry, ?_⟩
  rw [insertAll_config]
  exact hstays _ List.mem_cons_self

/-- A live offer without rivals is taken in at its turn. -/
theorem Progress.taken
    (hprogress : Progress live pool ledger (P.transaction.sender d) before ((d, now) :: after))
    (hfree : Unrivalled live pool offers before d now)
    (hnone : ((pool.insertAll ledger before).pruneExpired now).transactions[
      P.transaction.hash d]? = none) :
    ∃ replacement,
      ((pool.insertAll ledger before).pruneExpired now).replacementCandidate d =
        .ok replacement ∧
      Inserted ((pool.insertAll ledger before).pruneExpired now)
        (pool.insertAll ledger (before ++ [(d, now)])) d now replacement := by
  have hadm := h.admissible before d now after hsplit hlive
  obtain ⟨account, haccount, hcost⟩ := hadm.funded
  have haccountNonce : nonceOf ledger.accounts (P.transaction.sender d) =
      P.account.nonce account := by
    simp only [Ledger.account] at haccount
    simp [nonceOf, haccount]
  have hnonces := h.nonces (P.transaction.sender d) hsplit
  have hnonceLast := hadm.nonce
  rw [haccountNonce] at hnonces hnonceLast
  have hfits := h.fits hsplit hlive
  have hqueued : ∀ t ∈ queueOf live (P.transaction.sender d) before,
      P.transaction.sender t = P.transaction.sender d ∧
      ∃ entry, ((pool.insertAll ledger before).pruneExpired now).transactions[
        P.transaction.hash t]? = some entry := by
    intro t ht
    obtain ⟨entry, hentry, -⟩ := hprogress.queued_pruned hapart hwf hsplit ht
    exact ⟨(mem_queueOf.mp ht).2.2, entry, hentry⟩
  have hknown : ∀ {t}, t ∈ pool.atHand offers →
      ((pool.insertAll ledger before).pruneExpired now).Apart t := by
    intro t ht hash entry hentry heq
    obtain rfl := ((hwf.insertAll ledger before).pruneExpired now).keyed hentry
    rw [heq] at hentry
    exact hwf.transaction_of_insertAll hapart (by simp [hsplit]) ht
      (getElem?_pruneExpired_eq_some.mp hentry).1
  obtain ⟨pool', hok⟩ := insertPruned_of_queue
    ((hwf.insertAll ledger before).pruneExpired now) (hknown (atHand_of_split hsplit))
    (fun t ht => hknown (atHand_of_queueOf hsplit ht)) hadm.timestamp hadm.signed hadm.signedAt
    (by
      unfold validateFeePolicy
      rw [pruneExpired_config, insertAll_config, if_neg (UInt32.not_lt.mpr hadm.fee)])
    haccount hqueued hnonces hnonceLast hcost
    (rivals_of_unrivalled hapart hwf hsplit hlive hprogress hfree hnone)
    (by rw [pruneExpired_config, insertAll_config]; exact hfits.1)
    (by rw [pruneExpired_config, insertAll_config]; exact hfits.2)
  obtain ⟨replacement, hreplacement, -, -, hinserted⟩ := insertPruned_ok hok
  refine ⟨replacement, hreplacement, ?_⟩
  rw [insertAll_concat, insertValidatedAt]
  simpa only [hok] using hinserted

/-- A live offer without rivals is in the pool after its turn. -/
theorem Progress.inserted
    (hprogress : Progress live pool ledger (P.transaction.sender d) before ((d, now) :: after))
    (hfree : Unrivalled live pool offers before d now)
    (hnone : ((pool.insertAll ledger before).pruneExpired now).transactions[
      P.transaction.hash d]? = none) :
    Progress live pool ledger (P.transaction.sender d) (before ++ [(d, now)]) after := by
  obtain ⟨replacement, hreplacement, hinserted⟩ :=
    hprogress.taken h hapart hwf hsplit hlive hfree hnone
  refine ⟨?_, .inr ?_⟩
  · intro t ht
    rw [queueOf_concat_live hlive, List.mem_append, List.mem_singleton] at ht
    rcases ht with ht | rfl
    · obtain ⟨entry, hentry, htx, hstays⟩ := hprogress.queued_pruned hapart hwf hsplit ht
      refine ⟨entry, ?_, hstays⟩
      rw [hinserted.lookup, if_neg, if_neg]
      · exact hentry
      · -- the replaced entry has the nonce of the offer, the queue smaller ones
        refine (not_replaced_of_slot hreplacement hentry ?_).symm
        rw [htx]
        exact fun hslot => absurd hslot.2 (UInt64.ne_of_lt (h.nonce_lt hsplit hlive ht))
      · intro heq
        rw [← heq, hnone] at hentry
        cases hentry
    · exact ⟨_, by rw [hinserted.lookup, if_pos rfl],
        (h.admissible before t now after hsplit hlive).stays⟩
  · intro hash entry hentry hsender
    rw [queueOf_concat_live hlive]
    rw [hinserted.lookup] at hentry
    split at hentry
    · next heq => exact ⟨d, by simp, heq⟩
    split at hentry
    · cases hentry
    next hne =>
    rcases rivals_of_unrivalled hapart hwf hsplit hlive hprogress hfree hnone hash entry hentry
      hsender with ⟨t, ht, hhash⟩ | ⟨hslot, -⟩
    · exact ⟨t, List.mem_append_left _ ht, hhash⟩
    · exact absurd (replaced_of_sameSlot ((hwf.insertAll ledger before).pruneExpired now)
        hreplacement hentry hslot) hne

/-- A live offer that is pending already stays pending. -/
theorem Progress.kept
    (hprogress : Progress live pool ledger (P.transaction.sender d) before ((d, now) :: after))
    (hfree : Unrivalled live pool offers before d now) {own : MempoolEntry P}
    (hown : ((pool.insertAll ledger before).pruneExpired now).transactions[
      P.transaction.hash d]? = some own) :
    Progress live pool ledger (P.transaction.sender d) (before ++ [(d, now)]) after := by
  obtain ⟨hin, hretained⟩ := getElem?_pruneExpired_eq_some.mp hown
  rw [insertAll_config] at hretained
  have hd := hwf.transaction_of_insertAll hapart (by simp [hsplit]) (atHand_of_split hsplit) hin
  have hrefused := insertValidatedAt_of_pending (pool.insertAll ledger before) ledger hown
  have hsame := (insertAll_concat pool ledger before d now).trans hrefused
  have hlt : ∀ t ∈ queueOf live (P.transaction.sender d) before, t ≠ d := by
    rintro t ht rfl
    exact absurd (h.nonce_lt hsplit hlive ht) (UInt64.lt_irrefl _)
  rcases hprogress.others with huntouched | honly
  · obtain ⟨hpool, houtlives⟩ := (huntouched _ own (by rw [hd])).mp hin
    -- the offer is no rival of itself
    have hstays : Outlives pool.config offers own := by
      rcases hfree with ⟨own', hown', hstays⟩ | hall
      · rw [hpool, Option.some.injEq] at hown'
        rwa [hown']
      · rcases hall _ own hpool (by rw [hd]) (outlives_concat.mpr ⟨houtlives, hretained⟩) with
          ⟨t, ht, hhash⟩ | ⟨t, ht, hslot, hfee⟩
        · exact absurd (hapart (atHand_of_queueOf hsplit ht) (atHand_of_split hsplit) hhash)
            (hlt t ht)
        · rw [queueOf_concat_live hlive, List.mem_append, List.mem_singleton] at ht
          rw [hd] at hslot hfee
          rcases ht with ht | rfl
          · exact absurd hslot.2.symm (UInt64.ne_of_lt (h.nonce_lt hsplit hlive ht))
          · exact absurd hfee (UInt32.lt_irrefl _)
    refine ⟨?_, .inl (huntouched.pruned (prunes_of_not_inserted hrefused))⟩
    intro t ht
    rw [queueOf_concat_live hlive, List.mem_append, List.mem_singleton] at ht
    rcases ht with ht | rfl
    · obtain ⟨entry, hentry, -, hrest⟩ := hprogress.queued_pruned hapart hwf hsplit ht
      exact ⟨entry, by rw [hsame]; exact hentry, hrest⟩
    · refine ⟨own, by rw [hsame]; exact hown, fun offer ho => hstays offer ?_⟩
      rw [hsplit]
      exact List.mem_append_right _ (List.mem_cons_of_mem _ ho)
  · obtain ⟨t, ht, hhash⟩ := honly _ own hin (by rw [hd])
    exact absurd (hapart (atHand_of_queueOf hsplit ht) (atHand_of_split hsplit) hhash) (hlt t ht)

omit hlive in
/-- One offer, whoever makes it. -/
theorem Progress.step
    (hprogress : Progress live pool ledger sender before ((d, now) :: after))
    (hfree : live d → Unrivalled live pool offers before d now) :
    Progress live pool ledger sender (before ++ [(d, now)]) after := by
  have hsender : ∀ t ∈ queueOf live sender before, ∀ entry,
      (pool.insertAll ledger before).transactions[P.transaction.hash t]? = some entry →
      P.transaction.sender entry.transaction = sender := by
    intro t ht entry hentry
    rw [transaction_of_queued hapart hwf hsplit ht hentry]
    exact (mem_queueOf.mp ht).2.2
  by_cases hlive : live d
  · by_cases hown : P.transaction.sender d = sender
    · subst hown
      cases hpending : ((pool.insertAll ledger before).pruneExpired now).transactions[
          P.transaction.hash d]? with
      | none => exact hprogress.inserted h hapart hwf hsplit hlive (hfree hlive) hpending
      | some own => exact hprogress.kept h hapart hwf hsplit hlive (hfree hlive) hpending
    · exact hprogress.pruned hsender (prunes_of_sender_ne hown)
        (queueOf_concat_of_not (fun hd => hown hd.2) before now)
  · have hspent := h.spent (d, now) (by simp [hsplit]) hlive
    exact hprogress.pruned hsender
      (prunes_of_not_inserted (insertValidatedAt_of_spent _ now hspent))
      (queueOf_concat_of_not (fun hd => hlive hd.1) before now)

end Forward

/-- If no live offer has rivals at its turn, every queue is in the pool after
every prefix of the offers. -/
theorem Readmissible.progress (h : Readmissible live pool ledger offers)
    (hapart : Set.InjOn P.transaction.hash (pool.atHand offers)) (hwf : pool.WellFormed)
    (hfree : ∀ before d now after, offers = before ++ (d, now) :: after → live d →
      Unrivalled live pool offers before d now)
    (hsplit : offers = before ++ after) (sender : Address) :
    Progress live pool ledger sender before after := by
  induction before using List.reverseRecOn generalizing after with
  | nil => exact ⟨by simp [queueOf], .inl fun hash entry _ => by simp [insertAll, Outlives]⟩
  | append_singleton before offer ih =>
      obtain ⟨d, now⟩ := offer
      have hsplit' : offers = before ++ (d, now) :: after := by simpa using hsplit
      exact (ih hsplit').step h hapart hwf hsplit' (hfree before d now after hsplit')

/-! ## From the pool to free slots -/

variable (live pool) in
/-- Everything the sender had pending is in the queue or outbid by it. -/
def Outbid (sender : Address) (before : List (P.SignedTransaction × UInt64)) : Prop :=
  ∀ (hash : TransactionHash) entry, pool.transactions[hash]? = some entry →
    P.transaction.sender entry.transaction = sender → Outlives pool.config before entry →
    (∃ t ∈ queueOf live sender before, P.transaction.hash t = hash) ∨
      ∃ t ∈ queueOf live sender before, SameSlot entry.transaction t ∧
        P.transaction.fee entry.transaction < P.transaction.fee t

variable (live pool ledger offers) in
/-- After the offers `before`, if every live offer ends up in the pool: the
queue was pending from the start, or has displaced what was. -/
def Retraced (sender : Address) (before : List (P.SignedTransaction × UInt64)) : Prop :=
  (Untouched pool ledger sender before ∧ ∀ t ∈ queueOf live sender before, ∃ entry,
      pool.transactions[P.transaction.hash t]? = some entry ∧
        Outlives pool.config offers entry) ∨
    Outbid live pool sender before

theorem queueOf_subset_concat (sender : Address) (before : List (P.SignedTransaction × UInt64))
    (offer : P.SignedTransaction × UInt64) {t : P.SignedTransaction}
    (ht : t ∈ queueOf live sender before) : t ∈ queueOf live sender (before ++ [offer]) := by
  rw [queueOf_concat]
  exact List.mem_append_left _ ht

theorem Outbid.unrivalled (h : Outbid live pool (P.transaction.sender d) before)
    (offers : List (P.SignedTransaction × UInt64)) (now : UInt64) :
    Unrivalled live pool offers before d now := by
  refine .inr fun hash entry hentry hsender hstays => ?_
  rcases h hash entry hentry hsender (outlives_concat.mp hstays).1 with hqueue | ⟨t, ht, hbid⟩
  · exact .inl hqueue
  · exact .inr ⟨t, queueOf_subset_concat _ _ _ ht, hbid⟩

theorem Outbid.concat (h : Outbid live pool sender before) (offer : P.SignedTransaction × UInt64) :
    Outbid live pool sender (before ++ [offer]) := by
  intro hash entry hentry hsender hstays
  rcases h hash entry hentry hsender (outlives_concat.mp hstays).1 with
    ⟨t, ht, hhash⟩ | ⟨t, ht, hbid⟩
  · exact .inl ⟨t, queueOf_subset_concat _ _ _ ht, hhash⟩
  · exact .inr ⟨t, queueOf_subset_concat _ _ _ ht, hbid⟩

/-- An offer that only prunes the sender's entries. -/
theorem Retraced.pruned (h : Retraced live pool ledger offers sender before)
    (hview : Prunes pool ledger sender before d now)
    (hqueue : queueOf live sender (before ++ [(d, now)]) = queueOf live sender before) :
    Retraced live pool ledger offers sender (before ++ [(d, now)]) := by
  rcases h with ⟨huntouched, hqueued⟩ | houtbid
  · exact .inl ⟨huntouched.pruned hview, by rwa [hqueue]⟩
  · exact .inr (houtbid.concat _)

section Backward

variable (h : Readmissible live pool ledger offers)
  (hapart : Set.InjOn P.transaction.hash (pool.atHand offers)) (hwf : pool.WellFormed)
  (hsplit : offers = before ++ (d, now) :: after) (hlive : live d)

include h hapart hsplit hlive

/-- A live offer that is in the pool at the end was there after its turn. -/
theorem pending_after_turn
    (hend : P.transaction.hash d ∈ (pool.insertAll ledger offers).transactions) :
    ∃ entry, (pool.insertAll ledger (before ++ [(d, now)])).transactions[
        P.transaction.hash d]? = some entry ∧ Outlives pool.config after entry := by
  have hresume : pool.insertAll ledger offers =
      (pool.insertAll ledger (before ++ [(d, now)])).insertAll ledger after := by
    simp [hsplit, insertAll]
  obtain ⟨entry, hentry⟩ := Option.isSome_iff_exists.mp
    (Std.ExtTreeMap.isSome_getElem?_iff_mem.mpr hend)
  rw [hresume] at hentry
  obtain ⟨hafter, hstays⟩ := getElem?_of_insertAll hentry (h.hash_ne hapart hsplit hlive)
  rw [insertAll_config] at hstays
  exact ⟨entry, hafter, hstays⟩

include hwf in
/-- If the queue was pending from the start and the next live offer is
inserted, the sender had nothing else pending than the queue and what the
offer replaces. -/
theorem unrivalled_of_inserted
    (huntouched : Untouched pool ledger (P.transaction.sender d) before)
    (hqueued : ∀ t ∈ queueOf live (P.transaction.sender d) before, ∃ entry,
      pool.transactions[P.transaction.hash t]? = some entry ∧ Outlives pool.config offers entry)
    {replacement : Option TransactionHash}
    (hreplacement : ((pool.insertAll ledger before).pruneExpired now).replacementCandidate d =
      .ok replacement)
    (hvalid : ((pool.insertAll ledger before).pruneExpired now).validateAgainstLedgerExcluding
      ledger d replacement = .ok ()) (hash : TransactionHash) (entry : MempoolEntry P)
    (hentry : pool.transactions[hash]? = some entry)
    (hsender : P.transaction.sender entry.transaction = P.transaction.sender d)
    (hstays : Outlives pool.config (before ++ [(d, now)]) entry) :
    (∃ t ∈ queueOf live (P.transaction.sender d) before, P.transaction.hash t = hash) ∨
      (SameSlot entry.transaction d ∧
        P.transaction.fee entry.transaction < P.transaction.fee d) := by
  have hwf' := (hwf.insertAll ledger before).pruneExpired now
  obtain ⟨hbefore, hretained⟩ := outlives_concat.mp hstays
  have hin := getElem?_pruneExpired_eq_some.mpr
    ⟨(huntouched hash entry hsender).mpr ⟨hentry, hbefore⟩, by rwa [insertAll_config]⟩
  by_cases hslot : SameSlot entry.transaction d
  · have hreplaced := replaced_of_sameSlot hwf' hreplacement hin hslot
    rcases replacementCandidate_ok hreplacement with ⟨hnone, -⟩ | ⟨r, e, hsome, he, -, hfee⟩
    · rw [hnone] at hreplaced
      cases hreplaced
    · rw [hreplaced, Option.some.injEq] at hsome
      rw [← hsome, hin, Option.some.injEq] at he
      subst he
      exact .inr ⟨hslot, hfee⟩
  · -- the nonce lies in the range of the queue, whose member has that slot
    have hne : some hash ≠ replacement := by
      rintro rfl
      rcases replacementCandidate_ok hreplacement with ⟨hnone, -⟩ | ⟨r, e, hsome, he, hslot', -⟩
      · cases hnone
      · cases hsome
        rw [hin, Option.some.injEq] at he
        exact hslot (he ▸ hslot')
    obtain ⟨hlow, hhigh⟩ := (validateAgainstLedgerExcluding_ok hvalid).2 entry.transaction
      (mem_pendingFromSender.mpr ⟨hash, entry, hin, hne, rfl, hsender⟩)
    have hhigh' : (P.transaction.nonce entry.transaction).toNat ≠ (P.transaction.nonce d).toNat :=
      fun heq => hslot ⟨hsender, UInt64.toNat_inj.mp heq⟩
    rw [UInt64.le_iff_toNat_le] at hlow hhigh
    have hlast := (h.admissible before d now after hsplit hlive).nonce
    have hmem : (P.transaction.nonce entry.transaction).toNat ∈
        (queueOf live (P.transaction.sender d) before).map
          fun t => (P.transaction.nonce t).toNat := by
      rw [h.nonces (P.transaction.sender d) hsplit, List.mem_range'_1]
      omega
    obtain ⟨t, ht, hnonceEq⟩ := List.mem_map.mp hmem
    obtain ⟨other, hother, -⟩ := hqueued t ht
    have ht' : other.transaction = t :=
      hapart (.inl ⟨_, other, hother, rfl⟩) (atHand_of_queueOf hsplit ht) (hwf.keyed hother)
    refine .inl ⟨t, ht, hwf.unique hother hentry ?_ ?_⟩
    · rw [ht', hsender]
      exact (mem_queueOf.mp ht).2.2
    · rw [ht']
      exact UInt64.toNat_inj.mp hnonceEq

include hwf in
/-- A live offer that ends up in the pool had no rivals at its turn. -/
theorem Retraced.offered
    (hretraced : Retraced live pool ledger offers (P.transaction.sender d) before)
    (hend : P.transaction.hash d ∈ (pool.insertAll ledger offers).transactions) :
    Unrivalled live pool offers before d now ∧
      Retraced live pool ledger offers (P.transaction.sender d) (before ++ [(d, now)]) := by
  rcases hretraced with ⟨huntouched, hqueued⟩ | houtbid
  · obtain ⟨own, hown, hafter⟩ := pending_after_turn h hapart hsplit hlive hend
    have hqueue := queueOf_concat_live hlive before now
    have hd := hwf.transaction_of_insertAll hapart (by simp [hsplit]) (atHand_of_split hsplit) hown
    rcases insertValidatedAt_cases (pool.insertAll ledger before) ledger d now with
      heq | ⟨replacement, hreplacement, hvalid, -⟩
    · -- nothing was inserted, so the offer was pending from the start
      have huntouched' := huntouched.pruned (prunes_of_not_inserted heq)
      obtain ⟨hpool, hstays⟩ := (huntouched' _ own (by rw [hd])).mp hown
      have hoffers : Outlives pool.config offers own := by
        intro offer ho
        rw [hsplit, List.append_cons, List.mem_append] at ho
        exact ho.elim (hstays offer) (hafter offer)
      refine ⟨.inl ⟨own, hpool, hoffers⟩, .inl ⟨huntouched', ?_⟩⟩
      intro t ht
      rw [hqueue, List.mem_append, List.mem_singleton] at ht
      rcases ht with ht | rfl
      · exact hqueued t ht
      · exact ⟨own, hpool, hoffers⟩
    · have hrivals := unrivalled_of_inserted h hapart hwf hsplit hlive huntouched hqueued
        hreplacement hvalid
      have hlast : d ∈ queueOf live (P.transaction.sender d) (before ++ [(d, now)]) := by
        rw [hqueue]
        exact List.mem_append_right _ (List.mem_singleton.mpr rfl)
      constructor
      · refine .inr fun hash entry hentry hsender hstays => ?_
        exact (hrivals hash entry hentry hsender hstays).imp_right fun hbid => ⟨d, hlast, hbid⟩
      · refine .inr fun hash entry hentry hsender hstays => ?_
        rcases hrivals hash entry hentry hsender hstays with ⟨t, ht, hhash⟩ | hbid
        · exact .inl ⟨t, queueOf_subset_concat _ _ _ ht, hhash⟩
        · exact .inr ⟨d, hlast, hbid⟩
  · exact ⟨houtbid.unrivalled offers now, .inr (houtbid.concat _)⟩

end Backward

/-- If every live offer ends up in the pool, the run can be retraced. -/
theorem Readmissible.retraced (h : Readmissible live pool ledger offers)
    (hapart : Set.InjOn P.transaction.hash (pool.atHand offers)) (hwf : pool.WellFormed)
    (hend : ∀ offer ∈ offers, live offer.1 →
      P.transaction.hash offer.1 ∈ (pool.insertAll ledger offers).transactions)
    (hsplit : offers = before ++ after) (sender : Address) :
    Retraced live pool ledger offers sender before := by
  induction before using List.reverseRecOn generalizing after with
  | nil =>
      exact .inl ⟨fun hash entry _ => by simp [insertAll, Outlives], by simp [queueOf]⟩
  | append_singleton before offer ih =>
      obtain ⟨d, now⟩ := offer
      have hsplit' : offers = before ++ (d, now) :: after := by simpa using hsplit
      have hbefore := ih hsplit'
      have hmem : (d, now) ∈ offers := by simp [hsplit']
      by_cases hlive : live d
      · by_cases hown : P.transaction.sender d = sender
        · subst hown
          exact (hbefore.offered h hapart hwf hsplit' hlive (hend _ hmem hlive)).2
        · exact hbefore.pruned (prunes_of_sender_ne hown)
            (queueOf_concat_of_not (fun hd => hown hd.2) before now)
      · have hspent := h.spent _ hmem hlive
        exact hbefore.pruned (prunes_of_not_inserted (insertValidatedAt_of_spent _ now hspent))
          (queueOf_concat_of_not (fun hd => hlive hd.1) before now)

/-- **Every live offer ends up in the pool exactly if none has rivals at its
turn.** -/
theorem Readmissible.pending_iff (h : Readmissible live pool ledger offers)
    (hapart : Set.InjOn P.transaction.hash (pool.atHand offers)) (hwf : pool.WellFormed) :
    (∀ offer ∈ offers, live offer.1 →
        P.transaction.hash offer.1 ∈ (pool.insertAll ledger offers).transactions) ↔
      ∀ before d now after, offers = before ++ (d, now) :: after → live d →
        Unrivalled live pool offers before d now := by
  constructor
  · intro hend before d now after hsplit hlive
    have hmem : (d, now) ∈ offers := by simp [hsplit]
    exact ((h.retraced hapart hwf hend hsplit _).offered h hapart hwf hsplit hlive
      (hend _ hmem hlive)).1
  · rintro hfree ⟨d, now⟩ hmem hlive
    have hprogress := h.progress hapart hwf hfree (List.append_nil offers).symm
      (P.transaction.sender d)
    obtain ⟨entry, hentry, -⟩ := hprogress.queued d
      (mem_queueOf.mpr ⟨⟨now, hmem⟩, hlive, rfl⟩)
    rw [← Std.ExtTreeMap.isSome_getElem?_iff_mem, hentry]
    rfl

end Queue

end Mempool

end PaqusNode
