import PaqusNode.Mempool.Capacity

/-!
# PaqusNode.Mempool.Commute

Submissions of different senders do not see each other.  Apart from the
limits, the verdict on a transaction looks at the entries of its own sender
only; so with room for both, two submissions at one clock reading can be
made in either order.
-/

namespace PaqusNode

namespace Mempool

variable {P : Paqus}

variable {pool : Mempool P} {ledger : P.Ledger} {t : P.SignedTransaction} {now : UInt64}

/-! ## What a verdict looks at -/

/-- The checks of an insertion into a pruned pool, but for the limits; the
result is the entry to replace. -/
def verdict (pool : Mempool P) (ledger : P.Ledger) (t : P.SignedTransaction) (now : UInt64) :
    Except MempoolError (Option TransactionHash) :=
  match validateTimestampPolicy t now with
  | .error e => .error e
  | .ok () =>
  match P.transaction.validateSignedAt t now with
  | .error e => .error (.invalidTransaction e)
  | .ok () =>
  match pool.validateFeePolicy t with
  | .error e => .error e
  | .ok () =>
  match pool.replacementCandidate t with
  | .error e => .error e
  | .ok replacement =>
  match pool.validateAgainstLedgerExcluding ledger t replacement with
  | .error e => .error e
  | .ok () =>
      if pool.transactions.contains (P.transaction.hash t) then .error .duplicateTransaction
      else .ok replacement

/-- After the verdict only the limits are left to check. -/
theorem insertPruned_eq (pool : Mempool P) (ledger : P.Ledger) (t : P.SignedTransaction)
    (now : UInt64) :
    pool.insertPruned ledger t now = match pool.verdict ledger t now with
      | .error e => .error e
      | .ok replacement => pool.insertUnchecked t now replacement := by
  unfold insertPruned verdict
  cases validateTimestampPolicy t now with
  | error e => rfl
  | ok _ =>
  cases P.transaction.validateSignedAt t now with
  | error e => rfl
  | ok _ =>
  cases pool.validateFeePolicy t with
  | error e => rfl
  | ok _ =>
  cases pool.replacementCandidate t with
  | error e => rfl
  | ok replacement =>
  simp only
  cases pool.validateAgainstLedgerExcluding ledger t replacement with
  | error e => rfl
  | ok _ =>
  simp only
  split
  · next heq =>
      split at heq
      · next hdup =>
          cases heq
          simp only [insertUnchecked, hdup, if_true]
      · cases heq
  · next heq =>
      split at heq
      · cases heq
      · cases heq
        rfl

/-- An accepted transaction is new, and replaces the candidate. -/
theorem verdict_ok {replacement : Option TransactionHash}
    (h : pool.verdict ledger t now = .ok replacement) :
    pool.replacementCandidate t = .ok replacement ∧
      pool.transactions[P.transaction.hash t]? = none := by
  unfold verdict at h
  split at h
  · cases h
  split at h
  · cases h
  split at h
  · cases h
  split at h
  · cases h
  next hreplacement =>
  split at h
  · cases h
  split at h
  · cases h
  next hfresh =>
  cases h
  exact ⟨hreplacement, by simpa using hfresh⟩

/-- The entries of one sender. -/
def entriesOf (held : BTreeMap TransactionHash (MempoolEntry P)) (sender : Address) :
    BTreeMap TransactionHash (MempoolEntry P) :=
  held.filter fun _ entry => P.transaction.sender entry.transaction == sender

/-- Who holds a slot is found among the sender's own entries. -/
theorem find?_entriesOf (pool : Mempool P) (t : P.SignedTransaction) :
    (pool.transactions.toList.find? fun (_, entry) =>
      P.transaction.sender entry.transaction == P.transaction.sender t &&
        P.transaction.nonce entry.transaction == P.transaction.nonce t) =
    (entriesOf pool.transactions (P.transaction.sender t)).toList.find? fun (_, entry) =>
      P.transaction.nonce entry.transaction == P.transaction.nonce t := by
  rw [entriesOf, Std.ExtTreeMap.toList_filter, List.find?_filter]
  simp only [Bool.decide_and, Bool.decide_eq_true]

theorem replacementCandidate_congr {pool' : Mempool P}
    (h : entriesOf pool.transactions (P.transaction.sender t) =
      entriesOf pool'.transactions (P.transaction.sender t)) :
    pool.replacementCandidate t = pool'.replacementCandidate t := by
  unfold replacementCandidate
  rw [find?_entriesOf, find?_entriesOf, h]

/-- What a sender has pending is found among the sender's own entries. -/
theorem filter_entriesOf (pool : Mempool P) (sender : Address)
    (excluded : Option TransactionHash) :
    (((pool.transactions.toList.filter fun (hash, _) => decide (some hash ≠ excluded)).map
      fun (_, entry) => entry.transaction).filter
      fun pending => P.transaction.sender pending == sender) =
    ((entriesOf pool.transactions sender).toList.filter
      fun (hash, _) => decide (some hash ≠ excluded)).map
      fun (_, entry) => entry.transaction := by
  rw [entriesOf, Std.ExtTreeMap.toList_filter, List.filter_map, List.filter_filter,
    List.filter_filter]
  refine congrArg (List.map _) (List.filter_congr ?_)
  intro e _
  simp [Bool.and_comm]

theorem pendingFromSender_congr {pool' : Mempool P} {sender : Address}
    (h : entriesOf pool.transactions sender = entriesOf pool'.transactions sender)
    (excluded : Option TransactionHash) :
    pool.pendingFromSender sender excluded = pool'.pendingFromSender sender excluded := by
  unfold pendingFromSender
  rw [filter_entriesOf, filter_entriesOf, h]

/-- **A verdict looks at the entries of the sender, and for a duplicate.** -/
theorem verdict_congr {pool' : Mempool P} (hconfig : pool'.config = pool.config)
    (hentries : entriesOf pool'.transactions (P.transaction.sender t) =
      entriesOf pool.transactions (P.transaction.sender t))
    (hcontains : pool'.transactions[P.transaction.hash t]? =
      pool.transactions[P.transaction.hash t]?) (ledger : P.Ledger) (now : UInt64) :
    pool'.verdict ledger t now = pool.verdict ledger t now := by
  have hfee : pool'.validateFeePolicy t = pool.validateFeePolicy t := by
    unfold validateFeePolicy
    rw [hconfig]
  have hvalid : ∀ replacement, pool'.validateAgainstLedgerExcluding ledger t replacement =
      pool.validateAgainstLedgerExcluding ledger t replacement := by
    intro replacement
    unfold validateAgainstLedgerExcluding
    rw [hfee, pendingFromSender_congr hentries]
  unfold verdict
  simp only [hfee, replacementCandidate_congr hentries, hvalid, BTreeMap.contains_eq_isSome,
    hcontains]

/-! ## Pools with a right counter -/

/-- The pool with these entries, its counter right. -/
def settled (config : MempoolConfig) (held : BTreeMap TransactionHash (MempoolEntry P)) :
    Mempool P := ⟨held, config, bytes held⟩

/-- The entries once the newcomer has taken its place. -/
theorem getElem?_taken (held : BTreeMap TransactionHash (MempoolEntry P))
    (t : P.SignedTransaction) (now : UInt64) (replacement : Option TransactionHash)
    (hash : TransactionHash) :
    (taken held t now replacement)[hash]? =
      if P.transaction.hash t = hash then some ⟨t, now⟩
      else if replacement = some hash then none else held[hash]? := by
  rw [taken, BTreeMap.getElem?_insert_eq]
  cases replacement with
  | none => rfl
  | some r =>
      rw [without, BTreeMap.getElem?_erase_eq]
      simp only [Option.some.injEq]

section Settled

variable {config : MempoolConfig} {held : BTreeMap TransactionHash (MempoolEntry P)}
  {now : UInt64}

/-- Nothing is expired right after the insertions of that reading. -/
theorem pruneExpired_settled (hlimit : config.maxBytes ≤ usizeMax) (hfits : Fits config held)
    (hretained : ∀ (hash : TransactionHash) entry, held[hash]? = some entry →
      retained config now entry = true) :
    (settled config held).pruneExpired now = settled config held := by
  have hkept : (held.filter fun _ entry => retained config now entry) = held := by
    refine Std.ExtTreeMap.ext_getElem? fun hash => ?_
    rw [BTreeMap.getElem?_filter_eq]
    cases hentry : held[hash]? with
    | none => rfl
    | some entry => rw [Option.filter_some, hretained hash entry hentry, if_pos rfl]
  have hbytes : sumBytes held.valuesList = bytes held := by
    rw [sumBytes_eq, ← bytes, Nat.min_eq_left (Nat.le_trans hfits.weight hlimit)]
  simp only [settled, pruneExpired, hkept, hbytes]

/-- A newcomer at the same reading is not expired either. -/
theorem retained_taken (hretained : ∀ (hash : TransactionHash) entry, held[hash]? = some entry →
      retained config now entry = true) (t : P.SignedTransaction)
    (replacement : Option TransactionHash) (hash : TransactionHash) (entry : MempoolEntry P)
    (hentry : (taken held t now replacement)[hash]? = some entry) :
    retained config now entry = true := by
  rw [getElem?_taken] at hentry
  split at hentry
  · cases hentry
    have hzero : satSub now now = 0 := by
      rw [← UInt64.toNat_inj, toNat_satSub, Nat.sub_self]
      rfl
    rw [retained, hzero]
    exact decide_eq_true (UInt64.le_iff_toNat_le.mpr (Nat.zero_le _))
  split at hentry
  · cases hentry
  · exact hretained hash entry hentry

/-- What a submission makes of the entries, limits aside, and its result. -/
def submit (config : MempoolConfig) (ledger : P.Ledger) (now : UInt64)
    (held : BTreeMap TransactionHash (MempoolEntry P)) (t : P.SignedTransaction) :
    BTreeMap TransactionHash (MempoolEntry P) × Except MempoolError TransactionHash :=
  match (settled config held).verdict ledger t now with
  | .error e => (held, .error e)
  | .ok replacement => (taken held t now replacement, .ok (P.transaction.hash t))

/-- With room for the newcomer, the verdict decides. -/
theorem insertValidatedAt_of_settled (hpruned : pool.pruneExpired now = settled config held)
    (hlimit : config.maxBytes ≤ usizeMax)
    (hroom : ∀ replacement, (settled config held).verdict ledger t now = .ok replacement →
      Fits config (taken held t now replacement)) :
    pool.insertValidatedAt ledger t now = (settled config (submit config ledger now held t).1,
      (submit config ledger now held t).2) := by
  unfold insertValidatedAt submit
  simp only [hpruned, insertPruned_eq]
  cases hverdict : (settled config held).verdict ledger t now with
  | error e => rfl
  | ok replacement =>
      obtain ⟨hreplacement, hfresh⟩ := verdict_ok hverdict
      have hexact : (settled config held).Exact := rfl
      have hinsert := hexact.insertUnchecked_of_room hlimit
        (present_of_replacementCandidate hreplacement) now hfresh
        ((not_full_iff_fits now (without_eq_none hfresh replacement)).mpr
          (hroom replacement hverdict))
      simp only [hinsert]
      rfl

/-- A second submission at the same reading finds nothing expired. -/
theorem pruneExpired_submit (hlimit : config.maxBytes ≤ usizeMax) (hfits : Fits config held)
    (hretained : ∀ (hash : TransactionHash) entry, held[hash]? = some entry →
      retained config now entry = true)
    (hroom : ∀ replacement, (settled config held).verdict ledger t now = .ok replacement →
      Fits config (taken held t now replacement)) :
    (settled config (submit config ledger now held t).1).pruneExpired now =
      settled config (submit config ledger now held t).1 := by
  unfold submit
  cases hverdict : (settled config held).verdict ledger t now with
  | error e => exact pruneExpired_settled hlimit hfits hretained
  | ok replacement =>
      exact pruneExpired_settled hlimit (hroom replacement hverdict)
        (retained_taken hretained t replacement)

end Settled

/-! ## Two senders -/

/-- The entry with the sender and nonce of `t`, the first in hash order. -/
def slotHolder (held : BTreeMap TransactionHash (MempoolEntry P)) (t : P.SignedTransaction) :
    Option TransactionHash :=
  (held.toList.find? fun (_, entry) =>
    P.transaction.sender entry.transaction == P.transaction.sender t &&
      P.transaction.nonce entry.transaction == P.transaction.nonce t).map Prod.fst

/-- The entries when `t` is held as well, in the place of the entry with its
sender and nonce. -/
def holding (now : UInt64) (held : BTreeMap TransactionHash (MempoolEntry P))
    (t : P.SignedTransaction) : BTreeMap TransactionHash (MempoolEntry P) :=
  taken held t now (slotHolder held t)

/-- The candidate is whoever holds the slot. -/
theorem eq_slotHolder {replacement : Option TransactionHash}
    (h : pool.replacementCandidate t = .ok replacement) :
    replacement = slotHolder pool.transactions t := by
  unfold replacementCandidate at h
  unfold slotHolder
  split at h
  · next hnone =>
      cases h
      rw [hnone]
      rfl
  · next hsome =>
      split at h
      · cases h
      · cases h
        rw [hsome]
        rfl

section Senders

variable {config : MempoolConfig} {held : BTreeMap TransactionHash (MempoolEntry P)}
  {ledger : P.Ledger} {t u : P.SignedTransaction} {now : UInt64}
  {replacement replacement' : Option TransactionHash}

/-- An accepted transaction does not replace another sender's. -/
theorem replacement_ne (hkeyed : (settled config held).Keyed)
    (hapart : (settled config held).Apart u)
    (hne : P.transaction.sender t ≠ P.transaction.sender u)
    (ht : (settled config held).verdict ledger t now = .ok replacement) :
    replacement ≠ some (P.transaction.hash u) := by
  rintro rfl
  rcases replacementCandidate_ok (verdict_ok ht).1 with
    ⟨hnone, -⟩ | ⟨r, entry, hr, hentry, hslot, -⟩
  · cases hnone
  · cases hr
    rw [← hslot.1, hapart hentry (hkeyed hentry)] at hne
    exact hne rfl

/-- **An accepted transaction leaves the verdict on another sender's alone.** -/
theorem verdict_taken (hkeyed : (settled config held).Keyed)
    (hhash : P.transaction.hash t ≠ P.transaction.hash u)
    (hapart : (settled config held).Apart u)
    (hne : P.transaction.sender t ≠ P.transaction.sender u)
    (ht : (settled config held).verdict ledger t now = .ok replacement) :
    (settled config (taken held t now replacement)).verdict ledger u now =
      (settled config held).verdict ledger u now := by
  obtain ⟨hreplacement, hfresh⟩ := verdict_ok ht
  have hreplaced := replacement_ne hkeyed hapart hne ht
  have hconfig : (settled config (taken held t now replacement)).config =
      (settled config held).config := rfl
  refine verdict_congr hconfig ?_ ?_ ledger now
  · refine Std.ExtTreeMap.ext_getElem? fun hash => ?_
    simp only [entriesOf, BTreeMap.getElem?_filter_eq, settled, getElem?_taken]
    split
    · next heq =>
        subst heq
        have hfresh' : held[P.transaction.hash t]? = none := hfresh
        rw [hfresh', Option.filter_some]
        simp [hne]
    split
    · next heq =>
        subst heq
        rcases replacementCandidate_ok hreplacement with
          ⟨hnone, -⟩ | ⟨r, entry, hr, hentry, hslot, -⟩
        · cases hnone
        · cases hr
          have hentry' : held[hash]? = some entry := hentry
          rw [hentry', Option.filter_some, Option.filter_none, if_neg]
          simp [hslot.1, hne]
    · rfl
  · simp only [settled, getElem?_taken, if_neg hhash, if_neg hreplaced]

/-- Two senders' transactions take their places in either order. -/
theorem taken_comm (hkeyed : (settled config held).Keyed)
    (hhash : P.transaction.hash t ≠ P.transaction.hash u)
    (hapart : (settled config held).Apart t) (hapart' : (settled config held).Apart u)
    (hne : P.transaction.sender t ≠ P.transaction.sender u)
    (ht : (settled config held).verdict ledger t now = .ok replacement)
    (hu : (settled config held).verdict ledger u now = .ok replacement') :
    taken (taken held t now replacement) u now replacement' =
      taken (taken held u now replacement') t now replacement := by
  have hreplaced := replacement_ne hkeyed hapart' hne ht
  have hreplaced' := replacement_ne hkeyed hapart (Ne.symm hne) hu
  refine Std.ExtTreeMap.ext_getElem? fun hash => ?_
  simp only [getElem?_taken]
  by_cases ht : P.transaction.hash t = hash
  · subst ht
    simp [Ne.symm hhash, hreplaced']
  by_cases hu : P.transaction.hash u = hash
  · subst hu
    simp [ht, hreplaced]
  simp only [if_neg ht, if_neg hu]
  by_cases hr : replacement = some hash
  · simp [hr]
  · simp [hr]

/-- **Submissions commute, limits aside.** -/
theorem submit_comm (ledger : P.Ledger) (now : UInt64)
    (hkeyed : (settled config held).Keyed)
    (hhash : P.transaction.hash t ≠ P.transaction.hash u)
    (hapart : (settled config held).Apart t) (hapart' : (settled config held).Apart u)
    (hne : P.transaction.sender t ≠ P.transaction.sender u) :
    (submit config ledger now (submit config ledger now held t).1 u).2 =
        (submit config ledger now held u).2 ∧
      (submit config ledger now (submit config ledger now held t).1 u).1 =
        (submit config ledger now (submit config ledger now held u).1 t).1 := by
  cases ht : (settled config held).verdict ledger t now with
  | error e =>
      cases hu : (settled config held).verdict ledger u now with
      | error e' => simp only [submit, ht, hu, and_self]
      | ok replacement' =>
          have ht' := verdict_taken hkeyed (Ne.symm hhash) hapart (Ne.symm hne) hu
          simp only [submit, ht, hu, ht', and_self]
  | ok replacement =>
      have hu' := verdict_taken hkeyed hhash hapart' hne ht
      cases hu : (settled config held).verdict ledger u now with
      | error e' => simp only [submit, ht, hu, hu', and_self]
      | ok replacement' =>
          have ht' := verdict_taken hkeyed (Ne.symm hhash) hapart (Ne.symm hne) hu
          simp only [submit, ht, hu, hu', ht', true_and]
          exact taken_comm hkeyed hhash hapart hapart' hne ht hu

/-- With room for both, the second submission has room. -/
theorem fits_second (hkeyed : (settled config held).Keyed)
    (hhash : P.transaction.hash t ≠ P.transaction.hash u)
    (hapart : (settled config held).Apart u)
    (hne : P.transaction.sender t ≠ P.transaction.sender u)
    (hsecond : ∀ replacement', (settled config held).verdict ledger u now = .ok replacement' →
      Fits config (taken held u now replacement'))
    (hboth : ∀ replacement replacement',
      (settled config held).verdict ledger t now = .ok replacement →
      (settled config held).verdict ledger u now = .ok replacement' →
      Fits config (taken (taken held t now replacement) u now replacement'))
    (h : (settled config (submit config ledger now held t).1).verdict ledger u now =
      .ok replacement') :
    Fits config (taken (submit config ledger now held t).1 u now replacement') := by
  cases ht : (settled config held).verdict ledger t now with
  | error e =>
      simp only [submit, ht] at h ⊢
      exact hsecond replacement' h
  | ok replacement =>
      simp only [submit, ht] at h ⊢
      rw [verdict_taken hkeyed hhash hapart hne ht] at h
      exact hboth replacement replacement' ht h

end Senders

/-- A pool that keeps its limits has the right counter once it is pruned. -/
theorem pruneExpired_eq_settled (hlimit : pool.config.maxBytes ≤ usizeMax)
    (hfits : Fits pool.config (pool.pruneExpired now).transactions) :
    pool.pruneExpired now = settled pool.config (pool.pruneExpired now).transactions := by
  have htotal := totalBytes_pruneExpired pool now
  rw [weight, Nat.min_eq_left (Nat.le_trans hfits.weight hlimit)] at htotal
  rw [settled, ← htotal]
  rfl

theorem retained_of_pruneExpired (hash : TransactionHash) (entry : MempoolEntry P)
    (hentry : (pool.pruneExpired now).transactions[hash]? = some entry) :
    retained pool.config now entry = true := by
  rw [getElem?_pruneExpired, Option.filter_eq_some_iff] at hentry
  exact hentry.2

/-- An accepted newcomer takes the place of whoever is in its slot. -/
theorem fits_taken {config : MempoolConfig} {held : BTreeMap TransactionHash (MempoolEntry P)}
    {replacement : Option TransactionHash}
    (h : (settled config held).verdict ledger t now = .ok replacement)
    (hfits : Fits config (holding now held t)) : Fits config (taken held t now replacement) := by
  rw [eq_slotHolder (verdict_ok h).1]
  exact hfits

/-- Whichever of the two transactions the pool holds, its limits are kept. -/
structure RoomForBoth (pool : Mempool P) (t u : P.SignedTransaction) (now : UInt64) : Prop where
  neither : Fits pool.config (pool.pruneExpired now).transactions
  first : Fits pool.config (holding now (pool.pruneExpired now).transactions t)
  second : Fits pool.config (holding now (pool.pruneExpired now).transactions u)
  both : Fits pool.config (holding now (holding now (pool.pruneExpired now).transactions t) u)

/-- **Submissions of different senders commute**, if their hashes do not
collide with each other or with those of the pool. -/
theorem submissions_commute (config : MempoolConfig) (calls : List (Call P))
    (hlimit : config.maxBytes ≤ usizeMax) {pool : Mempool P}
    (hpool : (withConfig config).callAll calls = pool) (ledger : P.Ledger) (now : UInt64)
    {t u : P.SignedTransaction} (hne : P.transaction.sender t ≠ P.transaction.sender u)
    (hhash : P.transaction.hash t ≠ P.transaction.hash u) (hapart : pool.Apart t)
    (hapart' : pool.Apart u)
    (hroom : pool.RoomForBoth t u now) :
    (pool.insertValidatedAt ledger t now).2 =
        ((pool.insertValidatedAt ledger u now).1.insertValidatedAt ledger t now).2 ∧
      ((pool.insertValidatedAt ledger t now).1.insertValidatedAt ledger u now).2 =
        (pool.insertValidatedAt ledger u now).2 ∧
      ((pool.insertValidatedAt ledger t now).1.insertValidatedAt ledger u now).1 =
        ((pool.insertValidatedAt ledger u now).1.insertValidatedAt ledger t now).1 := by
  have hkeyed := keyed_callAll config calls
  have hconfig := callAll_config config calls
  rw [hpool] at hkeyed hconfig
  subst hconfig
  have hpruned := pruneExpired_eq_settled hlimit hroom.neither
  have hretained := @retained_of_pruneExpired P pool now
  have hkeyed' : (settled pool.config (pool.pruneExpired now).transactions).Keyed := by
    rw [← hpruned]
    exact (Change.prune now).keyed hkeyed
  have hprune : ∀ {x : P.SignedTransaction}, pool.Apart x →
      (settled pool.config (pool.pruneExpired now).transactions).Apart x :=
    fun h _ _ hentry => h (getElem?_pruneExpired_eq_some.mp hentry).1
  replace hapart := hprune hapart
  replace hapart' := hprune hapart'
  obtain ⟨hneither, hfirst, hsecond, hboth⟩ := hroom
  generalize (pool.pruneExpired now).transactions = held at *
  have hroomt : ∀ replacement, (settled pool.config held).verdict ledger t now =
      .ok replacement → Fits pool.config (taken held t now replacement) :=
    fun _ h => fits_taken h hfirst
  have hroomu : ∀ replacement, (settled pool.config held).verdict ledger u now =
      .ok replacement → Fits pool.config (taken held u now replacement) :=
    fun _ h => fits_taken h hsecond
  have hroomtu : ∀ replacement replacement',
      (settled pool.config held).verdict ledger t now = .ok replacement →
      (settled pool.config held).verdict ledger u now = .ok replacement' →
      Fits pool.config (taken (taken held t now replacement) u now replacement') := by
    intro replacement replacement' ht hu
    rw [← verdict_taken hkeyed' hhash hapart' hne ht] at hu
    refine fits_taken hu ?_
    rw [eq_slotHolder (verdict_ok ht).1]
    exact hboth
  have hroomut : ∀ replacement' replacement,
      (settled pool.config held).verdict ledger u now = .ok replacement' →
      (settled pool.config held).verdict ledger t now = .ok replacement →
      Fits pool.config (taken (taken held u now replacement') t now replacement) := by
    intro replacement' replacement hu ht
    rw [← taken_comm hkeyed' hhash hapart hapart' hne ht hu]
    exact hroomtu replacement replacement' ht hu
  rw [insertValidatedAt_of_settled hpruned hlimit hroomt,
    insertValidatedAt_of_settled hpruned hlimit hroomu]
  dsimp only
  rw [insertValidatedAt_of_settled (pruneExpired_submit hlimit hneither hretained hroomt) hlimit
      fun _ => fits_second hkeyed' hhash hapart' hne hroomu hroomtu,
    insertValidatedAt_of_settled (pruneExpired_submit hlimit hneither hretained hroomu) hlimit
      fun _ => fits_second hkeyed' (Ne.symm hhash) hapart (Ne.symm hne) hroomt hroomut]
  obtain ⟨hresult, hfinal⟩ := submit_comm ledger now hkeyed' hhash hapart hapart' hne
  obtain ⟨hresult', -⟩ := submit_comm ledger now hkeyed' (Ne.symm hhash) hapart' hapart
    (Ne.symm hne)
  exact ⟨hresult'.symm, hresult, by rw [hfinal]⟩

end Mempool

namespace Reference

def sharedCalls : List (Mempool.Call paqus) :=
  [.operation (.insertValidatedAt sharedLedger (payment 2 0) 0)]

def sharedPool : Mempool paqus := (Mempool.withConfig MempoolConfig.default).callAll sharedCalls

end Reference

/-- One sender outbids its own payment, the other one submits its first. -/
theorem Mempool.submissions_commute_of_outbid :
    (Reference.sharedPool.insertValidatedAt Reference.sharedLedger (Reference.payment 3 0) 9).2 =
        .ok (Reference.payment 3 0).hash ∧
      ((Reference.sharedPool.insertValidatedAt Reference.sharedLedger
          (Reference.payment 3 0) 9).1.insertValidatedAt Reference.sharedLedger
          (Reference.returnPayment 2 0) 9).1 =
        ((Reference.sharedPool.insertValidatedAt Reference.sharedLedger
          (Reference.returnPayment 2 0) 9).1.insertValidatedAt Reference.sharedLedger
          (Reference.payment 3 0) 9).1 :=
  ⟨by decide +kernel, (submissions_commute (P := Reference.paqus) MempoolConfig.default
    Reference.sharedCalls (by decide) rfl Reference.sharedLedger 9 (by decide) (by decide +kernel)
    (fun _ _ _ => Reference.hash_inj) (fun _ _ _ => Reference.hash_inj)
    ⟨⟨by decide +kernel, by decide +kernel⟩, ⟨by decide +kernel, by decide +kernel⟩,
      ⟨by decide +kernel, by decide +kernel⟩, ⟨by decide +kernel, by decide +kernel⟩⟩).2.2⟩

end PaqusNode
