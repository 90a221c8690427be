import PaqusNode.Mempool.Outbid
import PaqusNode.Node.Open

/-!
# PaqusNode.Wallet

The nonce a wallet picks for its next transaction (`src/mempool.rs`): it
walks from the account's nonce over the pending ones that `/mempool` lists,
skipping what lies below and stopping at the first gap.  The pool's own walk
(`validate_against_ledger_excluding`) rejects on any mismatch instead, and
runs after expired entries have been dropped; so the two agree only while the
sender's queue has no gap and nothing of it has just expired.
-/

namespace PaqusNode

namespace Wallet

/-- `MempoolTxRpcResponse`: sender and nonce of a pending transaction. -/
structure MempoolTx where
  sender : Address
  nonce : UInt64
deriving DecidableEq, Repr

/-- `Vec::dedup`: of equal neighbours the first one stays. -/
def dedup : List UInt64 → List UInt64
  | [] => []
  | [n] => [n]
  | n :: m :: rest => if n = m then dedup (m :: rest) else n :: dedup (m :: rest)

/-- The pending nonces of an address, sorted, without repetition. -/
def pendingNonces (address : Address) (transactions : List MempoolTx) : List UInt64 :=
  dedup (((transactions.filter fun transaction => transaction.sender == address).map
    MempoolTx.nonce).insertionSort (· ≤ ·))

/-- The loop of `resolve_wallet_nonce`. -/
def nextNonce (next : UInt64) : List UInt64 → UInt64
  | [] => next
  | nonce :: rest =>
      if nonce = next then nextNonce (satAdd next 1) rest
      else if next < nonce then next
      else nextNonce next rest

/-- `resolve_wallet_nonce`, on the nonce that `/balance` reports and the
transactions that `/mempool` lists. -/
def resolveWalletNonce (address : Address) (balanceNonce : Option UInt64)
    (transactions : List MempoolTx) : UInt64 :=
  nextNonce (balanceNonce.getD 0) (pendingNonces address transactions)

/-! ## The walk -/

/-- Dropping repetitions drops no nonce. -/
theorem mem_dedup {l : List UInt64} {n : UInt64} : n ∈ dedup l ↔ n ∈ l := by
  fun_induction dedup l with
  | case1 => rfl
  | case2 m => rfl
  | case3 m rest ih =>
      rw [ih]
      simp
  | case4 m m' rest _ ih => simp [ih]

theorem dedup_sublist (l : List UInt64) : (dedup l).Sublist l := by
  fun_induction dedup l with
  | case1 => exact .slnil
  | case2 m => exact .refl _
  | case3 m rest ih => exact ih.cons m
  | case4 m m' rest _ ih => exact ih.cons_cons m

/-- The nonces that the RPC lists for an address. -/
theorem mem_pendingNonces {address : Address} {transactions : List MempoolTx} {n : UInt64} :
    n ∈ pendingNonces address transactions ↔ ⟨address, n⟩ ∈ transactions := by
  simp only [pendingNonces, mem_dedup, List.mem_insertionSort, List.mem_map, List.mem_filter,
    beq_iff_eq]
  constructor
  · rintro ⟨⟨sender, nonce⟩, ⟨hmem, rfl⟩, rfl⟩
    exact hmem
  · intro hmem
    exact ⟨_, ⟨hmem, rfl⟩, rfl⟩

theorem pendingNonces_sorted (address : Address) (transactions : List MempoolTx) :
    (pendingNonces address transactions).Pairwise (· ≤ ·) := by
  have : Std.Total fun a b : UInt64 => a ≤ b := ⟨UInt64.le_total⟩
  have : IsTrans UInt64 fun a b => a ≤ b := ⟨fun _ _ _ => UInt64.le_trans⟩
  exact (List.pairwise_insertionSort _ _).sublist (dedup_sublist _)

/-- The walk passes pending nonces only and ends at one that is free, but for
the largest nonce, where it stands still. -/
theorem nextNonce_spec {l : List UInt64} (hsorted : l.Pairwise (· ≤ ·)) (start : UInt64) :
    start.toNat ≤ (nextNonce start l).toNat ∧
      (∀ n, start.toNat ≤ n → n < (nextNonce start l).toNat → ∃ nonce ∈ l, nonce.toNat = n) ∧
      (nextNonce start l ∈ l → (nextNonce start l).toNat = 2 ^ 64 - 1) := by
  induction l generalizing start with
  | nil =>
      refine ⟨Nat.le_refl _, ?_, by simp⟩
      intro n hle hlt
      exact absurd hlt (Nat.not_lt.mpr hle)
  | cons nonce rest ih =>
      obtain ⟨hfirst, hrest⟩ := List.pairwise_cons.mp hsorted
      unfold nextNonce
      split
      · next heq =>
          subst heq
          obtain ⟨hle, hpassed, hfree⟩ := ih hrest (satAdd nonce 1)
          have hbound := nonce.toNat_lt
          rw [toNat_satAdd, UInt64.toNat_one] at hle hpassed
          refine ⟨by omega, ?_, ?_⟩
          · intro n hn hlt
            by_cases heq : n = nonce.toNat
            · exact ⟨nonce, List.mem_cons_self, heq.symm⟩
            · obtain ⟨m, hm, hmn⟩ := hpassed n (by omega) hlt
              exact ⟨m, List.mem_cons_of_mem _ hm, hmn⟩
          · intro hmem
            rcases List.mem_cons.mp hmem with heq | hmem
            · have := congrArg UInt64.toNat heq
              omega
            · exact hfree hmem
      split
      · next hgt =>
          refine ⟨Nat.le_refl _, ?_, ?_⟩
          · intro n hle hlt
            exact absurd hlt (Nat.not_lt.mpr hle)
          · -- everything listed lies above the gap
            intro hmem
            have hle : nonce ≤ start := by
              rcases List.mem_cons.mp hmem with heq | hmem
              · rw [heq]
                exact UInt64.le_refl _
              · exact hfirst start hmem
            exact absurd hgt (UInt64.not_lt.mpr hle)
      · next hne hlt =>
          obtain ⟨hle, hpassed, hfree⟩ := ih hrest start
          refine ⟨hle, ?_, ?_⟩
          · intro n hn hlt
            obtain ⟨m, hm, hmn⟩ := hpassed n hn hlt
            exact ⟨m, List.mem_cons_of_mem _ hm, hmn⟩
          · intro hmem
            rcases List.mem_cons.mp hmem with heq | hmem
            · have heq' := congrArg UInt64.toNat heq
              have hne' := UInt64.toNat_inj.not.mpr hne
              have hlt' := UInt64.lt_iff_toNat_lt.not.mp hlt
              omega
            · exact hfree hmem

end Wallet

namespace Mempool

variable {P : Paqus}

/-- What `/mempool` lists of a pool. -/
def rpcMempool (pool : Mempool P) : List Wallet.MempoolTx :=
  pool.transactionList.map fun t => ⟨P.transaction.sender t, P.transaction.nonce t⟩

/-- The RPC lists sender and nonce of what is pending. -/
theorem mem_rpcMempool {pool : Mempool P} {sender : Address} {nonce : UInt64} :
    ⟨sender, nonce⟩ ∈ pool.rpcMempool ↔
      ∃ (hash : TransactionHash) (entry : _), pool.transactions[hash]? = some entry ∧
        P.transaction.sender entry.transaction = sender ∧
        P.transaction.nonce entry.transaction = nonce := by
  simp only [rpcMempool, transactionList, List.mem_map, BTreeMap.mem_valuesList,
    Wallet.MempoolTx.mk.injEq]
  constructor
  · rintro ⟨t, ⟨entry, ⟨hash, hentry⟩, rfl⟩, hsender, hnonce⟩
    exact ⟨hash, entry, hentry, hsender, hnonce⟩
  · rintro ⟨hash, entry, hentry, hsender, hnonce⟩
    exact ⟨_, ⟨entry, ⟨hash, hentry⟩, rfl⟩, hsender, hnonce⟩

/-! ## The two walks -/

/-- The sender has a pending transaction with nonce `n` that is within its
lifetime. -/
def Alive (pool : Mempool P) (sender : Address) (now : UInt64) (n : Nat) : Prop :=
  ∃ (hash : TransactionHash) (entry : _), pool.transactions[hash]? = some entry ∧
    P.transaction.sender entry.transaction = sender ∧
    (P.transaction.nonce entry.transaction).toNat = n ∧
    satSub now entry.insertedAt ≤ ttl pool.config entry

/-- The sender has a pending transaction with nonce `n` that is past its
lifetime. -/
def Expired (pool : Mempool P) (sender : Address) (now : UInt64) (n : Nat) : Prop :=
  ∃ (hash : TransactionHash) (entry : _), pool.transactions[hash]? = some entry ∧
    P.transaction.sender entry.transaction = sender ∧
    (P.transaction.nonce entry.transaction).toNat = n ∧
    ttl pool.config entry < satSub now entry.insertedAt

/-- What the wallet relies on: from the ledger nonce on, the sender's live
transactions have no gap, and none that has expired comes right after them
(but for the last nonce of all). -/
structure InStep (pool : Mempool P) (sender : Address) (start : Nat) (now : UInt64) : Prop where
  gapless : ∀ n, pool.Alive sender now n →
    start ≤ n ∧ ∀ m, start ≤ m → m < n → pool.Alive sender now m
  settled : ∀ n, pool.Expired sender now n → start ≤ n → n < 2 ^ 64 - 1 →
    ∃ m, start ≤ m ∧ m < n ∧ ¬pool.Alive sender now m

/-- A cost that is covered is spent, unless the nonce is wrong. -/
theorem spend_of_covered {spendable : UInt32} {t : P.SignedTransaction}
    (hcost : cost t ≤ spendable.toNat) (expectedNonce : UInt64) :
    (∃ left, spend expectedNonce spendable t = .ok left ∧
        left.toNat = spendable.toNat - cost t) ∨
      spend expectedNonce spendable t =
        .error (.invalidLedgerState (.invalidState .invalidNonce)) := by
  by_cases hnonce : P.transaction.nonce t = expectedNonce
  · exact .inl (exists_spend spendable hnonce hcost)
  · refine .inr ?_
    unfold spend
    rw [if_pos hnonce]

/-- A queue that the balance covers fails the queue check for its nonces
only. -/
theorem spendAll_of_covered {pending : List P.SignedTransaction} {spendable : UInt32}
    (hcost : (pending.map cost).sum ≤ spendable.toNat) (expectedNonce : UInt64) :
    (∃ last left, spendAll expectedNonce spendable pending = .ok (last, left) ∧
        left.toNat = spendable.toNat - (pending.map cost).sum) ∨
      spendAll expectedNonce spendable pending =
        .error (.invalidLedgerState (.invalidState .invalidNonce)) := by
  induction pending generalizing expectedNonce spendable with
  | nil => exact .inl ⟨_, _, rfl, by simp⟩
  | cons t rest ih =>
      rw [List.map_cons, List.sum_cons] at hcost ⊢
      unfold spendAll
      rcases spend_of_covered (t := t) (Nat.le_trans (Nat.le_add_right _ _) hcost)
        expectedNonce with ⟨left, hspend, hleft⟩ | hspend
      · have hrest : (rest.map cost).sum ≤ left.toNat := by omega
        simp only [hspend]
        rcases ih hrest (satAdd expectedNonce 1) with ⟨last, left', hall, hleft'⟩ | hall
        · exact .inl ⟨last, left', hall, by omega⟩
        · exact .inr hall
      · simp only [hspend]
        exact .inr trivial

/-- A signed, relayed and covered transaction fails the check against the
ledger for its nonce only. -/
theorem validateAgainstLedgerExcluding_of_covered {pool : Mempool P} {ledger : P.Ledger}
    {t : P.SignedTransaction} {excluded : Option TransactionHash} {account : P.Account}
    (hsigned : P.transaction.validateSigned t = .ok ()) (hfee : pool.validateFeePolicy t = .ok ())
    (haccount : ledger.account (P.transaction.sender t) = some account)
    (hcost : ((pool.pendingFromSender (P.transaction.sender t) excluded).map cost).sum + cost t ≤
      (P.account.availableBalanceAt account ((P.ledger.tipHeight ledger).getD 0)).toNat) :
    pool.validateAgainstLedgerExcluding ledger t excluded = .ok () ∨
      pool.validateAgainstLedgerExcluding ledger t excluded =
        .error (.invalidLedgerState (.invalidState .invalidNonce)) := by
  unfold validateAgainstLedgerExcluding
  simp only [hsigned, hfee, haccount]
  rcases spendAll_of_covered (Nat.le_trans (Nat.le_add_right _ _) hcost)
    (P.account.nonce account) with ⟨last, left, hall, hleft⟩ | hall
  · have hlast : cost t ≤ left.toNat := by omega
    simp only [hall]
    rcases spend_of_covered hlast last with ⟨rest, hspend, -⟩ | hspend
    · simp only [hspend]
      exact .inl trivial
    · simp only [hspend]
      exact .inr trivial
  · simp only [hall]
    exact .inr trivial

/-- Inserting does not look at the ledger. -/
theorem insertUnchecked_ne_invalidLedgerState (pool : Mempool P) (t : P.SignedTransaction)
    (now : UInt64) (replacement : Option TransactionHash) (e : LedgerError) :
    pool.insertUnchecked t now replacement ≠ .error (.invalidLedgerState e) := by
  unfold insertUnchecked
  simp only
  split
  · simp
  split
  · simp
  split
  · simp
  · simp

/-- Setting an entry aside leaves less to pay for. -/
theorem sum_pendingFromSender_le (pool : Mempool P) (sender : Address)
    (excluded : Option TransactionHash) :
    ((pool.pendingFromSender sender excluded).map cost).sum ≤
      ((pool.pendingFromSender sender none).map cost).sum := by
  rw [((pendingFromSender_perm_entries pool sender excluded).map cost).sum_nat,
    ((pendingFromSender_perm_entries pool sender none).map cost).sum_nat]
  have hsub : (pool.entriesFromSender sender excluded).Sublist
      (pool.entriesFromSender sender none) := by
    refine List.monotone_filter_right _ ?_
    rintro ⟨hash, entry⟩ h
    have hboth := of_decide_eq_true h
    exact decide_eq_true ⟨Option.some_ne_none hash, hboth.2⟩
  exact ((hsub.map _).map cost).sum_le_sum fun _ _ => Nat.zero_le _

section Agreement

variable {pool : Mempool P} {ledger : P.Ledger} {t : P.SignedTransaction} {now : UInt64}
  {replacement : Option TransactionHash}

/-- The nonces in the queue check of a newcomer: those of the sender's live
transactions, but for its own. -/
theorem WellFormed.mem_nonces_iff (hwf : pool.WellFormed)
    (hreplacement : (pool.pruneExpired now).replacementCandidate t = .ok replacement) (n : Nat) :
    n ∈ ((pool.pruneExpired now).pendingFromSender (P.transaction.sender t) replacement).map
        (fun t => (P.transaction.nonce t).toNat) ↔
      pool.Alive (P.transaction.sender t) now n ∧ n ≠ (P.transaction.nonce t).toNat := by
  rw [mem_nonces]
  constructor
  · rintro ⟨hash, entry, hentry, hne, hsender, rfl⟩
    obtain ⟨hin, hstays⟩ := getElem?_pruneExpired_eq_some.mp hentry
    refine ⟨⟨hash, entry, hin, hsender, rfl, of_decide_eq_true hstays⟩, ?_⟩
    intro heq
    exact hne (replaced_of_sameSlot (hwf.pruneExpired now) hreplacement hentry
      ⟨hsender, UInt64.toNat_inj.mp heq⟩).symm
  · rintro ⟨⟨hash, entry, hin, hsender, rfl, hstays⟩, hne⟩
    have hentry : (pool.pruneExpired now).transactions[hash]? = some entry :=
      getElem?_pruneExpired_eq_some.mpr ⟨hin, decide_eq_true hstays⟩
    refine ⟨hash, entry, hentry, not_replaced_of_slot hreplacement hentry ?_, hsender, rfl⟩
    intro hslot
    exact hne (congrArg UInt64.toNat hslot.2)

/-- A slot is not both alive and expired. -/
theorem WellFormed.not_expired_of_alive (hwf : pool.WellFormed) {sender : Address} {n : Nat}
    (halive : pool.Alive sender now n) : ¬pool.Expired sender now n := by
  rintro ⟨hash', entry', hentry', hsender', hnonce', hexpired⟩
  obtain ⟨hash, entry, hentry, hsender, hnonce, hstays⟩ := halive
  obtain rfl := hwf.unique hentry hentry' (hsender.trans hsender'.symm)
    (UInt64.toNat_inj.mp (hnonce.trans hnonce'.symm))
  rw [hentry, Option.some.injEq] at hentry'
  subst hentry'
  exact absurd hexpired (UInt64.not_lt.mpr hstays)

/-- What the RPC lists is alive or expired. -/
theorem alive_or_expired {sender : Address} {n : Nat} :
    pool.Alive sender now n ∨ pool.Expired sender now n ↔
      ∃ nonce : UInt64, ⟨sender, nonce⟩ ∈ pool.rpcMempool ∧ nonce.toNat = n := by
  simp only [mem_rpcMempool]
  constructor
  · rintro (⟨hash, entry, hentry, hsender, hnonce, -⟩ | ⟨hash, entry, hentry, hsender, hnonce, -⟩)
    · exact ⟨_, ⟨hash, entry, hentry, hsender, rfl⟩, hnonce⟩
    · exact ⟨_, ⟨hash, entry, hentry, hsender, rfl⟩, hnonce⟩
  · rintro ⟨nonce, ⟨hash, entry, hentry, hsender, rfl⟩, hnonce⟩
    by_cases hstays : satSub now entry.insertedAt ≤ ttl pool.config entry
    · exact .inl ⟨hash, entry, hentry, hsender, hnonce, hstays⟩
    · exact .inr ⟨hash, entry, hentry, hsender, hnonce, UInt64.not_le.mp hstays⟩

/-- The queue check expects the wallet's nonce exactly if the two are in
step. -/
theorem WellFormed.contiguous_iff_inStep (hwf : pool.WellFormed) {start : UInt64}
    (hnonce : P.transaction.nonce t =
      Wallet.resolveWalletNonce (P.transaction.sender t) (some start) pool.rpcMempool)
    (hreplacement : (pool.pruneExpired now).replacementCandidate t = .ok replacement) :
    Contiguous start ((pool.pruneExpired now).pendingFromSender (P.transaction.sender t)
        replacement ++ [t]) ↔
      pool.InStep (P.transaction.sender t) start.toNat now := by
  obtain ⟨hle, hpassed, hfree⟩ := Wallet.nextNonce_spec
    (Wallet.pendingNonces_sorted (P.transaction.sender t) pool.rpcMempool) start
  simp only [Wallet.resolveWalletNonce, Option.getD_some] at hnonce
  rw [← hnonce] at hle hpassed hfree
  simp only [Wallet.mem_pendingNonces] at hpassed hfree
  have hbound := (P.transaction.nonce t).toNat_lt
  -- the pool's walk, nonce by nonce
  have hqueue : Contiguous start ((pool.pruneExpired now).pendingFromSender
        (P.transaction.sender t) replacement ++ [t]) ↔
      ∀ n, pool.Alive (P.transaction.sender t) now n ∧ n ≠ (P.transaction.nonce t).toNat ↔
        start.toNat ≤ n ∧ n < (P.transaction.nonce t).toNat := by
    simp only [← hwf.mem_nonces_iff hreplacement]
    constructor
    · intro h n
      obtain ⟨hpending, hlast⟩ := contiguous_concat_iff.mp h
      rw [hpending.mem_iff, List.length_map, hlast]
    · exact (hwf.pruneExpired now).onePerSlot.contiguous_concat (UInt64.le_iff_toNat_le.mpr hle)
  have hmax : ∀ n, pool.Alive (P.transaction.sender t) now n → n ≤ 2 ^ 64 - 1 := by
    rintro n ⟨hash, entry, -, -, rfl, -⟩
    have := (P.transaction.nonce entry.transaction).toNat_lt
    omega
  rw [hqueue, passed_iff (fun n => hwf.not_expired_of_alive) hmax (by omega) hle
    (fun n hn hlt => alive_or_expired.mpr (hpassed n hn hlt))]
  · exact ⟨fun h => ⟨h.1, h.2⟩, fun h => ⟨h.gapless, h.settled⟩⟩
  · intro htaken
    obtain ⟨nonce, hlisted, heq⟩ := alive_or_expired.mp htaken
    rw [UInt64.toNat_inj.mp heq] at hlisted
    exact hfree hlisted

end Agreement

/-- After any history of the pool, on any ledger: a signed, timely,
sufficiently paid and covered transaction with the wallet's nonce is not
rejected for its nonce exactly if the sender's live transactions run
gaplessly from the ledger nonce and none that has expired comes right after
them. -/
theorem wallet_nonce_expected_iff (config : MempoolConfig) (operations : List (Operation P))
    (pool : Mempool P) (hpool : pool = (withConfig config).runAll operations) (ledger : P.Ledger)
    (t : P.SignedTransaction) (now : UInt64) {account : P.Account}
    (haccount : ledger.account (P.transaction.sender t) = some account)
    (hnonce : P.transaction.nonce t = Wallet.resolveWalletNonce (P.transaction.sender t)
      (some (P.account.nonce account)) pool.rpcMempool)
    (hsigned : P.transaction.validateSigned t = .ok ())
    (hsignedAt : P.transaction.validateSignedAt t now = .ok ())
    (htimely : validateTimestampPolicy t now = .ok ())
    (hrelayed : max pool.config.minRelayFee minRelayFeeFloor ≤ P.transaction.fee t)
    (houtbids : ∀ (hash : TransactionHash) entry, pool.transactions[hash]? = some entry →
      SameSlot entry.transaction t → P.transaction.fee entry.transaction < P.transaction.fee t)
    (hcost : (((pool.pruneExpired now).pendingFromSender (P.transaction.sender t) none).map
        cost).sum + cost t ≤
      (P.account.availableBalanceAt account ((P.ledger.tipHeight ledger).getD 0)).toNat) :
    (pool.insertValidatedAt ledger t now).2 ≠
        .error (.invalidLedgerState (.invalidState .invalidNonce)) ↔
      pool.InStep (P.transaction.sender t) (P.account.nonce account).toNat now := by
  have hwf : pool.WellFormed := hpool ▸ (WellFormed.withConfig config).runAll operations
  obtain ⟨replacement, hreplacement⟩ := (hwf.pruneExpired now).exists_replacementCandidate
    fun hentry hslot => houtbids _ _ (getElem?_pruneExpired_eq_some.mp hentry).1 hslot
  have hfee : (pool.pruneExpired now).validateFeePolicy t = .ok () :=
    validateFeePolicy_eq_ok.mpr hrelayed
  have hrest := sum_pendingFromSender_le (pool.pruneExpired now) (P.transaction.sender t)
    replacement
  rw [← hwf.contiguous_iff_inStep hnonce hreplacement]
  unfold insertValidatedAt insertPruned
  simp only [htimely, hsignedAt, hfee, hreplacement]
  rcases validateAgainstLedgerExcluding_of_covered hsigned hfee haccount
    (Nat.le_trans (Nat.add_le_add_right hrest _) hcost) with hvalid | hvalid
  · -- past the queue check only duplicates and a full pool are errors
    have hne := insertUnchecked_ne_invalidLedgerState (pool.pruneExpired now) t now replacement
      (.invalidState .invalidNonce)
    obtain ⟨account', haccount', hqueue⟩ := validateAgainstLedgerExcluding_queue hvalid
      ((hwf.pruneExpired now).onePerSlot.nonce_ne hreplacement)
    obtain rfl : account' = account := Option.some.inj (haccount'.symm.trans haccount)
    simp only [hvalid]
    refine iff_of_true ?_ hqueue.contiguous
    split
    · next e heq =>
        rintro he
        rw [Except.error.inj he] at heq
        exact hne heq
    · simp
  · simp only [hvalid, ne_eq, not_true_eq_false, false_iff]
    intro hcontiguous
    have hok := validateAgainstLedgerExcluding_of_executable hsigned hfee haccount
      (.of_covered hcontiguous (by
        rw [List.map_append, List.sum_append, List.map_singleton, List.sum_singleton]
        omega))
    rw [hok] at hvalid
    cases hvalid

end Mempool

namespace Reference

/-- A low-fee payment of the miner and one at the market fee after it, both
taken in by the node that knows the genesis block only. -/
def stackingHistory : List (Mempool.Operation paqus) :=
  [.insertValidatedAt genesisNode.ledger (payment 1 0) 0,
    .insertValidatedAt genesisNode.ledger (payment 2 1) 0]

end Reference

namespace Mempool

/-- Half an hour later the first payment has been dropped; the wallet picks
its nonce again, and the pool rejects it because of the second. -/
theorem wallet_nonce_rejected :
    ∃ (operations : List (Operation Reference.paqus)) (pool : Mempool Reference.paqus)
      (t : Reference.Tx) (account : Reference.Account),
      pool = (withConfig MempoolConfig.default).runAll operations ∧
      Reference.genesisNode.ledger.account t.sender = some account ∧
      t.nonce = Wallet.resolveWalletNonce t.sender (some account.nonce) pool.rpcMempool ∧
      Reference.paqus.transaction.validateSigned t = .ok () ∧
      Reference.paqus.transaction.validateSignedAt t 1801 = .ok () ∧
      validateTimestampPolicy (P := Reference.paqus) t 1801 = .ok () ∧
      pool.validateFeePolicy t = .ok () ∧
      ((pool.pendingFromSender t.sender none).map cost).sum + cost (P := Reference.paqus) t ≤
        (Reference.paqus.account.availableBalanceAt account 0).toNat ∧
      (pool.insertValidatedAt Reference.genesisNode.ledger t 1801).2 =
        .error (.invalidLedgerState (.invalidState .invalidNonce)) :=
  ⟨Reference.stackingHistory ++ [.pruneExpired 1801], _, Reference.payment 2 0, _, rfl,
    (Option.some_get (by decide +kernel)).symm, by decide +kernel, by decide +kernel,
    by decide +kernel, by decide +kernel, by decide +kernel, by decide +kernel, by decide +kernel⟩

/-- Before that the wallet picks the nonce after the two, and the pool takes
it. -/
theorem wallet_nonce_expected_iff_of_stacked :
    ∃ pool : Mempool Reference.paqus,
      pool = (withConfig MempoolConfig.default).runAll Reference.stackingHistory ∧
      Wallet.resolveWalletNonce 1 (some 0) pool.rpcMempool = 2 ∧ pool.InStep 1 0 60 := by
  refine ⟨_, rfl, by decide +kernel, ?_⟩
  have houtbids : ∀ entry ∈ ((withConfig MempoolConfig.default).runAll
      Reference.stackingHistory).transactions.valuesList,
      Reference.paqus.transaction.nonce entry.transaction ≠ 2 := by
    decide +kernel
  obtain ⟨account, haccount, hzero, hfunds⟩ : ∃ account,
      Reference.genesisNode.ledger.account (1 : Address) = some account ∧
      Reference.paqus.account.nonce account = 0 ∧
      (Reference.paqus.account.availableBalanceAt account 0).toNat ≥ 10 :=
    ⟨_, (Option.some_get (by decide +kernel)).symm, by decide +kernel, by decide +kernel⟩
  have hiff := wallet_nonce_expected_iff MempoolConfig.default Reference.stackingHistory _ rfl
    Reference.genesisNode.ledger (Reference.payment 2 2) 60 haccount
    (by rw [hzero]; decide +kernel) (by decide +kernel) (by decide +kernel) (by decide +kernel)
    (by decide +kernel)
    (fun hash entry hentry hslot =>
      absurd hslot.2 (houtbids entry (BTreeMap.mem_valuesList.mpr ⟨hash, hentry⟩)))
    (Nat.le_trans (by decide +kernel) hfunds)
  rw [hzero] at hiff
  exact hiff.mp (by decide +kernel)

end Mempool

end PaqusNode
