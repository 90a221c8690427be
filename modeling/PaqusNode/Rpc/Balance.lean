import Mathlib.Algebra.BigOperators.Group.List.Basic
import PaqusNode.Node.Solo
import PaqusNode.Rpc
import PaqusNode.Wallet

/-!
# PaqusNode.Rpc.Balance

What `/balance` answers: the balance of an address on the chain, what of it
can be spent, and what its pending transactions move (`balance_json` over
`balance_summary` and `account_view`).  The pending sums saturate one
transaction at a time.

For a wallet the answer is the whole truth on a node that mines alone: its
pending transactions never exceed what is available, so nothing saturates, and
the node takes the wallet's next payment exactly if it costs no more than what
is available less what is pending.
-/

namespace PaqusNode

namespace Rpc

variable {P : Paqus}

/-! ## Pending balances -/

/-- `PendingBalance`. -/
structure PendingBalance where
  incoming : UInt32
  outgoing : UInt32
deriving DecidableEq, Repr

/-- One turn of the loop of `pending_balance`. -/
def PendingBalance.add (address : Address) (pending : PendingBalance)
    (transaction : P.SignedTransaction) : PendingBalance :=
  let pending :=
    if P.transaction.receiver transaction = address then
      { pending with
        incoming := satAdd32 pending.incoming (P.transaction.amount transaction) }
    else pending
  if P.transaction.sender transaction = address then
    let total := satAdd32 (P.transaction.amount transaction) (P.transaction.fee transaction)
    { pending with outgoing := satAdd32 pending.outgoing total }
  else pending

/-- `pending_balance`. -/
def pendingBalance (s : Node P) (address : Address) : PendingBalance :=
  s.mempool.transactionList.foldl (PendingBalance.add address) ⟨0, 0⟩

/-- What `/balance` reads of the crate beyond what the node itself reads. -/
structure Balances (P : Paqus) where
  confirmedBalance : P.Ledger → Address → Option UInt32
  unspendableBalanceAt : P.Account → UInt64 → UInt32

/-- `BalanceSummary`. -/
structure BalanceSummary where
  confirmed : UInt32
  available : UInt32
  pending : PendingBalance
deriving DecidableEq, Repr

/-- `AccountView`. -/
structure AccountView where
  balance : UInt32
  unspendable : UInt32
  nonce : UInt64
deriving DecidableEq, Repr

/-- `available_balance`, which ignores the depth it is given. -/
def availableBalance (s : Node P) (address : Address) : Option UInt32 := do
  let tipHeight ← P.ledger.tipHeight s.ledger
  let account ← s.ledger.account address
  some (P.account.availableBalanceAt account tipHeight)

/-- `balance_summary`. -/
def balanceSummary (balances : Balances P) (s : Node P) (address : Address) :
    Option BalanceSummary := do
  let confirmed ← balances.confirmedBalance s.ledger address
  let available ← availableBalance s address
  some ⟨confirmed, available, pendingBalance s address⟩

/-- `account_view`. -/
def accountView (balances : Balances P) (s : Node P) (address : Address) :
    Option AccountView := do
  let account ← s.ledger.account address
  let tipHeight ← P.ledger.tipHeight s.ledger
  some ⟨P.account.availableBalanceAt account tipHeight,
    balances.unspendableBalanceAt account tipHeight, P.account.nonce account⟩

/-- The object that `balance_json` prints; `known` is its field `exists`. -/
structure BalanceResponse where
  address : Address
  height : UInt64
  known : Bool
  confirmed : UInt32
  available : UInt32
  pendingIncoming : UInt32
  pendingOutgoing : UInt32
  nonce : Option UInt64
  unspendable : UInt32
deriving DecidableEq, Repr

/-- `balance_json`. -/
def balanceJson (balances : Balances P) (s : Node P) (address : Address) : BalanceResponse :=
  let height := tipHeight s
  match balanceSummary balances s address with
  | none => ⟨address, height, false, 0, 0, 0, 0, none, 0⟩
  | some summary =>
      let account := accountView balances s address
      { address := address
        height := height
        known := true
        confirmed := summary.confirmed
        available := summary.available
        pendingIncoming := summary.pending.incoming
        pendingOutgoing := summary.pending.outgoing
        nonce := account.map AccountView.nonce
        unspendable := (account.map AccountView.unspendable).getD 0 }

/-! ## The pending sums -/

/-- What is outgoing grows by the cost of the address's own payments, up to `u32::MAX`. -/
theorem toNat_outgoing_add (address : Address) (pending : PendingBalance)
    (t : P.SignedTransaction) :
    (pending.add address t).outgoing.toNat =
      min (pending.outgoing.toNat +
        if P.transaction.sender t = address then Mempool.cost t else 0) (2 ^ 32 - 1) := by
  have hlt := pending.outgoing.toNat_lt
  unfold PendingBalance.add Mempool.cost
  by_cases hreceiver : P.transaction.receiver t = address <;>
    by_cases hsender : P.transaction.sender t = address <;>
    simp only [hreceiver, hsender, if_true, if_false, toNat_satAdd32] <;>
    omega

/-- What is incoming grows by the amounts paid to the address, up to `u32::MAX`. -/
theorem toNat_incoming_add (address : Address) (pending : PendingBalance)
    (t : P.SignedTransaction) :
    (pending.add address t).incoming.toNat =
      min (pending.incoming.toNat +
        if P.transaction.receiver t = address then (P.transaction.amount t).toNat else 0)
        (2 ^ 32 - 1) := by
  have hlt := pending.incoming.toNat_lt
  unfold PendingBalance.add
  by_cases hreceiver : P.transaction.receiver t = address <;>
    by_cases hsender : P.transaction.sender t = address <;>
    simp only [hreceiver, hsender, if_true, if_false, toNat_satAdd32] <;>
    omega

/-- **Pending balances are exact up to saturation.** -/
theorem toNat_pendingBalance (s : Node P) (address : Address) :
    (pendingBalance s address).outgoing.toNat =
        min ((s.mempool.senderQueue address).map Mempool.cost).sum (2 ^ 32 - 1) ∧
      (pendingBalance s address).incoming.toNat =
        min ((s.mempool.transactionList.filter fun t => P.transaction.receiver t = address).map
          fun t => (P.transaction.amount t).toNat).sum (2 ^ 32 - 1) := by
  have houtgoing := foldl_saturating (f := fun pending : PendingBalance => pending.outgoing.toNat)
    (toNat_outgoing_add (P := P) address) s.mempool.transactionList (s := ⟨0, 0⟩) (Nat.zero_le _)
  have hincoming := foldl_saturating (f := fun pending : PendingBalance => pending.incoming.toNat)
    (toNat_incoming_add (P := P) address) s.mempool.transactionList (s := ⟨0, 0⟩) (Nat.zero_le _)
  rw [List.sum_map_ite] at houtgoing hincoming
  rw [((Mempool.senderQueue_perm s.mempool address).map Mempool.cost).sum_nat]
  simpa [pendingBalance] using And.intro houtgoing hincoming

/-- What `/balance` reports of an account on the chain. -/
theorem balanceJson_of_known {balances : Balances P} {s : Node P} {address : Address}
    (h : (balanceJson balances s address).known = true) :
    ∃ account, s.ledger.account address = some account ∧
      (balanceJson balances s address).nonce = some (P.account.nonce account) ∧
      (balanceJson balances s address).available.toNat = availableOf s.ledger address ∧
      (balanceJson balances s address).pendingOutgoing = (pendingBalance s address).outgoing := by
  unfold balanceJson at h ⊢
  cases hsummary : balanceSummary balances s address with
  | none => simp [hsummary] at h
  | some summary =>
      simp only [balanceSummary, availableBalance, Option.bind_eq_bind, Option.bind_eq_some_iff,
        Option.some.injEq] at hsummary
      obtain ⟨confirmed, -, available, ⟨tip, htip, account, haccount, rfl⟩, rfl⟩ := hsummary
      refine ⟨account, haccount, ?_, ?_, rfl⟩
      · simp [accountView, haccount, htip]
      · simp [availableOf, haccount, htip]

end Rpc

/-! ## The wallet's nonce -/

namespace Mempool

variable {P : Paqus}

/-- Over a queue without gaps the wallet picks the nonce after it, but for the
last nonce of all. -/
theorem toNat_resolveWalletNonce {pool : Mempool P} {sender : Address} {start : UInt64}
    (h : Contiguous start (pool.senderQueue sender)) :
    (Wallet.resolveWalletNonce sender (some start) pool.rpcMempool).toNat =
      min (start.toNat + (pool.senderQueue sender).length) (2 ^ 64 - 1) := by
  obtain ⟨hle, hpassed, hfree⟩ := Wallet.nextNonce_spec
    (Wallet.pendingNonces_sorted sender pool.rpcMempool) start
  have hlisted (nonce : UInt64) : nonce ∈ Wallet.pendingNonces sender pool.rpcMempool ↔
      start.toNat ≤ nonce.toNat ∧
        nonce.toNat < start.toNat + (pool.senderQueue sender).length := by
    have hmem := Gapless.mem_iff h (n := nonce.toNat)
    rw [List.length_map, List.mem_map] at hmem
    rw [Wallet.mem_pendingNonces, ← hmem]
    simp [rpcMempool, mem_senderQueue, UInt64.toNat_inj, and_assoc]
  unfold Wallet.resolveWalletNonce
  rw [Option.getD_some]
  rw [hlisted] at hfree
  generalize Wallet.nextNonce start _ = next at *
  have hbound := next.toNat_lt
  have hend : next.toNat ≤ start.toNat + (pool.senderQueue sender).length := by
    by_contra hlt
    obtain ⟨nonce, hnonce, heq⟩ := hpassed (start.toNat + (pool.senderQueue sender).length)
      (Nat.le_add_right _ _) (by omega)
    have := (hlisted nonce).mp hnonce
    omega
  by_cases hlast : next.toNat < start.toNat + (pool.senderQueue sender).length
  · have := hfree ⟨hle, hlast⟩
    omega
  · omega

/-! ## Admission -/

/-- But for its nonce and its cost, nothing speaks against a transaction. -/
structure Relayable (pool : Mempool P) (t : P.SignedTransaction) (now : UInt64) : Prop where
  signed : P.transaction.validateSigned t = .ok ()
  signedAt : P.transaction.validateSignedAt t now = .ok ()
  timely : validateTimestampPolicy t now = .ok ()
  relayed : max pool.config.minRelayFee minRelayFeeFloor ≤ P.transaction.fee t
  fresh : pool.transactions[P.transaction.hash t]? = none
  room : pool.transactions.size < pool.config.maxTransactions
  bytes : pool.weight + P.transaction.serializedSize t ≤ pool.config.maxBytes

section Admission

variable {pool : Mempool P} {ledger : P.Ledger} {t : P.SignedTransaction} {now : UInt64}
  {account : P.Account}

/-- Past the sender's queue, no slot is taken. -/
theorem Covered.free {sender : Address} (h : Covered ledger pool.senderQueue)
    (haccount : ledger.account sender = some account)
    (hsender : P.transaction.sender t = sender)
    (hnonce : (P.account.nonce account).toNat + (pool.senderQueue sender).length ≤
      (P.transaction.nonce t).toNat) :
    ∀ {hash : TransactionHash} {entry}, pool.transactions[hash]? = some entry →
      ¬SameSlot entry.transaction t := by
  intro hash entry hentry hslot
  have hqueued : entry.transaction ∈ pool.senderQueue sender :=
    mem_senderQueue.mpr ⟨List.mem_map.mpr ⟨entry, BTreeMap.mem_valuesList.mpr ⟨hash, hentry⟩, rfl⟩,
      hslot.1.trans hsender⟩
  have hmem := (Gapless.mem_iff (h sender).1).mp (List.mem_map_of_mem hqueued)
  rw [hslot.2, nonceOf_of_account haccount, List.length_map] at hmem
  omega

/-- **The next payment is taken in exactly if it can be paid.** -/
theorem Covered.insertValidatedAt_eq_ok_iff (h : Covered ledger pool.senderQueue)
    (hwf : pool.WellFormed) (hnow : pool.Unexpired now)
    (haccount : ledger.account (P.transaction.sender t) = some account)
    (hrelayable : pool.Relayable t now)
    (hnonce : (P.transaction.nonce t).toNat =
      (P.account.nonce account).toNat + (pool.senderQueue (P.transaction.sender t)).length) :
    (pool.insertValidatedAt ledger t now).2 = .ok (P.transaction.hash t) ↔
      ((pool.senderQueue (P.transaction.sender t)).map cost).sum + cost t ≤
        availableOf ledger (P.transaction.sender t) := by
  have hpruned := senderQueue_pruneExpired hnow
  have hcovered : Covered ledger (pool.pruneExpired now).senderQueue := hpruned ▸ h
  have hpending := hcovered.pendingFromSender (P.transaction.sender t)
  have hreplacement : (pool.pruneExpired now).replacementCandidate t = .ok none := by
    refine replacementCandidate_of_free (hcovered.free haccount rfl ?_)
    rw [hpruned]
    exact hnonce.ge
  have hfee : (pool.pruneExpired now).validateFeePolicy t = .ok () :=
    validateFeePolicy_eq_ok.mpr hrelayable.relayed
  rw [← hpruned, availableOf_of_account haccount, ← List.sum_singleton (x := cost t),
    ← List.map_singleton,
    ← List.sum_append, ← List.map_append, ← hpending]
  constructor
  · intro haccepted
    obtain ⟨replacement, hsame, hvalid, -⟩ := insertValidatedAt_ok haccepted
    obtain rfl : none = replacement := Except.ok.inj (hreplacement.symm.trans hsame)
    obtain ⟨account', haccount', hqueue⟩ := validateAgainstLedgerExcluding_queue hvalid
      ((hwf.pruneExpired now).onePerSlot.nonce_ne hreplacement)
    obtain rfl : account = account' := Option.some.inj (haccount.symm.trans haccount')
    exact hqueue.covered
  · intro hcost
    have hqueue : Contiguous (P.account.nonce account)
        ((pool.pruneExpired now).pendingFromSender (P.transaction.sender t) none ++ [t]) := by
      rw [contiguous_concat_iff, hpending, hpruned, hnonce, ← nonceOf_of_account haccount]
      exact ⟨(h _).1, rfl⟩
    have hvalid := validateAgainstLedgerExcluding_of_executable hrelayable.signed hfee haccount
      (.of_covered hqueue hcost)
    have hsame := hnow.transactions
    have hweight : (pool.pruneExpired now).weight = pool.weight := by rw [weight, hsame, weight]
    obtain ⟨pool', hinsert⟩ := insertPruned_of_valid hrelayable.timely hrelayable.signedAt hfee
      hreplacement hvalid (hsame ▸ hrelayable.fresh) (fun _ => hsame ▸ hrelayable.room) (by
        have hbytes := hrelayable.bytes
        rw [totalBytes_pruneExpired, hweight]
        exact Nat.le_trans (Nat.add_le_add_right ((Nat.sub_le _ _).trans (Nat.min_le_left _ _)) _)
          hbytes)
    rw [Mempool.insertValidatedAt, hinsert]

end Admission

end Mempool

/-! ## Alone -/

namespace Node

open Rpc (Balances balanceJson balanceJson_of_known)

variable {P : Paqus}

section Alone

variable {config : MempoolConfig} {start : UInt64} {g : P.Block} {s : Node P}
  {balances : Balances P} {address : Address}

/-- What is pending is reported exactly and is paid for. -/
theorem Alone.toNat_pendingOutgoing (h : Alone config start g s)
    (hknown : (balanceJson balances s address).known = true) :
    (balanceJson balances s address).pendingOutgoing.toNat =
        ((s.mempool.senderQueue address).map Mempool.cost).sum ∧
      (balanceJson balances s address).pendingOutgoing.toNat ≤
        (balanceJson balances s address).available.toNat := by
  obtain ⟨account, -, -, havailable, houtgoing⟩ := balanceJson_of_known hknown
  have hcost := (h.covered address).2
  have hlt := (balanceJson balances s address).available.toNat_lt
  rw [← havailable] at hcost
  rw [houtgoing, (Rpc.toNat_pendingBalance s address).1]
  omega

/-- The wallet counts on from the account's nonce over what is pending. -/
theorem Alone.toNat_walletNonce (h : Alone config start g s)
    (hknown : (balanceJson balances s address).known = true) :
    ∃ account, s.ledger.account address = some account ∧
      (Wallet.resolveWalletNonce address (balanceJson balances s address).nonce
        s.mempool.rpcMempool).toNat =
      min ((P.account.nonce account).toNat + (s.mempool.senderQueue address).length)
        (2 ^ 64 - 1) := by
  obtain ⟨account, haccount, hnonce, -, -⟩ := balanceJson_of_known hknown
  have hqueue := (h.covered address).1
  rw [Mempool.nonceOf_of_account haccount] at hqueue
  rw [hnonce]
  exact ⟨account, haccount, Mempool.toNat_resolveWalletNonce hqueue⟩

/-- The next payment of a wallet. -/
theorem Alone.submitTransaction_eq_ok_iff (h : Alone config start g s) {env : Env}
    (hnow : Window config start (env.clock s.io))
    (hknown : (balanceJson balances s address).known = true) {t : P.SignedTransaction}
    (hsender : P.transaction.sender t = address)
    (hnonce : P.transaction.nonce t = Wallet.resolveWalletNonce address
      (balanceJson balances s address).nonce s.mempool.rpcMempool)
    (hlast : P.transaction.nonce t ≠ u64Max)
    (hrelayable : s.mempool.Relayable t (env.clock s.io)) :
    (s.submitTransaction env t).2 = .ok (P.transaction.hash t) ↔
      (balanceJson balances s address).pendingOutgoing.toNat + Mempool.cost t ≤
        (balanceJson balances s address).available.toNat := by
  subst hsender
  obtain ⟨houtgoing, -⟩ := h.toNat_pendingOutgoing hknown
  obtain ⟨account, haccount, hcounted⟩ := h.toNat_walletNonce hknown
  obtain ⟨account', haccount', -, havailable, -⟩ := balanceJson_of_known hknown
  rw [← hnonce] at hcounted
  have hlt : (P.transaction.nonce t).toNat ≠ 2 ^ 64 - 1 :=
    fun heq => hlast (UInt64.toNat_inj.mp heq)
  rw [houtgoing, havailable]
  refine Except.mapError_eq_ok.trans ?_
  exact h.covered.insertValidatedAt_eq_ok_iff h.sound.pool (h.unexpired hnow) haccount hrelayable
    (by omega)

/-- **What `/balance` says is what the node decides by.**  On a node that mines
alone the pending sum of an address is exact and paid for, the wallet's nonce
comes right after what is pending, and the next payment is taken in exactly if
it costs no more than what is available less what is pending. -/
theorem balance_decides_payment
    {apply : P.Ledger → P.SignedTransaction → Except LedgerError P.Ledger}
    {begin : P.Ledger → P.Block → Except LedgerError P.Ledger}
    {finish : P.Ledger → P.Block → Except LedgerError Hash} (hfc : ForkChoiceLaws P)
    (hchain : ChainLaws P) (hheader : HeaderLaws P) (hbody : BodyLaws P)
    (hexec : ExecutionLaws P apply begin finish) (happly : ApplyLaws P apply begin)
    (hrec : RecordLaws P) {env : Env} {minerAddress : Address} {limit : Nat}
    (hsolo : Solo config start env minerAddress limit s)
    (hclock : ∀ io, Window config start (env.clock io))
    (hknown : (balanceJson balances s address).known = true) :
    ((balanceJson balances s address).pendingOutgoing.toNat =
        ((s.mempool.senderQueue address).map Mempool.cost).sum ∧
      (balanceJson balances s address).pendingOutgoing.toNat ≤
        (balanceJson balances s address).available.toNat) ∧
    (∃ account, s.ledger.account address = some account ∧
      (Wallet.resolveWalletNonce address (balanceJson balances s address).nonce
        s.mempool.rpcMempool).toNat =
      min ((P.account.nonce account).toNat + (s.mempool.senderQueue address).length)
        (2 ^ 64 - 1)) ∧
    ∀ t : P.SignedTransaction, P.transaction.sender t = address →
      P.transaction.nonce t = Wallet.resolveWalletNonce address
        (balanceJson balances s address).nonce s.mempool.rpcMempool →
      P.transaction.nonce t ≠ u64Max → s.mempool.Relayable t (env.clock s.io) →
      ((s.submitTransaction env t).2 = .ok (P.transaction.hash t) ↔
        (balanceJson balances s address).pendingOutgoing.toNat + Mempool.cost t ≤
          (balanceJson balances s address).available.toNat) := by
  obtain ⟨g, h⟩ := hsolo.alone hfc hchain hheader hbody hexec happly hrec hclock
  refine ⟨h.toNat_pendingOutgoing hknown, h.toNat_walletNonce hknown, ?_⟩
  intro t hsender hnonce hlast hrelayable
  exact h.submitTransaction_eq_ok_iff (hclock s.io) hknown hsender hnonce hlast hrelayable

end Alone

end Node

namespace Reference

def balances : Rpc.Balances solitary where
  confirmedBalance := fun ledger address => (ledger.account address).map Account.balance
  unspendableBalanceAt := fun _ _ => 0

/-- The payment passes the relay policy. -/
theorem relayable_payment : soloNode.mempool.Relayable (payment 2 3) (calm.clock soloNode.io) where
  signed := by decide +kernel
  signedAt := by decide +kernel
  timely := by decide +kernel
  relayed := by decide +kernel
  fresh := by decide +kernel
  room := by decide +kernel
  bytes := by decide +kernel

end Reference

/-- The fourth payment of the miner, with two pending. -/
theorem Node.balance_decides_payment_of_payments :
    (Rpc.balanceJson Reference.balances Reference.soloNode 1).pendingOutgoing = 14 ∧
      (Reference.soloNode.submitTransaction Reference.calm (Reference.payment 2 3)).2 =
        .ok (Reference.payment 2 3).hash := by
  obtain ⟨-, -, h⟩ := balance_decides_payment Reference.solitary_forkChoiceLaws
    Reference.solitary_chainLaws Reference.solitary_headerLaws Reference.solitary_bodyLaws
    Reference.solitary_executionLaws Reference.solitary_applyLaws Reference.solitary_recordLaws
    Reference.soloNode_solo (fun _ => Reference.window_zero)
    (by decide +kernel :
      (Rpc.balanceJson Reference.balances Reference.soloNode 1).known = true)
  refine ⟨by decide +kernel, (h _ ?_ ?_ ?_ Reference.relayable_payment).mpr ?_⟩
  · decide +kernel
  · decide +kernel
  · decide +kernel
  · decide +kernel

end PaqusNode
