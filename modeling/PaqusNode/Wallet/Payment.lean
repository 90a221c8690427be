import PaqusNode.Rpc.Balance
import PaqusNode.Wallet.Commands

/-!
# PaqusNode.Wallet.Payment

A payment from the command line to the chain (`submit_wallet_transaction` and
`rpc_submit_tx`).  The wallet makes three requests, one after the other:
`/balance` and `/mempool` for its nonce, `/tx` to hand in the transaction.  The
node may do other things in between, so each request meets it in a state of
its own.

The wallet asks for the nonce even where the command line gives one, and
prints the answer to `/tx` without looking at it.

A transaction is signed by the crate; connections, and files and clocks, are
given by their results.
-/

namespace PaqusNode

namespace Wallet

variable {P : Paqus} {A : Type} {n : Nat}

/-! ## The requests -/

/-- The nonce in the answer to `/balance/{address}`; an error has no such
field, which is read like one that is null. -/
def requestNonce (host : Config.Host A n) (balances : Rpc.Balances P) (s : Node P)
    (address : Address) : Option UInt64 :=
  match Keys.parseAddressHex (host.addressToString address) with
  | .error _ => none
  | .ok address => (Rpc.balanceJson balances s address).nonce

/-- The errors of `rpc_submit_tx`. -/
inductive SubmitError where
  /-- 400, the error of `signed_transaction_from_hex`. -/
  | badRequest (error : String)
  /-- 400, "failed to submit transaction: …". -/
  | failedToSubmit (error : NodeError)
  /-- 500, "failed to flush transaction: …". -/
  | failedToFlush (error : NodeError)

/-- `rpc_submit_tx`, but for the broadcast. -/
def rpcSubmitTx (codec : Codec P.SignedTransaction) (env : Env) (s : Node P) (tx : String) :
    Node P × Except SubmitError TransactionHash :=
  match Keys.signedTransactionFromHex codec tx with
  | .error error => (s, .error (.badRequest error))
  | .ok transaction =>
      match s.submitTransaction env transaction with
      | (s, .error error) => (s, .error (.failedToSubmit error))
      | (s, .ok _) =>
          match s.flushToStorage env with
          | (s, .error error) => (s, .error (.failedToFlush error))
          | (s, .ok ()) => (s, .ok (P.transaction.hash transaction))

/-- The node at each of the three requests, or the error of the connection. -/
structure Visits (P : Paqus) where
  balance : Except String (Node P)
  mempool : Except String (Node P)
  submit : Except String (Node P)

/-! ## The wallet -/

/-- What `Transaction::new_at` is given. -/
structure Transfer where
  sender : Address
  receiver : Address
  amount : UInt32
  fee : UInt32
  nonce : UInt64
  timestamp : UInt64
deriving DecidableEq, Repr

/-- `SignedTransaction::new` over `sign`: what is signed is what was to be
signed. -/
structure Signing (P : Paqus) (n : Nat) where
  sign : Vector UInt8 n → Transfer → P.SignedTransaction
  sender : ∀ key transfer, P.transaction.sender (sign key transfer) = transfer.sender
  amount : ∀ key transfer, P.transaction.amount (sign key transfer) = transfer.amount
  fee : ∀ key transfer, P.transaction.fee (sign key transfer) = transfer.fee
  nonce : ∀ key transfer, P.transaction.nonce (sign key transfer) = transfer.nonce

/-- `Wallet::sign_transaction`. -/
def signTransaction (signing : Signing P n) (wallet : Config.Wallet n) (transfer : Transfer) :
    Except String P.SignedTransaction :=
  if transfer.sender ≠ wallet.address then
    .error "transaction sender does not match wallet address"
  else .ok (signing.sign wallet.secretKey transfer)

/-- What the wallet ends with: a transaction that is printed, or the answer of
the node, which has taken its turn. -/
inductive Outcome (P : Paqus) where
  | printed (transaction : P.SignedTransaction)
  | answered (s : Node P) (answer : Except SubmitError TransactionHash)

section Submit

variable (host : Config.Host A n) (balances : Rpc.Balances P) (signing : Signing P n)
  (codec : Codec P.SignedTransaction) (env : Env)

/-- The two requests of `resolve_wallet_nonce`. -/
def requestWalletNonce (visits : Visits P) (address : Address) : Except String UInt64 := do
  let atBalance ← visits.balance
  let atMempool ← visits.mempool
  .ok (resolveWalletNonce address (requestNonce host balances atBalance address)
    atMempool.mempool.rpcMempool)

/-- `submit_wallet_transaction`.  The nonce is asked for in any case, as the
argument of `unwrap_or`. -/
def submitWalletTransaction (timestamp : Except String UInt64) (visits : Visits P)
    (payment : Payment) : Except String (Outcome P) := do
  let wallet ← Config.loadWallet host payment.walletPath
  let resolved ← requestWalletNonce host balances visits wallet.address
  let nonce := payment.nonce.getD resolved
  let timestamp ← timestamp
  let signed ← (signTransaction signing wallet ⟨wallet.address, payment.receiver, payment.amount,
    payment.fee, nonce, timestamp⟩).mapError ("failed to sign transaction: " ++ ·)
  let txHex := Keys.signedTransactionToHex codec signed
  if payment.submit then
    let s ← visits.submit
    let (s, answer) := rpcSubmitTx codec env s txHex
    .ok (.answered s answer)
  else .ok (.printed signed)

end Submit

/-- The transaction that a payment comes down to. -/
def signedPayment (signing : Signing P n) (wallet : Config.Wallet n) (payment : Payment)
    (nonce timestamp : UInt64) : P.SignedTransaction :=
  signing.sign wallet.secretKey ⟨wallet.address, payment.receiver, payment.amount, payment.fee,
    nonce, timestamp⟩

/-- What `pay` reads is submitted, with the nonce that the node gives. -/
theorem walletPayCommand_submits {args : List String} {payment : Payment}
    (h : walletPayCommand args = .ok payment) : payment.submit = true ∧ payment.nonce = none := by
  refine ⟨?_, (walletPayCommand_eq_ok.mp h).2.2⟩
  obtain ⟨receiver, amount, s, -, -, -, rfl⟩ := payWith_eq_ok.mp h
  rfl

/-- A payment that `pay` takes is signed at the wallet's nonce and submitted. -/
theorem submitWalletTransaction_of_pay {host : Config.Host A n} {balances : Rpc.Balances P}
    (signing : Signing P n) (codec : Codec P.SignedTransaction) (env : Env) {args : List String}
    {payment : Payment} (hpay : walletPayCommand args = .ok payment) {wallet : Config.Wallet n}
    (hwallet : Config.loadWallet host payment.walletPath = .ok wallet) {visits : Visits P}
    {nonce : UInt64} (hnonce : requestWalletNonce host balances visits wallet.address = .ok nonce)
    {s : Node P} (hs : visits.submit = .ok s) (timestamp : UInt64) :
    submitWalletTransaction host balances signing codec env (.ok timestamp) visits payment =
      .ok (.answered
        (rpcSubmitTx codec env s (Keys.signedTransactionToHex codec
          (signedPayment signing wallet payment nonce timestamp))).1
        (rpcSubmitTx codec env s (Keys.signedTransactionToHex codec
          (signedPayment signing wallet payment nonce timestamp))).2) := by
  obtain ⟨hsubmit, hnone⟩ := walletPayCommand_submits hpay
  unfold submitWalletTransaction
  rw [hwallet, hsubmit, hnone, hs]
  change (requestWalletNonce host balances visits wallet.address >>= _) = _
  rw [hnonce]
  change (Except.mapError _ (signTransaction signing wallet _) >>= _) = _
  rw [signTransaction, if_neg (not_not_intro rfl)]
  rfl

/-- What is handed in as text is taken in as the transaction it stands for. -/
theorem rpcSubmitTx_of_accepted {codec : Codec P.SignedTransaction} {env : Env} {s : Node P}
    {t : P.SignedTransaction} (hshort : (codec.encode t).length < 2 ^ 32)
    (haccepted : (s.submitTransaction env t).2 = .ok (P.transaction.hash t))
    (hflushed : ((s.submitTransaction env t).1.flushToStorage env).2 = .ok ()) :
    rpcSubmitTx codec env s (Keys.signedTransactionToHex codec t) =
      (((s.submitTransaction env t).1.flushToStorage env).1, .ok (P.transaction.hash t)) := by
  have hread : Keys.signedTransactionFromHex codec (Keys.signedTransactionToHex codec t) = .ok t :=
    (Keys.signedTransactionFromHex_eq_ok codec hshort).mpr (Keys.reads_self _)
  unfold rpcSubmitTx
  simp only [hread]
  generalize s.submitTransaction env t = submitted at *
  obtain ⟨s₁, result⟩ := submitted
  cases haccepted
  simp only at hflushed ⊢
  generalize s₁.flushToStorage env = flushed at *
  obtain ⟨s₂, result⟩ := flushed
  cases hflushed
  rfl

end Wallet

/-! ## Between the requests -/

namespace Node

variable {P : Paqus} {config : MempoolConfig} {start : UInt64} {g : P.Block} {s : Node P}

theorem senderQueue_submitTransaction {env : Env} (h : Alone config start g s)
    (hnow : Window config start (env.clock s.io)) {address : Address} {t : P.SignedTransaction}
    (hne : P.transaction.sender t ≠ address) :
    (s.submitTransaction env t).1.mempool.senderQueue address = s.mempool.senderQueue address :=
  Mempool.senderQueue_eq_of_perm (Mempool.senderQueue_perm_of_entriesOf
    ((h.unexpired hnow).entriesOf_insertValidatedAt s.ledger hne.symm)) (h.covered address).1

section Laws

variable (hfc : ForkChoiceLaws P) (hchain : ChainLaws P)

include hfc hchain

/-- What others hand in leaves a sender's queue alone. -/
theorem Alone.others {env : Env} (h : Alone config start g s)
    (hclock : ∀ io, Window config start (env.clock io)) (minerAddress : Address) (limit : Nat)
    {address : Address} {others : List P.SignedTransaction}
    (hothers : ∀ t ∈ others, P.transaction.sender t ≠ address) {s' : Node P}
    (hs' : s.runSolo env minerAddress limit (others.map .submit) = s') :
    Alone config start g s' ∧ s'.ledger = s.ledger ∧
      s'.mempool.senderQueue address = s.mempool.senderQueue address := by
  induction others generalizing s with
  | nil =>
      subst hs'
      exact ⟨h, rfl, rfl⟩
  | cons t rest ih =>
      rw [List.forall_mem_cons] at hothers
      obtain ⟨halone, hledger, hqueue⟩ := ih (h.submit hfc hchain hclock t) hothers.2 hs'
      exact ⟨halone, hledger,
        hqueue.trans (senderQueue_submitTransaction h (hclock s.io) hothers.1)⟩

/-- Flushing keeps the invariant, and the mempool. -/
theorem Alone.flush (h : Alone config start g s) (env : Env) :
    Alone config start g (s.flushToStorage env).1 ∧
      (s.flushToStorage env).1.mempool = s.mempool := by
  have hsound := (Operation.run_steps env s .flushToStorage).sound hfc hchain h.sound
  obtain ⟨storage, durable, heq⟩ := saveLedger_fst env s
  have hflush : (s.flushToStorage env).1 = { s.tick with storage := storage, durable := durable } :=
    heq
  refine ⟨h.of_same hsound ?_ ?_ ?_, ?_⟩
  · rw [hflush]
    exact h.idle
  · rw [hflush]
    rfl
  · rw [hflush]
    rfl
  · rw [hflush]
    rfl

/-- The next transaction of a sender that can pay for it is taken in. -/
theorem Alone.rpcSubmitTx (hrec : RecordLaws P) {env : Env} (henv : env.Faultless)
    (h : Alone config start g s) (hclock : ∀ io, Window config start (env.clock io))
    {address : Address} {account : P.Account} (haccount : s.ledger.account address = some account)
    {t : P.SignedTransaction} (hsender : P.transaction.sender t = address)
    (hnonce : (P.transaction.nonce t).toNat =
      (P.account.nonce account).toNat + (s.mempool.senderQueue address).length)
    (hrelayable : s.mempool.Relayable t (env.clock s.io))
    (hcost : ((s.mempool.senderQueue address).map Mempool.cost).sum + Mempool.cost t ≤
      availableOf s.ledger address) (codec : Codec P.SignedTransaction)
    (hshort : (codec.encode t).length < 2 ^ 32) :
    ∃ s', Wallet.rpcSubmitTx codec env s (Keys.signedTransactionToHex codec t) =
        (s', .ok (P.transaction.hash t)) ∧
      Alone config start g s' ∧ t ∈ s'.mempool.transactionList := by
  subst hsender
  have hinserted := (h.covered.insertValidatedAt_eq_ok_iff h.sound.pool (h.unexpired (hclock s.io))
    haccount hrelayable hnonce).mpr hcost
  have haccepted : (s.submitTransaction env t).2 = .ok (P.transaction.hash t) :=
    Except.mapError_eq_ok.mpr hinserted
  have hsubmitted := h.submit hfc hchain hclock t
  obtain ⟨halone, hpool⟩ := hsubmitted.flush hfc hchain env
  refine ⟨_, Wallet.rpcSubmitTx_of_accepted hshort haccepted
    (hsubmitted.sound.synced.saveLedger_ok hfc hchain hrec henv), halone, ?_⟩
  obtain ⟨replacement, -, -, hin⟩ := Mempool.insertValidatedAt_ok hinserted
  rw [hpool, hsubmitted.sound.pool.mem_transactionList]
  exact ⟨_, (hin.lookup _).trans (if_pos rfl), rfl⟩

variable {apply : P.Ledger → P.SignedTransaction → Except LedgerError P.Ledger}
  {begin : P.Ledger → P.Block → Except LedgerError P.Ledger}
  {finish : P.Ledger → P.Block → Except LedgerError Hash} (hheader : HeaderLaws P)
  (hbody : BodyLaws P) (hexec : ExecutionLaws P apply begin finish)
  (happly : ApplyLaws P apply begin)

include hheader hbody hexec happly

/-- What is pending is on the chain after enough rounds. -/
theorem Alone.confirmed {env : Env} (h : Alone config start g s)
    (hclock : ∀ io, Window config start (env.clock io)) {t : P.SignedTransaction}
    (ht : t ∈ s.mempool.transactionList) {minerAddress : Address} {limit : Nat}
    {rounds : List (UInt64 × UInt64)} (hrounds : ∀ round ∈ rounds, Window config start round.1)
    (hmoves : AllMove env minerAddress limit s (rounds.map soloRound))
    (henough : s.mempool.transactions.size ≤ rounds.length * limit) :
    ∃ block ∈ (s.runSolo env minerAddress limit
        (rounds.map soloRound)).ledger.chain.blocks.valuesList,
      t ∈ P.block.transactions block := by
  obtain ⟨blocks, -, hchain', hperm, hsize⟩ :=
    h.rounds_move hfc hchain hheader hbody hexec happly hclock hrounds hmoves rfl
  have hempty : (s.runSolo env minerAddress limit
      (rounds.map soloRound)).mempool.transactionList = [] := by
    rw [← List.length_eq_zero_iff, Mempool.length_transactionList, hsize]
    omega
  rw [hempty, List.append_nil] at hperm
  obtain ⟨block, hblock, hin⟩ := List.mem_flatMap.mp (hperm.mem_iff.mp ht)
  rw [hchain']
  exact ⟨block, List.mem_append_right _ hblock, hin⟩

open Wallet in
/-- **A payment that the balance covers ends up on the chain.**  On a node that
mines alone and whose writes succeed, `wallet pay` is accepted if the amount
and the fee are no more than what `/balance` says is available less what is
pending, whatever others hand in between the requests; and once enough rounds
have found a block, the payment is in one of them. -/
theorem payment_confirmed {A : Type} {n : Nat} (hrec : RecordLaws P) {env : Env}
    (henv : env.Faultless) {minerAddress : Address} {limit : Nat}
    (hsolo : Solo config start env minerAddress limit s)
    (hclock : ∀ io, Window config start (env.clock io)) (host : Config.Host A n)
    (balances : Rpc.Balances P) (signing : Signing P n) (codec : Codec P.SignedTransaction)
    {args : List String} {payment : Payment} (hpay : walletPayCommand args = .ok payment)
    {wallet : Config.Wallet n}
    (hwallet : Config.loadWallet host payment.walletPath = .ok wallet)
    (haddress : host.addressToString wallet.address = Keys.formatArray (beWord 20 wallet.address))
    (hknown : (Rpc.balanceJson balances s wallet.address).known = true)
    (hcost : (Rpc.balanceJson balances s wallet.address).pendingOutgoing.toNat +
        payment.amount.toNat + payment.fee.toNat ≤
      (Rpc.balanceJson balances s wallet.address).available.toNat)
    {before after : List P.SignedTransaction}
    (hbefore : ∀ t ∈ before, P.transaction.sender t ≠ wallet.address)
    (hafter : ∀ t ∈ after, P.transaction.sender t ≠ wallet.address) {s₁ s₂ : Node P}
    (hs₁ : s.runSolo env minerAddress limit (before.map .submit) = s₁)
    (hs₂ : s₁.runSolo env minerAddress limit (after.map .submit) = s₂) {nonce : UInt64}
    (hnonce : nonce = resolveWalletNonce wallet.address
      (Rpc.balanceJson balances s wallet.address).nonce s₁.mempool.rpcMempool)
    (hlast : nonce ≠ u64Max) {timestamp : UInt64} {t : P.SignedTransaction}
    (ht : t = signedPayment signing wallet payment nonce timestamp)
    (hrelayable : s₂.mempool.Relayable t (env.clock s₂.io))
    (hshort : (codec.encode t).length < 2 ^ 32) :
    ∃ s₃, submitWalletTransaction host balances signing codec env (.ok timestamp)
        ⟨.ok s, .ok s₁, .ok s₂⟩ payment = .ok (.answered s₃ (.ok (P.transaction.hash t))) ∧
      ∀ rounds : List (UInt64 × UInt64), (∀ round ∈ rounds, Window config start round.1) →
        AllMove env minerAddress limit s₃ (rounds.map soloRound) →
        s₃.mempool.transactions.size ≤ rounds.length * limit →
        ∃ block ∈ (s₃.runSolo env minerAddress limit
            (rounds.map soloRound)).ledger.chain.blocks.valuesList,
          t ∈ P.block.transactions block := by
  obtain ⟨g, h⟩ := hsolo.alone hfc hchain hheader hbody hexec happly hrec hclock
  obtain ⟨account, haccount, hstart, havailable, -⟩ := Rpc.balanceJson_of_known hknown
  obtain ⟨houtgoing, -⟩ := h.toNat_pendingOutgoing hknown
  obtain ⟨h₁, hledger₁, hqueue₁⟩ := h.others hfc hchain hclock minerAddress limit hbefore hs₁
  obtain ⟨h₂, hledger₂, hqueue₂⟩ := h₁.others hfc hchain hclock minerAddress limit hafter hs₂
  rw [hqueue₁] at hqueue₂
  rw [hledger₁] at hledger₂
  -- the wallet counts over the queue that the node checks
  have hcontiguous := (h₁.covered wallet.address).1
  rw [hledger₁, Mempool.nonceOf_of_account haccount] at hcontiguous
  have hcounted := Mempool.toNat_resolveWalletNonce hcontiguous
  rw [← hstart, ← hnonce, hqueue₁] at hcounted
  have hlt : nonce.toNat ≠ 2 ^ 64 - 1 := fun heq => hlast (UInt64.toNat_inj.mp heq)
  have hsender : P.transaction.sender t = wallet.address := by rw [ht]; exact signing.sender _ _
  have hamount : Mempool.cost t = payment.amount.toNat + payment.fee.toNat := by
    rw [ht, Mempool.cost, signedPayment, signing.amount, signing.fee]
  have htnonce : P.transaction.nonce t = nonce := by rw [ht]; exact signing.nonce _ _
  obtain ⟨s₃, hanswer, h₃, hpending⟩ := h₂.rpcSubmitTx hfc hchain hrec henv hclock
    (by rw [hledger₂]; exact haccount) hsender (by rw [htnonce, hqueue₂]; omega) hrelayable
    (by rw [hqueue₂, hledger₂, ← havailable, ← houtgoing, hamount]; omega) codec hshort
  have hparse : Keys.parseAddressHex (host.addressToString wallet.address) =
      .ok wallet.address := by
    rw [haddress, Keys.parseAddressHex_eq_ok]
    exact Keys.reads_self _
  have hseen : requestNonce host balances s wallet.address =
      (Rpc.balanceJson balances s wallet.address).nonce := by
    rw [requestNonce, hparse]
  have hrequest : requestWalletNonce host balances ⟨.ok s, .ok s₁, .ok s₂⟩ wallet.address =
      .ok nonce := by
    change Except.ok (resolveWalletNonce wallet.address (requestNonce host balances s
      wallet.address) s₁.mempool.rpcMempool) = _
    rw [hseen, ← hnonce]
  refine ⟨s₃, ?_, fun rounds hrounds hmoves henough => h₃.confirmed hfc hchain hheader hbody hexec
    happly hclock hpending hrounds hmoves henough⟩
  rw [submitWalletTransaction_of_pay signing codec env hpay hwallet hrequest rfl timestamp, ← ht,
    hanswer]

end Laws

end Node

namespace Reference

open Wallet

/-- The miner's wallet file; keys are their own address. -/
def minerHost : Config.Host Bool 2 :=
  withWallet wallets ⟨"0000000000000000000000000000000000000001", "0001"⟩

def signing : Signing solitary 2 where
  sign _ transfer := ⟨transfer.sender, transfer.receiver, transfer.amount, transfer.fee,
    transfer.nonce, transfer.timestamp⟩
  sender _ _ := rfl
  amount _ _ := rfl
  fee _ _ := rfl
  nonce _ _ := rfl

def txCodec : Codec Tx :=
  ((Codec.bits 20).pair ((Codec.bits 20).pair (Codec.u32.pair (Codec.u32.pair
    (Codec.u64.pair Codec.u64))))).iso
    { toFun := fun t => (t.sender, t.receiver, t.amount, t.fee, t.nonce, t.timestamp)
      invFun := fun p => ⟨p.1, p.2.1, p.2.2.1, p.2.2.2.1, p.2.2.2.2.1, p.2.2.2.2.2⟩
      left_inv := fun _ => rfl
      right_inv := fun _ => rfl }

def payArgs : List String := ["0000000000000000000000000000000000000002", "1", "--fee", "2"]

def payment₁ : Payment := ⟨"wallet.json", 2, 1, 2, none, Config.defaultRpcAddr, true⟩

def minerWallet : Config.Wallet 2 := ⟨1, #v[0, 1]⟩

/-- A payment back is handed in between the requests. -/
def visitedNode : Node solitary := soloNode.runSolo calm 1 1 ([returnPayment 2 0].map .submit)

theorem visitedNode_eq : soloNode.runSolo calm 1 1 ([returnPayment 2 0].map .submit) =
    visitedNode := rfl

/-- The payment passes the relay policy of the visited node. -/
theorem relayable_visited :
    visitedNode.mempool.Relayable (payment 2 3) (calm.clock visitedNode.io) where
  signed := by decide +kernel
  signedAt := by decide +kernel
  timely := by decide +kernel
  relayed := by decide +kernel
  fresh := by decide +kernel
  room := by decide +kernel
  bytes := by decide +kernel

/-- The node once it has the payment. -/
def paidNode : Node solitary :=
  (rpcSubmitTx txCodec calm visitedNode (Keys.signedTransactionToHex txCodec (payment 2 3))).1

end Reference

open Reference in
/-- The miner pays with two payments pending; after three rounds all are
confirmed. -/
theorem Node.payment_confirmed_of_pay :
    Wallet.submitWalletTransaction minerHost balances signing txCodec calm (.ok 0)
        ⟨.ok soloNode, .ok visitedNode, .ok visitedNode⟩ payment₁ =
      .ok (.answered paidNode (.ok (payment 2 3).hash)) ∧
    ∃ block ∈ (paidNode.runSolo calm 1 1
        ([(0, 1), (0, 1), (0, 1)].map soloRound)).ledger.chain.blocks.valuesList,
      payment 2 3 ∈ block.transactions := by
  have hpay : Wallet.walletPayCommand payArgs = .ok payment₁ :=
    Except.eq_ok_of_toOption (by decide +kernel)
  have hwallet : Config.loadWallet minerHost payment₁.walletPath = .ok minerWallet :=
    Except.eq_ok_of_toOption (by decide +kernel)
  have hnonce : (3 : UInt64) = Wallet.resolveWalletNonce minerWallet.address
      (Rpc.balanceJson balances soloNode minerWallet.address).nonce
      visitedNode.mempool.rpcMempool := by decide +kernel
  have hsigned : payment 2 3 = Wallet.signedPayment signing minerWallet payment₁ 3 0 := by
    decide +kernel
  have hquiet : visitedNode.runSolo calm 1 1 ([].map .submit) = visitedNode := by
    rw [List.map_nil, runSolo, List.foldl_nil]
  obtain ⟨s₃, hanswer, hrounds⟩ := payment_confirmed solitary_forkChoiceLaws solitary_chainLaws
    solitary_headerLaws solitary_bodyLaws solitary_executionLaws solitary_applyLaws
    solitary_recordLaws calm_faultless soloNode_solo (fun _ => window_zero) minerHost balances
    signing txCodec hpay hwallet (by decide +kernel) (by decide +kernel) (by decide +kernel)
    (by decide +kernel) (fun _ h => absurd h List.not_mem_nil) visitedNode_eq hquiet hnonce
    (by decide) hsigned relayable_visited (by decide +kernel)
  have hrequest : Wallet.requestWalletNonce minerHost balances
      ⟨.ok soloNode, .ok visitedNode, .ok visitedNode⟩ minerWallet.address = .ok 3 :=
    Except.eq_ok_of_toOption (by decide +kernel)
  have hpaid := Wallet.submitWalletTransaction_of_pay signing txCodec calm hpay hwallet
    hrequest rfl 0
  rw [← hsigned, hanswer, Except.ok.injEq, Wallet.Outcome.answered.injEq] at hpaid
  have hs₃ : s₃ = paidNode := hpaid.1
  subst hs₃
  have hmoves : AllMove calm 1 1 paidNode ([(0, 1), (0, 1), (0, 1)].map soloRound) := by
    simp only [List.map_cons, List.map_nil, AllMove, and_true]
    decide +kernel
  refine ⟨hanswer, hrounds _ ?_ hmoves (by decide +kernel)⟩
  simp [window_zero]

end PaqusNode
