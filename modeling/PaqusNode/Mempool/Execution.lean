import Mathlib.Algebra.Order.BigOperators.Group.Finset
import PaqusNode.Mempool.Queue
import PaqusNode.Mempool.Selection

/-!
# PaqusNode.Mempool.Execution

Executing what has been selected.  The selection interleaves the senders and
cuts their queues off at the limit; but what it takes of each sender is the
front of a queue that the ledger can execute, and executing a transaction of
one sender takes nothing from the others.  So the selection executes, and
its fees cannot exceed what all senders together can spend.
-/

namespace PaqusNode

namespace Mempool

variable {P : Paqus}

/-! ## The queue of the selection and the pending transactions -/

theorem senderQueue_perm_pending (pool : Mempool P) (sender : Address) :
    (pool.senderQueue sender).Perm (pool.pendingFromSender sender none) := by
  refine (senderQueue_perm pool sender).trans
    ((pendingFromSender_perm_entries pool sender none).trans (List.Perm.of_eq ?_)).symm
  rw [transactionList, BTreeMap.valuesList, List.map_map, List.filter_map, entriesFromSender]
  simp only [ne_eq, reduceCtorEq, not_false_eq_true, true_and, Function.comp_def]

/-- A gapless queue has one order only. -/
theorem senderQueue_eq_pending {pool : Mempool P} {sender : Address} {start : UInt64}
    (h : Contiguous start (pool.pendingFromSender sender none)) :
    pool.senderQueue sender = pool.pendingFromSender sender none := by
  have hsorted : (pool.senderQueue sender).Pairwise fun a b =>
      P.transaction.nonce a ≤ P.transaction.nonce b := by
    refine (senderQueue_sorted pool sender).imp ?_
    rintro a b (hlt | ⟨heq, -⟩)
    · exact UInt64.le_of_lt hlt
    · exact UInt64.le_of_eq heq
  refine (senderQueue_perm_pending pool sender).eq_of_pairwise ?_ hsorted
    (pendingFromSender_sorted pool sender none)
  intro a b ha hb hab hba
  exact List.inj_on_of_nodup_map h.nodup ((senderQueue_perm_pending pool sender).mem_iff.mp ha) hb
    (congrArg UInt64.toNat (UInt64.le_antisymm hab hba))

/-! ## Execution -/

/-- Every sender's queue can be executed on the ledger. -/
def Covered (ledger : P.Ledger) (queues : Address → List P.SignedTransaction) : Prop :=
  ∀ sender, Contiguous (nonceOf ledger.accounts sender) (queues sender) ∧
    ((queues sender).map cost).sum ≤ availableOf ledger sender

section Laws

variable {apply : P.Ledger → P.SignedTransaction → Except LedgerError P.Ledger}
  {start : P.Ledger → P.Block → Except LedgerError P.Ledger}
  {finish : P.Ledger → P.Block → Except LedgerError Hash}

/-- The nonce after the head of a gapless queue. -/
theorem Contiguous.tail {first : UInt64} {t : P.SignedTransaction}
    {rest : List P.SignedTransaction} (h : Contiguous first (t :: rest)) :
    P.transaction.nonce t = first ∧ Contiguous (first + 1) rest := by
  obtain ⟨hnonce, hrest⟩ := gapless_cons.mp h
  refine ⟨UInt64.toNat_inj.mp hnonce, ?_⟩
  cases rest with
  | nil => exact gapless_nil
  | cons u rest =>
      -- the next nonce is a `u64`, so the count does not wrap before it
      have hnext : (P.transaction.nonce u).toNat = first.toNat + 1 := (gapless_cons.mp hrest).1
      have hlt := (P.transaction.nonce u).toNat_lt
      have hsucc : (first + 1).toNat = first.toNat + 1 := by
        rw [UInt64.toNat_add, UInt64.toNat_one, Nat.mod_eq_of_lt]
        omega
      unfold Contiguous
      rw [hsucc]
      exact hrest

/-- **Executing the head of any queue leaves the others covered.** -/
theorem Covered.step (hexec : ExecutionLaws P apply start finish) {ledger : P.Ledger}
    {queues : Address → List P.SignedTransaction} (h : Covered ledger queues)
    {t : P.SignedTransaction} {rest : List P.SignedTransaction}
    (hhead : queues (P.transaction.sender t) = t :: rest) :
    ∃ ledger', apply ledger t = .ok ledger' ∧
      Covered ledger' (Function.update queues (P.transaction.sender t) rest) := by
  obtain ⟨hqueue, hfunds⟩ := h (P.transaction.sender t)
  rw [hhead] at hqueue hfunds
  rw [List.map_cons, List.sum_cons] at hfunds
  obtain ⟨hnonce, hrest⟩ := hqueue.tail
  obtain ⟨ledger', hledger'⟩ := hexec.apply_ok hnonce (by unfold cost at hfunds; omega)
  refine ⟨ledger', hledger', fun sender => ?_⟩
  have hnonce' := hexec.apply_nonce hledger' sender
  have havailable := hexec.apply_available hledger' sender
  by_cases hsender : sender = P.transaction.sender t
  · subst hsender
    rw [if_pos rfl] at hnonce' havailable
    rw [Function.update_self, hnonce']
    exact ⟨hrest, by unfold cost at hfunds ⊢; omega⟩
  · rw [if_neg hsender] at hnonce' havailable
    rw [Function.update_of_ne hsender, hnonce']
    exact ⟨(h sender).1, Nat.le_trans (h sender).2 havailable⟩

theorem Covered.of_start (hexec : ExecutionLaws P apply start finish) {ledger ledger' : P.Ledger}
    {queues : Address → List P.SignedTransaction} (h : Covered ledger queues) {block : P.Block}
    (hstart : start ledger block = .ok ledger') : Covered ledger' queues := by
  intro sender
  rw [hexec.start_nonce hstart sender]
  exact ⟨(h sender).1, Nat.le_trans (h sender).2 (hexec.start_available hstart sender)⟩

theorem Covered.selectForBlock (hexec : ExecutionLaws P apply start finish) {ledger : P.Ledger}
    {pool : Mempool P} (h : Covered ledger pool.senderQueue) (limit : Nat) :
    ∃ ledger', (pool.selectForBlock limit).foldlM apply ledger = .ok ledger' :=
  (selectForBlock_draw pool limit).runs (fun hcovered hhead => hcovered.step hexec hhead) h

end Laws

/-! ## The candidate block -/

/-- The two places where a candidate block can fail. -/
theorem candidateBlock_error {ledger : P.Ledger} {minerAddress : Address}
    {timestamp nonce : UInt64} {fees : UInt32} {transactions : List P.SignedTransaction}
    {e : LedgerError}
    (h : candidateBlock ledger minerAddress timestamp nonce fees transactions = .error e) :
    (∃ height, P.ledger.mintableSubsidy ledger height = .error e) ∨
      ∃ height previousHash coinbase, P.ledger.stateRootAfterBlock ledger
        (P.block.withCoinbase height previousHash minerAddress P.consensus.difficultyStart
          timestamp nonce coinbase transactions) = .error e := by
  unfold candidateBlock at h
  dsimp only at h
  split at h
  · next e' hcoinbase =>
      cases h
      split at hcoinbase
      · cases hcoinbase
      · exact .inl ⟨_, Except.map_eq_error hcoinbase⟩
  · next coinbase hcoinbase =>
      split at h
      · next e' hroot =>
          cases h
          exact .inr ⟨_, _, _, hroot⟩
      · cases h

/-- **Selected transactions execute**, one after the other, on any ledger on
which each sender's pending transactions have contiguous nonces and are paid
for; so a candidate block that fails does not fail because of them. -/
theorem selected_execute {apply : P.Ledger → P.SignedTransaction → Except LedgerError P.Ledger}
    {start : P.Ledger → P.Block → Except LedgerError P.Ledger}
    {finish : P.Ledger → P.Block → Except LedgerError Hash}
    (hexec : ExecutionLaws P apply start finish) {ledger : P.Ledger} {pool : Mempool P}
    (hqueues : ∀ sender,
      Contiguous (nonceOf ledger.accounts sender) (pool.pendingFromSender sender none))
    (hfunds : ∀ sender,
      ((pool.pendingFromSender sender none).map cost).sum ≤ availableOf ledger sender)
    (limit : Nat) :
    (∃ ledger', (pool.selectForBlock limit).foldlM apply ledger = .ok ledger') ∧
      ∀ minerAddress timestamp nonce e,
        pool.createCandidateBlock ledger minerAddress timestamp nonce limit = .error e →
        (∃ height, P.ledger.mintableSubsidy ledger height = .error e) ∨
          ∃ block, P.block.transactions block = pool.selectForBlock limit ∧
            (start ledger block = .error e ∨
              ∃ started executed, start ledger block = .ok started ∧
                (pool.selectForBlock limit).foldlM apply started = .ok executed ∧
                finish executed block = .error e) := by
  have hcovered : Covered ledger pool.senderQueue := by
    intro sender
    rw [senderQueue_eq_pending (hqueues sender)]
    exact ⟨hqueues sender, hfunds sender⟩
  refine ⟨hcovered.selectForBlock hexec limit, ?_⟩
  intro minerAddress timestamp nonce e he
  rw [createCandidateBlock] at he
  rcases candidateBlock_error he with hmint | ⟨height, previousHash, coinbase, hroot⟩
  · exact .inl hmint
  · have htxs := hexec.transactions_withCoinbase height previousHash minerAddress
      P.consensus.difficultyStart timestamp nonce coinbase (pool.selectForBlock limit)
    refine .inr ⟨_, htxs, ?_⟩
    rw [hexec.root_after, htxs] at hroot
    revert hroot
    generalize P.block.withCoinbase height previousHash minerAddress
      P.consensus.difficultyStart timestamp nonce coinbase (pool.selectForBlock limit) = block
    intro hroot
    cases hstart : start ledger block with
    | error e' =>
        rw [hstart] at hroot
        cases hroot
        exact .inl rfl
    | ok started =>
        obtain ⟨executed, hexecuted⟩ :=
          (hcovered.of_start hexec hstart).selectForBlock hexec limit
        rw [hstart] at hroot
        refine .inr ⟨started, executed, rfl, hexecuted, ?_⟩
        have hbind : ((pool.selectForBlock limit).foldlM apply started >>= fun ledger =>
            finish ledger block) = .error e := hroot
        rwa [hexecuted] at hbind

/-! ## The fees of the candidate block -/

/-- What all accounts together can spend. -/
def totalAvailable (ledger : P.Ledger) : Nat :=
  (ledger.accounts.valuesList.map fun account =>
    (P.account.availableBalanceAt account ((P.ledger.tipHeight ledger).getD 0)).toNat).sum

/-- Fees that stay in range add up exactly. -/
theorem foldl_fee_of_lt (transactions : List P.SignedTransaction) (acc : UInt32)
    (h : acc.toNat + (transactions.map fun t => (P.transaction.fee t).toNat).sum < 2 ^ 32) :
    (transactions.foldl (fun sum t => sum + P.transaction.fee t) acc).toNat =
      acc.toNat + (transactions.map fun t => (P.transaction.fee t).toNat).sum := by
  induction transactions generalizing acc with
  | nil => rfl
  | cons t rest ih =>
      rw [List.map_cons, List.sum_cons] at h ⊢
      have hstep : (acc + P.transaction.fee t).toNat = acc.toNat + (P.transaction.fee t).toNat := by
        rw [UInt32.toNat_add, Nat.mod_eq_of_lt]
        omega
      rw [List.foldl_cons, ih _ (by omega), hstep, Nat.add_assoc]

/-- What is selected costs no more than all senders together can spend. -/
theorem sum_cost_selectForBlock_le {ledger : P.Ledger} {pool : Mempool P}
    (hfunds : ∀ sender,
      ((pool.pendingFromSender sender none).map cost).sum ≤ availableOf ledger sender)
    (limit : Nat) : ((pool.selectForBlock limit).map cost).sum ≤ totalAvailable ledger := by
  have hkeys : ∀ sender, pool.senderQueue sender ≠ [] →
      sender ∈ (pool.transactionList.map P.transaction.sender).toFinset := by
    intro sender hne
    obtain ⟨t, ht⟩ := List.exists_mem_of_ne_nil _ hne
    obtain ⟨hmem, rfl⟩ := mem_senderQueue.mp ht
    exact List.mem_toFinset.mpr (List.mem_map_of_mem hmem)
  calc ((pool.selectForBlock limit).map cost).sum
      ≤ ∑ sender ∈ (pool.transactionList.map P.transaction.sender).toFinset,
          ((pool.senderQueue sender).map cost).sum :=
        (selectForBlock_draw pool limit).sum_le cost _ hkeys
    _ ≤ ∑ sender ∈ (pool.transactionList.map P.transaction.sender).toFinset,
          availableOf ledger sender := by
        refine Finset.sum_le_sum fun sender _ => ?_
        rw [((senderQueue_perm_pending pool sender).map cost).sum_nat]
        exact hfunds sender
    _ ≤ totalAvailable ledger := BTreeMap.sum_getElem?_le ledger.accounts _ _

/-- **The coinbase fee sum is exact**: no partial sum leaves the `u32` range,
and the candidate block is the one with the exact sum of the selected fees. -/
theorem feeSum_exact {ledger : P.Ledger} (htotal : totalAvailable ledger ≤ 2 ^ 32 - 1)
    {pool : Mempool P}
    (hfunds : ∀ sender,
      ((pool.pendingFromSender sender none).map cost).sum ≤ availableOf ledger sender)
    (limit : Nat) :
    (∀ k, (feeSum ((pool.selectForBlock limit).take k)).toNat =
      (((pool.selectForBlock limit).take k).map fun t => (P.transaction.fee t).toNat).sum) ∧
      ∀ minerAddress timestamp nonce,
        ∃ fees : UInt32, fees.toNat =
            ((pool.selectForBlock limit).map fun t => (P.transaction.fee t).toNat).sum ∧
          pool.createCandidateBlock ledger minerAddress timestamp nonce limit =
            candidateBlock ledger minerAddress timestamp nonce fees
              (pool.selectForBlock limit) := by
  have hpart : ∀ k, (feeSum ((pool.selectForBlock limit).take k)).toNat =
      (((pool.selectForBlock limit).take k).map fun t => (P.transaction.fee t).toNat).sum := by
    intro k
    have hcost : (((pool.selectForBlock limit).take k).map fun t =>
        (P.transaction.fee t).toNat).sum ≤ ((pool.selectForBlock limit).map cost).sum :=
      calc (((pool.selectForBlock limit).take k).map fun t => (P.transaction.fee t).toNat).sum
          ≤ (((pool.selectForBlock limit).take k).map cost).sum :=
            List.sum_le_sum fun t _ => Nat.le_add_left _ _
        _ ≤ ((pool.selectForBlock limit).map cost).sum :=
            ((List.take_sublist _ _).map cost).sum_le_sum fun _ _ => Nat.zero_le _
    have hbound := sum_cost_selectForBlock_le hfunds limit
    have hsum := foldl_fee_of_lt ((pool.selectForBlock limit).take k) 0
      (by rw [UInt32.toNat_zero]; omega)
    rwa [UInt32.toNat_zero, Nat.zero_add] at hsum
  refine ⟨hpart, ?_⟩
  intro minerAddress timestamp nonce
  refine ⟨feeSum (pool.selectForBlock limit), ?_, rfl⟩
  have hall := hpart (pool.selectForBlock limit).length
  rwa [List.take_length] at hall

end Mempool

namespace Reference

/-! ## A ledger that executes -/

/-- The account of an address, an empty one if there is none. -/
def accountAt (accounts : Accounts) (address : Address) : Account :=
  (accounts[address]?).getD ⟨address, 0, 0⟩

/-- The balance after a credit; what does not fit is lost. -/
def credited (balance amount : UInt32) : UInt32 :=
  UInt32.ofNat (min (balance.toNat + amount.toNat) (2 ^ 32 - 1))

/-- The accounts once the sender has paid. -/
def paid (accounts : Accounts) (tx : Tx) : Accounts :=
  let sender := accountAt accounts tx.sender
  accounts.insert tx.sender { sender with
    nonce := sender.nonce + 1
    balance := sender.balance - (tx.amount + tx.fee) }

/-- The accounts once the receiver has been paid. -/
def received (accounts : Accounts) (tx : Tx) : Accounts :=
  let receiver := accountAt accounts tx.receiver
  accounts.insert tx.receiver { receiver with balance := credited receiver.balance tx.amount }

/-- Execute one transaction. -/
def execute (ledger : Ledger Account Block) (tx : Tx) :
    Except LedgerError (Ledger Account Block) :=
  let sender := accountAt ledger.accounts tx.sender
  if tx.nonce ≠ sender.nonce then .error (.invalidState .invalidNonce)
  else if sender.balance.toNat < tx.amount.toNat + tx.fee.toNat then
    .error (.invalidState .insufficientBalance)
  else .ok { ledger with accounts := received (paid ledger.accounts tx) tx }

/-- The crate with the transactions of a block executed by `execute`. -/
abbrev executing : Paqus := { paqus with
  ledger := { paqus.ledger with
    stateRootAfterBlock := fun ledger block => do
      let ledger ← block.transactions.foldlM execute ledger
      .ok (stateRoot ledger) } }

/-- The accounts once one of them has been set. -/
theorem accountAt_insert (accounts : Accounts) (k address : Address) (account : Account) :
    accountAt (accounts.insert k account) address =
      if k = address then account else accountAt accounts address := by
  unfold accountAt
  rw [BTreeMap.getElem?_insert_eq]
  split
  · rfl
  · rfl

theorem nonceOf_eq (accounts : Accounts) (address : Address) :
    nonceOf (P := executing) accounts address = (accountAt accounts address).nonce := by
  unfold nonceOf accountAt
  cases accounts[address]? with
  | none => rfl
  | some account => rfl

theorem availableOf_eq (ledger : Ledger Account Block) (address : Address) :
    availableOf (P := executing) ledger address =
      (accountAt ledger.accounts address).balance.toNat := by
  unfold availableOf accountAt Ledger.account
  cases ledger.accounts[address]? with
  | none => rfl
  | some account => rfl

theorem le_credited (balance amount : UInt32) :
    balance.toNat ≤ (credited balance amount).toNat := by
  have hlt := balance.toNat_lt
  have hsize : UInt32.size = 2 ^ 32 := rfl
  rw [credited, UInt32.toNat_ofNat_of_lt' (by omega)]
  omega

/-- A payment received takes nothing off a balance and leaves the nonces alone. -/
theorem accountAt_received (accounts : Accounts) (tx : Tx) (address : Address) :
    (accountAt (received accounts tx) address).nonce = (accountAt accounts address).nonce ∧
      (accountAt accounts address).balance.toNat ≤
        (accountAt (received accounts tx) address).balance.toNat := by
  rw [received, accountAt_insert]
  split
  · next heq =>
      subst heq
      exact ⟨rfl, le_credited _ _⟩
  · exact ⟨rfl, Nat.le_refl _⟩

/-- A payment made takes its cost off the sender and counts. -/
theorem accountAt_paid {accounts : Accounts} {tx : Tx}
    (hfunds : tx.amount.toNat + tx.fee.toNat ≤ (accountAt accounts tx.sender).balance.toNat)
    (address : Address) :
    (accountAt (paid accounts tx) address).nonce =
        (if address = tx.sender then (accountAt accounts address).nonce + 1
          else (accountAt accounts address).nonce) ∧
      (accountAt accounts address).balance.toNat =
        (accountAt (paid accounts tx) address).balance.toNat +
          if address = tx.sender then tx.amount.toNat + tx.fee.toNat else 0 := by
  rw [paid, accountAt_insert]
  by_cases hsender : tx.sender = address
  · subst hsender
    have hlt := (accountAt accounts tx.sender).balance.toNat_lt
    have hcost : (tx.amount + tx.fee).toNat = tx.amount.toNat + tx.fee.toNat := by
      rw [UInt32.toNat_add, Nat.mod_eq_of_lt]
      omega
    refine ⟨by simp, ?_⟩
    rw [if_pos rfl, if_pos rfl,
      UInt32.toNat_sub_of_le _ _ (UInt32.le_iff_toNat_le.mpr (hcost ▸ hfunds)), hcost]
    omega
  · rw [if_neg hsender, if_neg (Ne.symm hsender), if_neg (Ne.symm hsender)]
    exact ⟨rfl, rfl⟩

/-- What an executed transaction does to an account. -/
theorem execute_ok {ledger ledger' : Ledger Account Block} {tx : Tx}
    (h : execute ledger tx = .ok ledger') (address : Address) :
    (accountAt ledger'.accounts address).nonce =
        (if address = tx.sender then (accountAt ledger.accounts address).nonce + 1
          else (accountAt ledger.accounts address).nonce) ∧
      (accountAt ledger.accounts address).balance.toNat ≤
        (accountAt ledger'.accounts address).balance.toNat +
          if address = tx.sender then tx.amount.toNat + tx.fee.toNat else 0 := by
  unfold execute at h
  dsimp only at h
  split at h
  · cases h
  split at h
  · cases h
  next hfunds =>
  cases h
  obtain ⟨hnonce, hbalance⟩ := accountAt_paid (Nat.le_of_not_lt hfunds) address
  obtain ⟨hnonce', hbalance'⟩ := accountAt_received (paid ledger.accounts tx) tx address
  refine ⟨hnonce'.trans hnonce, ?_⟩
  rw [hbalance]
  exact Nat.add_le_add_right hbalance' _

/-- **The execution of the witness satisfies the laws of execution.** -/
theorem executionLaws : ExecutionLaws executing execute (fun ledger _ => .ok ledger)
    (fun ledger _ => .ok (stateRoot ledger)) where
  apply_ok {ledger tx} hnonce hfunds := by
    rw [nonceOf_eq] at hnonce
    rw [availableOf_eq] at hfunds
    refine ⟨{ ledger with accounts := received (paid ledger.accounts tx) tx }, ?_⟩
    unfold execute
    dsimp only
    rw [if_neg (Decidable.not_not.mpr hnonce), if_neg (Nat.not_lt.mpr hfunds)]
  apply_nonce h address := by
    rw [nonceOf_eq, nonceOf_eq]
    exact (execute_ok h address).1
  apply_available h address := by
    rw [availableOf_eq, availableOf_eq]
    exact (execute_ok h address).2
  start_nonce h _ := by
    cases h
    rfl
  start_available h _ := by
    cases h
    exact Nat.le_refl _
  root_after _ _ := rfl
  transactions_withCoinbase _ _ _ _ _ _ _ _ := rfl

/-- Two payments of one account and one of another. -/
def executingPool : Mempool executing :=
  (Mempool.withConfig MempoolConfig.default).callAll
    [.insertAt (payment 2 0) 0, .insertAt (payment 9 1) 0, .insertAt (returnPayment 3 0) 0]

/-- Only the two senders have something pending. -/
theorem executingPool_pending {sender : Address} (h1 : sender ≠ 1) (h2 : sender ≠ 2) :
    executingPool.pendingFromSender sender none = [] := by
  have hsenders : ∀ entry ∈ executingPool.transactions.valuesList,
      executing.transaction.sender entry.transaction = 1 ∨
        executing.transaction.sender entry.transaction = 2 := by
    decide +kernel
  refine Mempool.pendingFromSender_eq_nil (fun entry hmem heq => ?_) none
  rcases hsenders entry hmem with hs | hs
  · exact h1 (heq.symm.trans hs)
  · exact h2 (heq.symm.trans hs)

/-- Both queues start at the nonce of the ledger. -/
theorem executingPool_contiguous (sender : Address) :
    Mempool.Contiguous (nonceOf (P := executing) sharedLedger.accounts sender)
      (executingPool.pendingFromSender sender none) := by
  by_cases h1 : sender = 1
  · subst h1
    decide +kernel
  by_cases h2 : sender = 2
  · subst h2
    decide +kernel
  · rw [executingPool_pending h1 h2]
    exact gapless_nil

/-- Both queues are paid for. -/
theorem executingPool_funded (sender : Address) :
    ((executingPool.pendingFromSender sender none).map Mempool.cost).sum ≤
      availableOf (P := executing) sharedLedger sender := by
  by_cases h1 : sender = 1
  · subst h1
    decide +kernel
  by_cases h2 : sender = 2
  · subst h2
    decide +kernel
  · rw [executingPool_pending h1 h2]
    exact Nat.zero_le _

end Reference

/-- Payments back and forth, cut off after two. -/
theorem Mempool.selected_execute_of_cross :
    Reference.executingPool.selectForBlock 2 =
        [Reference.returnPayment 3 0, Reference.payment 2 0] ∧
      ∃ ledger', (Reference.executingPool.selectForBlock 2).foldlM Reference.execute
        Reference.sharedLedger = .ok ledger' :=
  ⟨by decide +kernel, (selected_execute Reference.executionLaws Reference.executingPool_contiguous
    Reference.executingPool_funded 2).1⟩

/-- Three fees. -/
theorem Mempool.feeSum_exact_of_cross :
    (feeSum ((Reference.executingPool.selectForBlock 3).take 3)).toNat = 14 :=
  ((feeSum_exact (P := Reference.executing) (by decide +kernel)
    Reference.executingPool_funded 3).1 3).trans (by decide +kernel)

end PaqusNode
