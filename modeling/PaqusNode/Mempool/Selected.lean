import PaqusNode.Mempool.Commute
import PaqusNode.Mempool.Execution
import PaqusNode.Mempool.Readmission

/-!
# PaqusNode.Mempool.Selected

A pool between two blocks of its own.  As long as nothing expires, an
admission only ever writes to the end of a queue, so a pool whose queues can
be executed stays one; and once a block with the fronts of the queues has been
applied, what is left of the queues can be executed on the new ledger.
-/

namespace PaqusNode

namespace Mempool

variable {P : Paqus}

variable {pool : Mempool P} {ledger : P.Ledger} {now : UInt64}

/-! ## Queues -/

theorem senderQueue_congr {pool' : Mempool P} (h : pool'.transactions = pool.transactions) :
    pool'.senderQueue = pool.senderQueue := by
  unfold senderQueue transactionList
  rw [h]

/-- A gapless queue has one order only. -/
theorem senderQueue_eq_of_perm {sender : Address} {start : UInt64}
    {queue : List P.SignedTransaction} (hperm : (pool.senderQueue sender).Perm queue)
    (hqueue : Contiguous start queue) : pool.senderQueue sender = queue := by
  have hpending := pendingFromSender_eq_of_perm
    ((senderQueue_perm_pending pool sender).symm.trans hperm) hqueue
  rw [← hpending] at hqueue ⊢
  exact senderQueue_eq_pending hqueue

theorem Covered.pendingFromSender (h : Covered ledger pool.senderQueue) (sender : Address) :
    pool.pendingFromSender sender none = pool.senderQueue sender :=
  pendingFromSender_eq_of_perm (senderQueue_perm_pending pool sender).symm (h sender).1

theorem Contiguous.of_append {start : UInt64} {front rest : List P.SignedTransaction}
    (h : Contiguous start (front ++ rest)) : Contiguous start front := by
  unfold Contiguous Gapless at *
  rw [List.map_append, List.length_append, ← List.range'_append_1] at h
  exact (List.append_inj h (by simp)).1

/-- Of two queues with the same first nonce, one with members of the other
only is the front of the other. -/
theorem Contiguous.front {start : UInt64} {front queue : List P.SignedTransaction}
    (hfront : Contiguous start front) (hqueue : Contiguous start queue)
    (hmem : ∀ t ∈ front, t ∈ queue) : front <+: queue := by
  induction front generalizing start queue with
  | nil => exact List.nil_prefix
  | cons t front ih =>
      cases queue with
      | nil => exact absurd (hmem t List.mem_cons_self) List.not_mem_nil
      | cons u queue =>
          obtain ⟨ht, hfront'⟩ := hfront.tail
          obtain ⟨hu, hqueue'⟩ := hqueue.tail
          obtain rfl : t = u := by
            refine List.inj_on_of_nodup_map hqueue.nodup (hmem t List.mem_cons_self)
              List.mem_cons_self ?_
            rw [ht, hu]
          have hnodup := (List.nodup_cons.mp (List.Nodup.of_map _ hfront.nodup)).1
          refine List.cons_prefix_cons.mpr ⟨rfl, ih hfront' hqueue' fun v hv => ?_⟩
          rcases List.mem_cons.mp (hmem v (List.mem_cons_of_mem t hv)) with rfl | hv'
          · exact absurd hv hnodup
          · exact hv'

/-! ## Nothing expires -/

/-- At `now` no entry is old enough to expire. -/
def Unexpired (pool : Mempool P) (now : UInt64) : Prop :=
  ∀ ⦃hash : TransactionHash⦄ ⦃entry : MempoolEntry P⦄,
    pool.transactions[hash]? = some entry → retained pool.config now entry = true

theorem Unexpired.transactions (h : pool.Unexpired now) :
    (pool.pruneExpired now).transactions = pool.transactions := by
  refine Std.ExtTreeMap.ext_getElem? fun hash => ?_
  rw [getElem?_pruneExpired]
  cases hentry : pool.transactions[hash]? with
  | none => rfl
  | some entry => simp [h hentry]

theorem senderQueue_pruneExpired (h : pool.Unexpired now) :
    (pool.pruneExpired now).senderQueue = pool.senderQueue :=
  senderQueue_congr h.transactions

/-! ## Admission -/

theorem nonceOf_of_account {address : Address} {account : P.Account}
    (h : ledger.account address = some account) :
    nonceOf ledger.accounts address = P.account.nonce account := by
  simp only [Ledger.account] at h
  simp [nonceOf, h]

theorem availableOf_of_account {address : Address} {account : P.Account}
    (h : ledger.account address = some account) :
    availableOf ledger address =
      (P.account.availableBalanceAt account ((P.ledger.tipHeight ledger).getD 0)).toNat := by
  simp [availableOf, h]

theorem senderQueue_perm_of_entriesOf {pool' : Mempool P} {sender : Address}
    (h : entriesOf pool'.transactions sender = entriesOf pool.transactions sender) :
    (pool'.senderQueue sender).Perm (pool.senderQueue sender) := by
  refine (senderQueue_perm_pending pool' sender).trans ?_
  rw [pendingFromSender_congr h]
  exact (senderQueue_perm_pending pool sender).symm

/-- An insertion does not touch the entries of other senders. -/
theorem Unexpired.entriesOf_insertValidatedAt (h : pool.Unexpired now) (ledger : P.Ledger)
    {t : P.SignedTransaction} {sender : Address} (hne : sender ≠ P.transaction.sender t) :
    entriesOf (pool.insertValidatedAt ledger t now).1.transactions sender =
      entriesOf pool.transactions sender := by
  refine Std.ExtTreeMap.ext_getElem? fun hash => Option.ext fun entry => ?_
  simp only [entriesOf, BTreeMap.getElem?_filter_eq, Option.filter_eq_some_iff, beq_iff_eq]
  refine and_congr_left fun hsender => ?_
  rw [getElem?_insertValidatedAt_of_sender_ne pool ledger (hsender ▸ hne)]
  exact and_iff_left_of_imp (h ·)

/-- **An insertion keeps the queues executable**, accepted or not. -/
theorem Covered.insertValidatedAt (h : Covered ledger pool.senderQueue) (hwf : pool.WellFormed)
    (hnow : pool.Unexpired now) (t : P.SignedTransaction) :
    Covered ledger (pool.insertValidatedAt ledger t now).1.senderQueue := by
  cases hresult : (pool.insertValidatedAt ledger t now).2 with
  | error e =>
      have hpruned : (pool.insertValidatedAt ledger t now).1 = pool.pruneExpired now := by
        unfold Mempool.insertValidatedAt at hresult ⊢
        simp only at hresult ⊢
        split at hresult
        · rfl
        · cases hresult
      rw [hpruned, senderQueue_pruneExpired hnow]
      exact h
  | ok hash =>
      intro sender
      by_cases hsender : sender = P.transaction.sender t
      · subst hsender
        obtain ⟨account, earlier, haccount, hpending, hqueue⟩ :=
          executable_of_accepted hwf.onePerSlot hresult
        rw [senderQueue_eq_of_perm (hpending ▸ senderQueue_perm_pending _ _) hqueue.contiguous,
          nonceOf_of_account haccount, availableOf_of_account haccount]
        exact ⟨hqueue.contiguous, hqueue.covered⟩
      · have hperm := senderQueue_perm_of_entriesOf
          (hnow.entriesOf_insertValidatedAt ledger hsender)
        rw [senderQueue_eq_of_perm hperm (h sender).1]
        exact h sender

/-! ## Confirmation -/

/-- A pooled transaction is found under its hash. -/
theorem WellFormed.mem_transactionList (hwf : pool.WellFormed) {t : P.SignedTransaction} :
    t ∈ pool.transactionList ↔
      ∃ entry, pool.transactions[P.transaction.hash t]? = some entry ∧ entry.transaction = t := by
  simp only [transactionList, List.mem_map, BTreeMap.mem_valuesList]
  constructor
  · rintro ⟨entry, ⟨hash, hentry⟩, rfl⟩
    exact ⟨entry, (hwf.keyed hentry).symm ▸ hentry, rfl⟩
  · rintro ⟨entry, hentry, rfl⟩
    exact ⟨entry, ⟨_, hentry⟩, rfl⟩

theorem WellFormed.nodup_transactionList (hwf : pool.WellFormed) : pool.transactionList.Nodup :=
  hwf.keyed.nodup_transactionList

/-- What has been selected from a pool can be drawn from any later pool, the
ledger unchanged, in which it is still pending. -/
theorem Covered.draw {pool' : Mempool P} (h : Covered ledger pool.senderQueue)
    (h' : Covered ledger pool'.senderQueue) {limit : Nat}
    (hkept : ∀ t ∈ pool.selectForBlock limit, t ∈ pool'.transactionList) :
    Draw P.transaction.sender (fun _ _ => True) pool'.senderQueue (pool.selectForBlock limit) := by
  refine .of_fronts fun sender => ?_
  have hdraw := selectForBlock_draw pool limit
  obtain ⟨rest, hrest⟩ := hdraw.filter_prefix sender
  refine Contiguous.front (Contiguous.of_append (hrest ▸ (h sender).1)) (h' sender).1 fun t ht => ?_
  rw [List.mem_filter, decide_eq_true_eq] at ht
  exact mem_senderQueue.mpr ⟨hkept t ht.1, ht.2⟩

theorem length_transactionList (pool : Mempool P) :
    pool.transactionList.length = pool.transactions.size := by
  rw [transactionList, List.length_map, BTreeMap.length_valuesList]

theorem length_selectForBlock (pool : Mempool P) (limit : Nat) :
    (pool.selectForBlock limit).length = min limit pool.transactions.size := by
  rw [selectForBlock, length_selectLoop (filed_bySender pool), sum_length_bySender]

section Confirm

variable {pool : Mempool P} {block : P.Block}
  {prefers : P.SignedTransaction → P.SignedTransaction → Prop}

/-- What is left in the pool. -/
theorem WellFormed.mem_removeConfirmed (hwf : pool.WellFormed)
    (hmem : ∀ t ∈ P.block.transactions block, t ∈ pool.transactionList)
    {t : P.SignedTransaction} : t ∈ (pool.removeConfirmed block).transactionList ↔
      t ∈ pool.transactionList ∧ t ∉ P.block.transactions block := by
  rw [(hwf.removeConfirmed block).mem_transactionList, hwf.mem_transactionList]
  simp only [getElem?_removeConfirmed]
  split
  · next hconfirmed =>
      obtain ⟨u, hu, hhash⟩ := hconfirmed
      simp only [reduceCtorEq, false_and, exists_false, false_iff, not_and, not_not]
      rintro ⟨entry, hentry, rfl⟩
      obtain ⟨entry', hentry', rfl⟩ := hwf.mem_transactionList.mp (hmem u hu)
      rw [hhash, hentry, Option.some.injEq] at hentry'
      rwa [hentry']
  · next hnot =>
      refine (and_iff_left fun ht => hnot ⟨t, ht, rfl⟩).symm

variable (hdraw : Draw P.transaction.sender prefers pool.senderQueue (P.block.transactions block))

include hdraw

theorem mem_transactionList_of_draw :
    ∀ t ∈ P.block.transactions block, t ∈ pool.transactionList :=
  fun _ ht => (mem_senderQueue.mp (hdraw.mem_queue ht)).1

/-- **Nothing is lost and nothing is kept twice**: the pool was what has been
drawn and what is left. -/
theorem WellFormed.removeConfirmed_perm (hwf : pool.WellFormed) :
    pool.transactionList.Perm
      (P.block.transactions block ++ (pool.removeConfirmed block).transactionList) := by
  have hmem := mem_transactionList_of_draw hdraw
  have hnodup := hwf.nodup_transactionList
  have hqueues : ∀ sender, (pool.senderQueue sender).Nodup := fun sender =>
    (senderQueue_perm pool sender).nodup_iff.mpr (hnodup.filter _)
  refine (List.perm_ext_iff_of_nodup hnodup ?_).mpr fun t => ?_
  · refine List.nodup_append'.mpr ⟨hdraw.nodup hqueues,
      (hwf.removeConfirmed block).nodup_transactionList, fun t ht hleft => ?_⟩
    exact ((hwf.mem_removeConfirmed hmem).mp hleft).2 ht
  · rw [List.mem_append, hwf.mem_removeConfirmed hmem]
    have := hmem t
    tauto

/-- Each queue keeps what has not been drawn of it. -/
theorem WellFormed.senderQueue_removeConfirmed (hwf : pool.WellFormed) (sender : Address) :
    ((pool.removeConfirmed block).senderQueue sender).Perm
      (Draw.remaining P.transaction.sender pool.senderQueue (P.block.transactions block)
        sender) := by
  obtain ⟨rest, hrest⟩ := hdraw.filter_prefix sender
  have hleft : Draw.remaining P.transaction.sender pool.senderQueue (P.block.transactions block)
      sender = rest := by
    unfold Draw.remaining
    rw [← hrest, List.drop_left]
  have hsplit := (hwf.removeConfirmed_perm hdraw).filter fun t => P.transaction.sender t = sender
  rw [List.filter_append] at hsplit
  have hqueue := ((senderQueue_perm pool sender).trans hsplit).trans
    ((senderQueue_perm (pool.removeConfirmed block) sender).symm.append_left _)
  rw [← hrest] at hqueue
  rw [hleft]
  exact ((List.perm_append_left_iff _).mp hqueue).symm

/-- **What is left can be executed on the new ledger.** -/
theorem Covered.removeConfirmed
    {apply : P.Ledger → P.SignedTransaction → Except LedgerError P.Ledger}
    {start : P.Ledger → P.Block → Except LedgerError P.Ledger}
    {finish : P.Ledger → P.Block → Except LedgerError Hash}
    (hexec : ExecutionLaws P apply start finish) (happly : ApplyLaws P apply start)
    {ledger' : P.Ledger} (h : Covered ledger pool.senderQueue) (hwf : pool.WellFormed)
    (hledger' : P.ledger.applyBlock ledger block = .ok ledger') :
    Covered ledger' (pool.removeConfirmed block).senderQueue := by
  obtain ⟨started, executed, hstarted, hexecuted, hafter⟩ := happly.apply_block hledger'
  obtain ⟨final, hfinal, hleft⟩ :=
    hdraw.runs_to (fun hcovered hhead => hcovered.step hexec hhead) (h.of_start hexec hstarted)
  rw [hexecuted, Except.ok.injEq] at hfinal
  subst hfinal
  intro sender
  obtain ⟨hnonce, havailable⟩ := hafter sender
  rw [senderQueue_eq_of_perm (hwf.senderQueue_removeConfirmed hdraw sender) (hleft sender).1,
    hnonce]
  exact ⟨(hleft sender).1, Nat.le_trans (hleft sender).2 havailable⟩

end Confirm

end Mempool

end PaqusNode
