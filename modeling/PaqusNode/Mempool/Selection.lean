import PaqusNode.Base.Draw
import PaqusNode.Mempool.Capacity
import PaqusNode.Miner

/-!
# PaqusNode.Mempool.Selection

What `select_for_block` selects: it draws from the senders' queues, each in
nonce order, always the head that pays most, until the limit is reached or
the queues are empty.
-/

namespace PaqusNode

/-- `max_by` finds an element that no other one exceeds. -/
theorem maxBy_spec {α : Type} {cmp : α → α → Ordering} {le : α → α → Prop}
    (hrefl : ∀ a, le a a) (htrans : ∀ {a b c}, le a b → le b c → le a c)
    (hgt : ∀ {a b}, cmp a b = .gt → le b a) (hle : ∀ {a b}, cmp a b ≠ .gt → le a b)
    {l : List α} {m : α} (h : maxBy cmp l = some m) : m ∈ l ∧ ∀ x ∈ l, le x m := by
  have hfold : ∀ (l : List α) (best : α),
      l.foldl (fun best y => if cmp best y = .gt then best else y) best ∈ best :: l ∧
        ∀ x ∈ best :: l, le x (l.foldl (fun best y => if cmp best y = .gt then best else y) best)
      := by
    intro l
    induction l with
    | nil => exact fun best => ⟨List.mem_singleton_self best, by simp [hrefl]⟩
    | cons y rest ih =>
        intro best
        obtain ⟨hmem, hall⟩ := ih (if cmp best y = .gt then best else y)
        rw [List.foldl_cons]
        have hnext := hall _ List.mem_cons_self
        -- the better one of the two is carried on, and exceeds the other
        have hboth : le best (if cmp best y = .gt then best else y) ∧
            le y (if cmp best y = .gt then best else y) := by
          split
          · next hcmp => exact ⟨hrefl best, hgt hcmp⟩
          · next hcmp => exact ⟨hle hcmp, hrefl y⟩
        refine ⟨?_, ?_⟩
        · rcases List.mem_cons.mp hmem with heq | hmem
          · rw [heq]
            split <;> simp
          · simp [hmem]
        · intro x hx
          rcases List.mem_cons.mp hx with rfl | hx
          · exact htrans hboth.1 hnext
          rcases List.mem_cons.mp hx with rfl | hx
          · exact htrans hboth.2 hnext
          · exact hall x (List.mem_cons_of_mem _ hx)
  cases l with
  | nil => cases h
  | cons x xs =>
      cases h
      exact hfold xs x

theorem maxBy_eq_none {α : Type} {cmp : α → α → Ordering} {l : List α} :
    maxBy cmp l = none ↔ l = [] := by
  cases l <;> simp [maxBy]

namespace Mempool

variable {P : Paqus}

/-! ## The order of the draws -/

/-- `a` is selected before `b` when both are up for selection: a higher fee,
then a lower nonce, then a lower hash. -/
def Preferred (a b : P.SignedTransaction) : Prop :=
  P.transaction.fee b < P.transaction.fee a ∨
    P.transaction.fee a = P.transaction.fee b ∧
      (P.transaction.nonce a < P.transaction.nonce b ∨
        P.transaction.nonce a = P.transaction.nonce b ∧
          P.transaction.hash a ≤ P.transaction.hash b)

namespace Candidate

/-- The same for candidates, the preferred one on the right. -/
def le (b a : Candidate) : Prop :=
  b.fee < a.fee ∨ a.fee = b.fee ∧ (a.nonce < b.nonce ∨ a.nonce = b.nonce ∧ a.hash ≤ b.hash)

theorem le_refl (a : Candidate) : a.le a := .inr ⟨rfl, .inr ⟨rfl, Nat.le_refl _⟩⟩

theorem le_trans {a b c : Candidate} (hab : a.le b) (hbc : b.le c) : a.le c := by
  unfold le at *
  simp only [UInt32.lt_iff_toNat_lt, UInt64.lt_iff_toNat_lt, ← UInt32.toNat_inj,
    ← UInt64.toNat_inj, BitVec.le_def] at *
  omega

/-- The order of hashes is that of numbers. -/
theorem compare_hash_eq_gt {a b : TransactionHash} : compare a b = .gt ↔ b < a := by
  rw [show compare a b = compareOfLessAndEq a b from rfl, compareOfLessAndEq]
  by_cases hlt : a < b
  · simp [hlt, BitVec.le_of_lt hlt]
  · by_cases heq : a = b
    · simp [heq]
    · simp only [hlt, heq, if_false, true_iff]
      exact BitVec.lt_of_le_ne (BitVec.not_lt.mp hlt) (Ne.symm heq)

theorem cmp_eq_gt {a b : Candidate} :
    a.cmp b = .gt ↔ b.fee < a.fee ∨
      a.fee = b.fee ∧ (a.nonce < b.nonce ∨ a.nonce = b.nonce ∧ a.hash < b.hash) := by
  unfold cmp
  rw [Ordering.then_eq_gt, Ordering.then_eq_gt, Std.compare_eq_gt, Std.compare_eq_gt,
    compare_hash_eq_gt, Std.compare_eq_iff_eq, Std.compare_eq_iff_eq, eq_comm (a := b.nonce)]

theorem le_of_cmp_eq_gt {a b : Candidate} (h : a.cmp b = .gt) : b.le a := by
  rcases cmp_eq_gt.mp h with h | ⟨hfee, h | ⟨hnonce, h⟩⟩
  · exact .inl h
  · exact .inr ⟨hfee, .inl h⟩
  · exact .inr ⟨hfee, .inr ⟨hnonce, BitVec.le_of_lt h⟩⟩

theorem le_of_cmp_ne_gt {a b : Candidate} (h : a.cmp b ≠ .gt) : a.le b := by
  rw [Ne, cmp_eq_gt] at h
  unfold le
  simp only [UInt32.lt_iff_toNat_lt, UInt64.lt_iff_toNat_lt, ← UInt32.toNat_inj,
    ← UInt64.toNat_inj, BitVec.le_def, BitVec.lt_def] at *
  omega

end Candidate

/-! ## The loop draws -/

/-- The queue of a sender. -/
def queueAt (queues : BTreeMap Address (List P.SignedTransaction)) (sender : Address) :
    List P.SignedTransaction := (queues[sender]?).getD []

/-- No queue is empty, and each holds transactions of its sender. -/
def Filed (queues : BTreeMap Address (List P.SignedTransaction)) : Prop :=
  ∀ (sender : Address) queue, queues[sender]? = some queue →
    queue ≠ [] ∧ ∀ t ∈ queue, P.transaction.sender t = sender

/-- The candidates are the heads of the queues. -/
theorem mem_candidates {queues : BTreeMap Address (List P.SignedTransaction)}
    {candidate : Candidate} :
    candidate ∈ candidates queues ↔ ∃ (sender : Address) (t : _) (rest : _),
      queues[sender]? = some (t :: rest) ∧
      candidate = ⟨sender, P.transaction.fee t, P.transaction.nonce t, P.transaction.hash t⟩ := by
  unfold candidates
  simp only [List.mem_filterMap, Prod.exists, Std.ExtTreeMap.mem_toList_iff_getElem?_eq_some]
  constructor
  · rintro ⟨sender, queue, hqueue, hhead⟩
    cases queue with
    | nil => cases hhead
    | cons t rest =>
        cases hhead
        exact ⟨sender, t, rest, hqueue, rfl⟩
  · rintro ⟨sender, t, rest, hqueue, rfl⟩
    exact ⟨sender, t :: rest, hqueue, rfl⟩

/-- The queues after the head of one has been taken. -/
def dequeued (queues : BTreeMap Address (List P.SignedTransaction)) (sender : Address)
    (rest : List P.SignedTransaction) : BTreeMap Address (List P.SignedTransaction) :=
  if rest.isEmpty then queues.erase sender else queues.insert sender rest

section Loop

variable {queues : BTreeMap Address (List P.SignedTransaction)}

/-- Taking the head off one queue leaves the others alone. -/
theorem queueAt_dequeued (sender : Address) (rest : List P.SignedTransaction) :
    queueAt (dequeued queues sender rest) = Function.update (queueAt queues) sender rest := by
  funext s
  unfold queueAt dequeued
  by_cases hs : s = sender
  · subst hs
    rw [Function.update_self]
    cases rest with
    | nil => simp
    | cons t rest => simp
  · rw [Function.update_of_ne hs]
    split
    · rw [BTreeMap.getElem?_erase_eq, if_neg (Ne.symm hs)]
    · rw [BTreeMap.getElem?_insert_eq, if_neg (Ne.symm hs)]

/-- What is left is filed under its sender. -/
theorem Filed.dequeued (h : Filed queues) {sender : Address} {t : P.SignedTransaction}
    {rest : List P.SignedTransaction} (hqueue : queues[sender]? = some (t :: rest)) :
    Filed (dequeued queues sender rest) := by
  intro s queue hs
  unfold Mempool.dequeued at hs
  split at hs
  · rw [BTreeMap.getElem?_erase_eq] at hs
    split at hs
    · cases hs
    · exact h s queue hs
  next hrest =>
  rw [BTreeMap.getElem?_insert_eq] at hs
  split at hs
  · next heq =>
      cases hs
      subst heq
      exact ⟨by simpa using hrest, fun t' ht' => (h _ _ hqueue).2 t' (List.mem_cons_of_mem t ht')⟩
  · exact h s queue hs

/-- One transaction less is waiting. -/
theorem sum_length_dequeued {sender : Address} {t : P.SignedTransaction}
    {rest : List P.SignedTransaction} (hqueue : queues[sender]? = some (t :: rest)) :
    ((dequeued queues sender rest).valuesList.map List.length).sum + 1 =
      (queues.valuesList.map List.length).sum := by
  unfold dequeued
  cases rest with
  | nil =>
      rw [BTreeMap.sum_valuesList_erase hqueue List.length, List.isEmpty_nil, if_pos rfl]
      exact Nat.add_comm _ _
  | cons u rest =>
      have hupdate := BTreeMap.sum_valuesList_update hqueue (u :: rest) List.length
      simp only [List.isEmpty_cons, Bool.false_eq_true, if_false, List.length_cons] at hupdate ⊢
      omega

/-- **One turn of the loop**: the preferred head is drawn, if there is one. -/
theorem selectLoop_succ (hfiled : Filed queues) (limit : Nat) :
    (queues = ∅ ∧ selectLoop (limit + 1) queues = []) ∨
      ∃ t rest, queues[P.transaction.sender t]? = some (t :: rest) ∧
        (∀ sender u, (queueAt queues sender).head? = some u → Preferred t u) ∧
        selectLoop (limit + 1) queues =
          t :: selectLoop limit (dequeued queues (P.transaction.sender t) rest) := by
  rw [selectLoop]
  cases hmax : maxBy Candidate.cmp (candidates queues) with
  | none =>
      refine .inl ⟨BTreeMap.eq_empty_of_getElem?_eq_none fun sender => ?_, rfl⟩
      cases hqueue : queues[sender]? with
      | none => rfl
      | some queue =>
          obtain ⟨t, rest, rfl⟩ := List.exists_cons_of_ne_nil (hfiled sender queue hqueue).1
          have hmem := mem_candidates.mpr ⟨sender, t, rest, hqueue, rfl⟩
          rw [maxBy_eq_none.mp hmax] at hmem
          cases hmem
  | some candidate =>
      obtain ⟨hmem, hbest⟩ := maxBy_spec Candidate.le_refl Candidate.le_trans
        Candidate.le_of_cmp_eq_gt Candidate.le_of_cmp_ne_gt hmax
      obtain ⟨sender, t, rest, hqueue, rfl⟩ := mem_candidates.mp hmem
      obtain rfl := (hfiled sender _ hqueue).2 t List.mem_cons_self
      refine .inr ⟨t, rest, hqueue, ?_, by simp only [hqueue]; rfl⟩
      intro sender u hu
      unfold queueAt at hu
      cases hother : queues[sender]? with
      | none => simp [hother] at hu
      | some queue =>
          cases queue with
          | nil => simp [hother] at hu
          | cons u' rest' =>
              obtain rfl : u' = u := by simpa [hother] using hu
              exact hbest _ (mem_candidates.mpr ⟨sender, u', rest', hother, rfl⟩)

/-- **The loop draws from the queues.** -/
theorem selectLoop_draw (hfiled : Filed queues) (limit : Nat) :
    Draw P.transaction.sender Preferred (queueAt queues) (selectLoop limit queues) := by
  induction limit generalizing queues with
  | zero => exact .stop
  | succ limit ih =>
      rcases selectLoop_succ hfiled limit with ⟨-, h⟩ | ⟨t, rest, hqueue, hbest, h⟩
      · rw [h]
        exact .stop
      · rw [h]
        have hhead : queueAt queues (P.transaction.sender t) = t :: rest := by
          rw [queueAt, hqueue, Option.getD_some]
        refine .take hhead hbest ?_
        rw [← queueAt_dequeued]
        exact ih (hfiled.dequeued hqueue)

/-- It stops at the limit, or with all queues empty. -/
theorem length_selectLoop (hfiled : Filed queues) (limit : Nat) :
    (selectLoop limit queues).length = min limit (queues.valuesList.map List.length).sum := by
  induction limit generalizing queues with
  | zero => simp [selectLoop]
  | succ limit ih =>
      rcases selectLoop_succ hfiled limit with ⟨rfl, h⟩ | ⟨t, rest, hqueue, -, h⟩
      · rw [h, BTreeMap.valuesList_empty]
        simp
      · have hsum := sum_length_dequeued hqueue
        rw [h, List.length_cons, ih (hfiled.dequeued hqueue)]
        omega

end Loop

/-! ## The queues of a pool -/

/-- The pending transactions of a sender, by nonce and hash. -/
def senderQueue (pool : Mempool P) (sender : Address) : List P.SignedTransaction :=
  (pool.transactionList.filter fun t => P.transaction.sender t = sender).insertionSort queueLe

theorem senderQueue_perm (pool : Mempool P) (sender : Address) :
    (pool.senderQueue sender).Perm
      (pool.transactionList.filter fun t => P.transaction.sender t = sender) :=
  List.perm_insertionSort _ _

theorem mem_senderQueue {pool : Mempool P} {sender : Address} {t : P.SignedTransaction} :
    t ∈ pool.senderQueue sender ↔ t ∈ pool.transactionList ∧ P.transaction.sender t = sender := by
  rw [(senderQueue_perm pool sender).mem_iff, List.mem_filter, decide_eq_true_eq]

/-- The queue of a sender is in the order of the nonces. -/
theorem senderQueue_sorted (pool : Mempool P) (sender : Address) :
    (pool.senderQueue sender).Pairwise queueLe := by
  have : Std.Total (queueLe (P := P)) := ⟨fun a b => by
    unfold queueLe
    simp only [UInt64.lt_iff_toNat_lt, ← UInt64.toNat_inj, BitVec.le_def]
    omega⟩
  have : IsTrans P.SignedTransaction queueLe := ⟨fun a b c hab hbc => by
    unfold queueLe at *
    simp only [UInt64.lt_iff_toNat_lt, ← UInt64.toNat_inj, BitVec.le_def] at *
    omega⟩
  exact List.pairwise_insertionSort _ _

/-- The group of a sender is the sender's queue. -/
theorem getElem?_bySender (pool : Mempool P) (sender : Address) :
    pool.bySender[sender]? =
      if pool.transactionList.filter (fun t => P.transaction.sender t = sender) = [] then none
      else some (pool.senderQueue sender) := by
  have hgroup := BTreeMap.getElem?_group P.transaction.sender pool.transactionList sender
  unfold bySender
  rw [← BTreeMap.group, Std.ExtTreeMap.getElem?_map, hgroup]
  split
  · rfl
  · rfl

theorem queueAt_bySender (pool : Mempool P) : queueAt pool.bySender = pool.senderQueue := by
  funext sender
  rw [queueAt, getElem?_bySender]
  split
  · next hnil => simp [senderQueue, hnil]
  · rfl

/-- Every transaction is in the queue of its sender. -/
theorem filed_bySender (pool : Mempool P) : Filed pool.bySender := by
  intro sender queue hqueue
  rw [getElem?_bySender] at hqueue
  split at hqueue
  · cases hqueue
  next hne =>
  cases hqueue
  refine ⟨fun hnil => hne ?_, fun t ht => (mem_senderQueue.mp ht).2⟩
  rw [← List.length_eq_zero_iff, ← (senderQueue_perm pool sender).length_eq, hnil]
  rfl

/-- The groups hold all that is pooled. -/
theorem sum_length_bySender (pool : Mempool P) :
    (pool.bySender.valuesList.map List.length).sum = pool.transactions.size := by
  have hgroup := BTreeMap.sum_length_group P.transaction.sender pool.transactionList
  have hlength : pool.transactionList.length = pool.transactions.size := by
    rw [transactionList, List.length_map, BTreeMap.length_valuesList]
  unfold bySender
  rw [← hlength, ← hgroup, ← BTreeMap.group, BTreeMap.valuesList, BTreeMap.valuesList,
    Std.ExtTreeMap.toList_map]
  simp [Function.comp_def]

/-- Nothing is pending under two hashes. -/
theorem Keyed.nodup_transactionList {pool : Mempool P} (hkeyed : pool.Keyed) :
    pool.transactionList.Nodup := by
  rw [transactionList, BTreeMap.valuesList, List.map_map,
    List.nodup_map_iff_inj_on (BTreeMap.nodup_toList _)]
  rintro ⟨hash, entry⟩ hmem ⟨hash', entry'⟩ hmem' heq
  rw [Std.ExtTreeMap.mem_toList_iff_getElem?_eq_some] at hmem hmem'
  simp only [Function.comp_apply] at heq
  obtain rfl : hash = hash' := by rw [← hkeyed hmem, ← hkeyed hmem', heq]
  rw [hmem, Option.some.injEq] at hmem'
  rw [hmem']

/-! ## The selection -/

theorem selectForBlock_draw (pool : Mempool P) (limit : Nat) :
    Draw P.transaction.sender Preferred pool.senderQueue (pool.selectForBlock limit) := by
  rw [← queueAt_bySender]
  exact selectLoop_draw (filed_bySender pool) limit

/-- **The greedy specification of `select_for_block`**: as many transactions
as the limit and the pool allow, all from the pool and none twice; of each
sender the first ones of its queue, in the order of the queue; and in each
place the preferred one of the first transactions that are left of all
senders. -/
theorem selectForBlock_greedy (config : MempoolConfig) (calls : List (Call P)) {pool : Mempool P}
    (hpool : (withConfig config).callAll calls = pool) (limit : Nat) :
    (pool.selectForBlock limit).length = min limit pool.transactions.size ∧
      (∀ t ∈ pool.selectForBlock limit, t ∈ pool.transactionList) ∧
      (pool.selectForBlock limit).Nodup ∧
      (∀ sender, (pool.selectForBlock limit).filter (fun t => P.transaction.sender t = sender) <+:
        pool.senderQueue sender) ∧
      ∀ i t, (pool.selectForBlock limit)[i]? = some t →
        (Draw.remaining P.transaction.sender pool.senderQueue ((pool.selectForBlock limit).take i)
          (P.transaction.sender t)).head? = some t ∧
        ∀ sender u, (Draw.remaining P.transaction.sender pool.senderQueue
          ((pool.selectForBlock limit).take i) sender).head? = some u → Preferred t u := by
  have hdraw := selectForBlock_draw pool limit
  have hkeyed := keyed_callAll config calls
  rw [hpool] at hkeyed
  refine ⟨?_, ?_, ?_, hdraw.filter_prefix, fun i t ht => hdraw.best_at ht⟩
  · rw [selectForBlock, length_selectLoop (filed_bySender pool), sum_length_bySender]
  · intro t ht
    exact (mem_senderQueue.mp (hdraw.mem_queue ht)).1
  · refine hdraw.nodup fun sender => ?_
    exact (senderQueue_perm pool sender).nodup_iff.mpr (hkeyed.nodup_transactionList.filter _)

end Mempool

namespace Reference

/-- Two payments of one account and one of another. -/
def crossCalls : List (Mempool.Call paqus) :=
  [.insertAt (payment 2 0) 0, .insertAt (payment 9 1) 0, .insertAt (returnPayment 3 0) 0]

def crossPool : Mempool paqus := (Mempool.withConfig MempoolConfig.default).callAll crossCalls

end Reference

/-- The payment back goes first, and the high fee waits for the first nonce. -/
theorem Mempool.selectForBlock_greedy_of_two :
    Reference.crossPool.selectForBlock 2 =
        [Reference.returnPayment 3 0, Reference.payment 2 0] ∧
      (Reference.crossPool.selectForBlock 2).length = min 2 Reference.crossPool.transactions.size ∧
      (Reference.crossPool.selectForBlock 2).Nodup :=
  have hgreedy := selectForBlock_greedy (P := Reference.paqus) MempoolConfig.default
    Reference.crossCalls rfl 2
  ⟨by decide +kernel, hgreedy.1, hgreedy.2.2.1⟩

end PaqusNode
