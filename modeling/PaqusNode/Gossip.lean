import Mathlib.Data.Finset.Card
import PaqusNode.Base.Framing
import PaqusNode.Base.While
import PaqusNode.Base.Window
import PaqusNode.Paqus

/-!
# PaqusNode.Gossip

`GossipDedupe` of `gossip.rs`: which blocks and transactions have been seen
lately.  Each kind has a hash set, asked for membership, and a queue, which
says what to forget next; together they are a bounded window over the values
of that kind (`PaqusNode.Base.Window`).
-/

namespace PaqusNode

namespace Gossip

/-! ## Marking a value -/

section Marking

variable {T : Type} [DecidableEq T]

/-- The loop at the end of `mark_seen`: while too many values are seen, the
one in front of the queue is forgotten.  With nothing left in the queue the
loop goes on forever, which is `none`. -/
def evict (capacity : Nat) (seen : Finset T) : List T → Option (Finset T × List T)
  | [] => if capacity < seen.card then none else some (seen, [])
  | evicted :: order =>
      if capacity < seen.card then evict capacity (seen.erase evicted) order
      else some (seen, evicted :: order)

/-- `mark_seen`: the answer, and the set and the queue after it. -/
def markSeen (capacity : Nat) (seen : Finset T) (order : List T) (value : T) :
    Option (Bool × Finset T × List T) :=
  if value ∈ seen then some (false, seen, order)
  else if capacity = 0 then some (true, seen, order)
  else (evict capacity (insert value seen) (order ++ [value])).map (true, ·)

/-- `seen.len() > capacity`. -/
def evictGuard (capacity : Nat) (state : Finset T × List T) : Bool :=
  decide (capacity < state.1.card)

/-- One round of the loop. -/
def evictBody : Finset T × List T → Finset T × List T
  | (seen, []) => (seen, [])
  | (seen, evicted :: order) => (seen.erase evicted, order)

/-- `evict` is the loop: it has a result if and only if the loop ends. -/
theorem evict_eq_some_iff {capacity : Nat} {seen : Finset T} {order : List T}
    {after : Finset T × List T} :
    evict capacity seen order = some after ↔
      ∃ n, While (evictGuard capacity) evictBody n (seen, order) after := by
  induction order generalizing seen with
  | nil =>
      unfold evict
      split
      · next hlt =>
          refine ⟨nofun, ?_⟩
          rintro ⟨n, h⟩
          exact absurd h (While.not_of_stuck (by simpa [evictGuard] using hlt) rfl)
      · next hle =>
          have hdone : While (evictGuard capacity) evictBody 0 (seen, ([] : List T)) (seen, []) :=
            .done (by simpa [evictGuard] using hle)
          refine ⟨fun h => ⟨0, Option.some.inj h ▸ hdone⟩, ?_⟩
          rintro ⟨n, h⟩
          rw [(hdone.unique h).2]
  | cons evicted order ih =>
      unfold evict
      split
      · next hlt =>
          have hguard : evictGuard capacity (seen, evicted :: order) = true := by
            simpa [evictGuard] using hlt
          rw [ih]
          constructor
          · rintro ⟨n, h⟩
            exact ⟨n + 1, .round hguard h⟩
          · rintro ⟨n, h⟩
            cases h with
            | done hfalse =>
                rw [hguard] at hfalse
                cases hfalse
            | round _ hrest => exact ⟨_, hrest⟩
      · next hle =>
          have hdone : While (evictGuard capacity) evictBody 0 (seen, evicted :: order)
              (seen, evicted :: order) :=
            .done (by simpa [evictGuard] using hle)
          refine ⟨fun h => ⟨0, Option.some.inj h ▸ hdone⟩, ?_⟩
          rintro ⟨n, h⟩
          rw [(hdone.unique h).2]

/-- Set and queue in step: the loop ends, and leaves the youngest values. -/
theorem evict_toFinset (capacity : Nat) {order : List T} (hnodup : order.Nodup) :
    evict capacity order.toFinset order =
      some ((order.rtake capacity).toFinset, order.rtake capacity) := by
  induction order with
  | nil => simp [evict]
  | cons evicted order ih =>
      obtain ⟨hnew, hrest⟩ := List.nodup_cons.mp hnodup
      unfold evict
      rw [List.toFinset_card_of_nodup hnodup, List.length_cons]
      split
      · next hlt =>
          have herase : (evicted :: order).toFinset.erase evicted = order.toFinset := by
            rw [List.toFinset_cons, Finset.erase_insert (by rwa [List.mem_toFinset])]
          have hrtake : (evicted :: order).rtake capacity = order.rtake capacity := by
            rw [List.rtake, List.length_cons, Nat.sub_add_comm (by omega), List.drop_succ_cons,
              List.rtake]
          rw [herase, ih hrest, hrtake]
      · next hle =>
          have hrtake : (evicted :: order).rtake capacity = evicted :: order := by
            rw [List.rtake, Nat.sub_eq_zero_of_le (by rw [List.length_cons]; omega), List.drop_zero]
          rw [hrtake]

/-- **`mark_seen` is the window**, as long as set and queue are in step. -/
theorem markSeen_eq {capacity : Nat} {order : List T} (hnodup : order.Nodup)
    (hsize : order.length ≤ capacity) (value : T) :
    markSeen capacity order.toFinset order value =
      some ((Window.mark capacity order value).1, (Window.mark capacity order value).2.toFinset,
        (Window.mark capacity order value).2) := by
  unfold markSeen Window.mark
  simp only [List.mem_toFinset]
  split
  · rfl
  next hnew =>
  split
  · next hzero =>
      subst hzero
      obtain rfl := List.length_eq_zero_iff.mp (Nat.le_zero.mp hsize)
      rw [List.rtake_zero]
  · have hnodup' : (order ++ [value]).Nodup := by
      simpa [List.nodup_append, hnodup] using fun a ha (heq : a = value) => hnew (heq ▸ ha)
    have hinsert : insert value order.toFinset = (order ++ [value]).toFinset := by
      rw [List.toFinset_append, List.toFinset_cons, List.toFinset_nil, Finset.union_comm,
        insert_empty_eq, Finset.singleton_union]
    rw [hinsert, evict_toFinset capacity hnodup']
    rfl

end Marking

/-! ## The two kinds -/

/-- What is gossiped. -/
inductive Kind where
  | block
  | transaction
deriving DecidableEq, Repr

end Gossip

open Gossip

structure GossipDedupe where
  capacity : Nat
  blocks : Finset BlockHash
  blockOrder : List BlockHash
  transactions : Finset TransactionHash
  transactionOrder : List TransactionHash
deriving DecidableEq

namespace GossipDedupe

/-- `GossipDedupe::new`. -/
def new (capacity : Nat) : GossipDedupe := ⟨capacity, ∅, [], ∅, []⟩

/-- `mark_block_seen`. -/
def markBlockSeen (d : GossipDedupe) (hash : BlockHash) : Option (Bool × GossipDedupe) :=
  (markSeen d.capacity d.blocks d.blockOrder hash).map fun (answer, blocks, blockOrder) =>
    (answer, { d with blocks := blocks, blockOrder := blockOrder })

/-- `mark_transaction_seen`. -/
def markTransactionSeen (d : GossipDedupe) (hash : TransactionHash) :
    Option (Bool × GossipDedupe) :=
  (markSeen d.capacity d.transactions d.transactionOrder hash).map
    fun (answer, transactions, transactionOrder) =>
      (answer, { d with transactions := transactions, transactionOrder := transactionOrder })

/-- One call, of either kind. -/
def mark (d : GossipDedupe) : Kind × Hash → Option (Bool × GossipDedupe)
  | (.block, hash) => d.markBlockSeen hash
  | (.transaction, hash) => d.markTransactionSeen hash

/-- A sequence of calls: their answers, and the state after the last. -/
def run (d : GossipDedupe) : List (Kind × Hash) → Option (List Bool × GossipDedupe)
  | [] => some ([], d)
  | call :: calls =>
      match d.mark call with
      | none => none
      | some (answer, d) => (d.run calls).map fun (answers, d) => (answer :: answers, d)

/-- The set of a kind. -/
def seen (d : GossipDedupe) : Kind → Finset Hash
  | .block => d.blocks
  | .transaction => d.transactions

/-- The queue of a kind. -/
def order (d : GossipDedupe) : Kind → List Hash
  | .block => d.blockOrder
  | .transaction => d.transactionOrder

/-- The set and the queue of a kind hold the same values, each once, and at
most `capacity` of them. -/
structure InStep (d : GossipDedupe) (kind : Kind) : Prop where
  nodup : (d.order kind).Nodup
  same : d.seen kind = (d.order kind).toFinset
  bounded : (d.order kind).length ≤ d.capacity

theorem new_inStep (capacity : Nat) (kind : Kind) : (new capacity).InStep kind := by
  cases kind <;> exact ⟨List.nodup_nil, rfl, Nat.zero_le _⟩

/-- **One call** is answered by the window of its kind and leaves the other
kind alone. -/
theorem mark_eq {d : GossipDedupe} (hstep : ∀ kind, d.InStep kind) (kind : Kind) (hash : Hash) :
    ∃ d', d.mark (kind, hash) = some ((Window.mark d.capacity (d.order kind) hash).1, d') ∧
      d'.capacity = d.capacity ∧ (∀ kind, d'.InStep kind) ∧
      d'.order kind = (Window.mark d.capacity (d.order kind) hash).2 ∧
      ∀ other, other ≠ kind → d'.order other = d.order other := by
  have hkind := hstep kind
  have hmark := markSeen_eq hkind.nodup hkind.bounded hash
  rw [← hkind.same] at hmark
  have hnodup : (Window.mark d.capacity (d.order kind) hash).2.Nodup :=
    Window.nodup_mark hkind.nodup hash
  have hbounded := Window.length_mark_le hkind.bounded hash
  cases kind with
  | block =>
      refine ⟨_, congrArg (Option.map _) hmark, rfl, ?_, rfl, ?_⟩
      · rintro (_ | _)
        · exact ⟨hnodup, rfl, hbounded⟩
        · exact ⟨(hstep .transaction).nodup, (hstep .transaction).same,
            (hstep .transaction).bounded⟩
      · rintro (_ | _) hne
        · exact absurd rfl hne
        · rfl
  | transaction =>
      refine ⟨_, congrArg (Option.map _) hmark, rfl, ?_, rfl, ?_⟩
      · rintro (_ | _)
        · exact ⟨(hstep .block).nodup, (hstep .block).same, (hstep .block).bounded⟩
        · exact ⟨hnodup, rfl, hbounded⟩
      · rintro (_ | _) hne
        · rfl
        · exact absurd rfl hne

/-- The answers to the calls of one kind. -/
def answersTo (kind : Kind) (calls : List (Kind × Hash)) (answers : List Bool) : List Bool :=
  projection kind ((calls.map Prod.fst).zip answers)

/-- The values of one kind for which a call returned `true`. -/
def accepted (kind : Kind) (calls : List (Kind × Hash)) (answers : List Bool) : List Hash :=
  (calls.zip answers).filterMap fun asked =>
    if asked.1.1 = kind ∧ asked.2 then some asked.1.2 else none

/-- What is accepted of one kind depends on the calls of that kind only. -/
theorem accepted_eq (kind : Kind) {calls : List (Kind × Hash)} {answers : List Bool}
    (hlength : answers.length = calls.length) :
    accepted kind calls answers =
      Window.accepted (projection kind calls) (answersTo kind calls answers) := by
  induction calls generalizing answers with
  | nil => rfl
  | cons call calls ih =>
      obtain _ | ⟨answer, answers⟩ := answers
      · cases hlength
      have hrest := ih (Nat.succ.inj hlength)
      by_cases hkind : call.1 = kind
      · cases answer <;>
          simpa [accepted, Window.accepted, answersTo, projection, hkind] using hrest
      · simpa [accepted, Window.accepted, answersTo, projection, hkind] using hrest

/-- **A whole run**: every call returns, and each kind runs its own window. -/
theorem run_eq {d : GossipDedupe} (hstep : ∀ kind, d.InStep kind) (calls : List (Kind × Hash)) :
    ∃ answers d', d.run calls = some (answers, d') ∧ answers.length = calls.length ∧
      d'.capacity = d.capacity ∧ (∀ kind, d'.InStep kind) ∧
      ∀ kind, (answersTo kind calls answers, d'.order kind) =
        Window.run d.capacity (d.order kind) (projection kind calls) := by
  induction calls generalizing d with
  | nil => exact ⟨[], d, rfl, rfl, rfl, hstep, fun kind => rfl⟩
  | cons call calls ih =>
      obtain ⟨kind, hash⟩ := call
      obtain ⟨d₁, hmark, hcapacity₁, hstep₁, horder, hother⟩ := mark_eq hstep kind hash
      obtain ⟨answers, d', hrun, hlength, hcapacity, hstep', hwindows⟩ := ih hstep₁
      refine ⟨(Window.mark d.capacity (d.order kind) hash).1 :: answers, d',
        by simp only [run, hmark, hrun, Option.map_some], by simp [hlength],
        hcapacity.trans hcapacity₁, hstep', ?_⟩
      intro kind'
      have hwindow := hwindows kind'
      rw [hcapacity₁] at hwindow
      by_cases hkind : kind = kind'
      · subst hkind
        rw [horder] at hwindow
        rw [projection_cons_self, Window.run_cons, ← hwindow]
        simp only [answersTo, List.map_cons, List.zip_cons_cons, projection_cons_self]
      · rw [hother kind' (Ne.symm hkind)] at hwindow
        rw [projection_cons_of_ne hkind, ← hwindow]
        simp only [answersTo, List.map_cons, List.zip_cons_cons, projection_cons_of_ne hkind]

/-- A sequence of calls can be cut anywhere. -/
theorem run_append (d : GossipDedupe) (calls calls' : List (Kind × Hash)) :
    d.run (calls ++ calls') = (d.run calls).bind fun (answers, d) =>
      (d.run calls').map fun (answers', d) => (answers ++ answers', d) := by
  induction calls generalizing d with
  | nil => simp [run]
  | cons call calls ih =>
      simp only [List.cons_append, run]
      cases d.mark call with
      | none => rfl
      | some result =>
          simp only [ih]
          cases result.2.run calls with
          | none => rfl
          | some rest => simp [Function.comp_def]

/-- What a kind remembers after a run from the start. -/
theorem order_run {capacity : Nat} {calls : List (Kind × Hash)} {answers : List Bool}
    {d : GossipDedupe} (hrun : (new capacity).run calls = some (answers, d)) (kind : Kind) :
    d.order kind = (accepted kind calls answers).rtake capacity := by
  obtain ⟨answers', d', hrun', hlength, -, -, hwindows⟩ := run_eq (new_inStep capacity) calls
  rw [hrun] at hrun'
  cases hrun'
  have horder : (new capacity).order kind = ([] : List Hash).rtake capacity := by
    rw [List.rtake_nil]
    cases kind <;> rfl
  have hwindow := hwindows kind
  rw [horder] at hwindow
  have hlast := Window.run_window capacity [] (projection kind calls)
  rw [accepted_eq kind hlength, ← List.nil_append (Window.accepted _ _)]
  rw [show (new capacity).capacity = capacity from rfl] at hwindow
  rw [← hwindow] at hlast
  exact hlast

/-- The answer to the call at a given position. -/
theorem answer_iff {capacity : Nat} {calls : List (Kind × Hash)} {answers : List Bool}
    {d : GossipDedupe} (hrun : (new capacity).run calls = some (answers, d)) {i : Nat}
    {kind : Kind} {hash : Hash} (hcall : calls[i]? = some (kind, hash)) :
    answers[i]? = some false ↔
      hash ∈ (accepted kind (calls.take i) (answers.take i)).rtake capacity := by
  obtain ⟨hi, hget⟩ := List.getElem?_eq_some_iff.mp hcall
  have hsplit : calls = calls.take i ++ (kind, hash) :: calls.drop (i + 1) := by
    rw [← hget, List.getElem_cons_drop, List.take_append_drop]
  obtain ⟨before, d₁, hbefore, hlength, hcapacity, hstep, -⟩ :=
    run_eq (new_inStep capacity) (calls.take i)
  obtain ⟨d₂, hmark, -⟩ := mark_eq hstep kind hash
  rw [hcapacity, order_run hbefore] at hmark
  rw [hsplit, run_append, hbefore, Option.bind_some] at hrun
  simp only [run, hmark] at hrun
  obtain ⟨⟨rest, d₃⟩, hrest, heq⟩ := Option.map_eq_some_iff.mp hrun
  obtain ⟨⟨after, d₄⟩, -, hcons⟩ := Option.map_eq_some_iff.mp hrest
  cases hcons
  cases heq
  have hbeforeLength : before.length = i := by
    rw [hlength, List.length_take]
    omega
  rw [List.take_left' hbeforeLength, List.getElem?_append_right (by omega), hbeforeLength,
    Nat.sub_self, List.getElem?_cons_zero, Option.some.injEq, Window.mark_fst_eq_false]

/-- The calls of one kind, made alone, are answered as they are among the
others, and leave the same set and queue. -/
theorem run_filter {d d' : GossipDedupe} {calls : List (Kind × Hash)} {answers : List Bool}
    (hstep : ∀ kind, d.InStep kind) (hrun : d.run calls = some (answers, d')) (kind : Kind) :
    ∃ alone, d.run (calls.filter fun call => call.1 = kind) =
        some (answersTo kind calls answers, alone) ∧
      alone.seen kind = d'.seen kind ∧ alone.order kind = d'.order kind := by
  obtain ⟨answers₁, d₁, hrun₁, -, -, hstep₁, hwindows₁⟩ := run_eq hstep calls
  rw [hrun] at hrun₁
  cases hrun₁
  obtain ⟨answers₂, alone, hrun₂, hlength₂, -, hstep₂, hwindows₂⟩ :=
    run_eq hstep (calls.filter fun call => call.1 = kind)
  have hprojection : projection kind (calls.filter fun call => call.1 = kind) =
      projection kind calls := by
    simp only [projection, List.filterMap_filter]
    congr 1
    funext call
    by_cases hkind : call.1 = kind <;> simp [hkind]
  have hall : answersTo kind (calls.filter fun call => call.1 = kind) answers₂ = answers₂ := by
    rw [answersTo, projection_eq_map]
    · rw [List.map_snd_zip (by simp [hlength₂])]
    · intro asked hasked
      obtain ⟨call, hcall, hfst⟩ := List.mem_map.mp (List.of_mem_zip hasked).1
      rw [← hfst]
      exact of_decide_eq_true (List.mem_filter.mp hcall).2
  have hsame := (hwindows₂ kind).trans (hprojection ▸ (hwindows₁ kind).symm)
  rw [hall] at hsame
  obtain ⟨rfl, horder⟩ := Prod.mk.inj hsame
  refine ⟨alone, hrun₂, ?_, horder⟩
  rw [(hstep₂ kind).same, (hstep₁ kind).same, horder]

/-- **The dedupe is a bounded window for each kind.**  Every call returns, and
returns `false` exactly for the last `capacity` values of its kind that were
new; set and queue stay in step; the kinds do not see each other; and with
capacity 0 everything is new and nothing is kept. -/
theorem calls_bounded_window (capacity : Nat) (calls : List (Kind × Hash)) :
    ∃ answers d, (new capacity).run calls = some (answers, d) ∧ answers.length = calls.length ∧
      (0 < capacity → ∀ i kind hash, calls[i]? = some (kind, hash) →
        (answers[i]? = some false ↔
          hash ∈ (accepted kind (calls.take i) (answers.take i)).rtake capacity)) ∧
      (∀ kind, d.InStep kind) ∧
      (∀ kind, ∃ alone, (new capacity).run (calls.filter fun call => call.1 = kind) =
          some (answersTo kind calls answers, alone) ∧
        alone.seen kind = d.seen kind ∧ alone.order kind = d.order kind) ∧
      (capacity = 0 → (∀ answer ∈ answers, answer = true) ∧ d = new 0) := by
  obtain ⟨answers, d, hrun, hlength, hcapacity, hstep, -⟩ := run_eq (new_inStep capacity) calls
  refine ⟨answers, d, hrun, hlength, fun _ i kind hash hcall => answer_iff hrun hcall, hstep,
    run_filter (new_inStep capacity) hrun, ?_⟩
  rintro rfl
  constructor
  · intro answer hanswer
    obtain ⟨i, hi⟩ := List.getElem?_of_mem hanswer
    obtain ⟨⟨kind, hash⟩, hcall⟩ : ∃ call, calls[i]? = some call := by
      have hlt := (List.getElem?_eq_some_iff.mp hi).1
      exact ⟨_, List.getElem?_eq_getElem (hlength ▸ hlt)⟩
    have hnew := answer_iff hrun hcall
    rw [hi, List.rtake_zero] at hnew
    simpa using hnew
  · have hnothing : ∀ kind, d.order kind = [] ∧ d.seen kind = ∅ := by
      intro kind
      have horder : d.order kind = [] := by rw [order_run hrun, List.rtake_zero]
      exact ⟨horder, by rw [(hstep kind).same, horder, List.toFinset_nil]⟩
    obtain ⟨capacity, blocks, blockOrder, transactions, transactionOrder⟩ := d
    obtain ⟨rfl, rfl⟩ := hnothing .block
    obtain ⟨rfl, rfl⟩ := hnothing .transaction
    rw [show capacity = 0 from hcapacity]
    rfl

/-- The test of the source: of three blocks with room for two, the first is
new again. -/
example : ((new 2).run [(.block, 1), (.block, 1), (.block, 2), (.block, 3), (.block, 1),
      (.transaction, 4), (.transaction, 4)]).map Prod.fst =
    some [true, false, true, true, true, true, false] := by
  decide +kernel

end GossipDedupe

end PaqusNode
