import Mathlib.Algebra.BigOperators.Group.Finset.Basic
import Mathlib.Algebra.GroupWithZero.Nat
import Mathlib.Data.List.Nodup
import Mathlib.Logic.Function.Basic

/-!
# PaqusNode.Base.Draw

Drawing from queues.  Values wait in one queue for each key; a draw takes
the head of a queue that is preferred to the heads of all queues.  However
the draws interleave the keys and wherever they stop, what has been drawn of
one key is the front of its queue; so whatever can be done with each queue
in its order can be done with the drawn list.
-/

namespace PaqusNode

variable {K V : Type} [DecidableEq K]

/-- `Draw key prefers queues drawn`: `drawn` can be drawn from the queues, in
this order. -/
inductive Draw (key : V → K) (prefers : V → V → Prop) : (K → List V) → List V → Prop
  | stop {queues : K → List V} : Draw key prefers queues []
  | take {queues : K → List V} {v : V} {rest drawn : List V} (hhead : queues (key v) = v :: rest)
      (hbest : ∀ k w, (queues k).head? = some w → prefers v w)
      (hnext : Draw key prefers (Function.update queues (key v) rest) drawn) :
      Draw key prefers queues (v :: drawn)

namespace Draw

variable {key : V → K} {prefers : V → V → Prop} {queues : K → List V} {drawn : List V}

/-- **What is drawn of one key is the front of its queue.** -/
theorem filter_prefix (h : Draw key prefers queues drawn) (k : K) :
    drawn.filter (fun v => key v = k) <+: queues k := by
  induction h with
  | stop => exact List.nil_prefix
  | @take queues v rest drawn hhead _ _ ih =>
      by_cases hk : key v = k
      · subst hk
        rw [Function.update_self] at ih
        rw [List.filter_cons_of_pos (by simp), hhead]
        exact (List.cons_prefix_cons).mpr ⟨rfl, ih⟩
      · rw [Function.update_of_ne (Ne.symm hk)] at ih
        rwa [List.filter_cons_of_neg (by simpa using hk)]

theorem mem_queue (h : Draw key prefers queues drawn) {v : V} (hv : v ∈ drawn) :
    v ∈ queues (key v) :=
  (h.filter_prefix (key v)).subset (List.mem_filter.mpr ⟨hv, by simp⟩)

/-- Nothing is drawn twice. -/
theorem nodup (h : Draw key prefers queues drawn) (hnodup : ∀ k, (queues k).Nodup) :
    drawn.Nodup := by
  induction h with
  | stop => exact List.nodup_nil
  | @take queues v rest drawn hhead _ hnext ih =>
      have hv := hnodup (key v)
      rw [hhead, List.nodup_cons] at hv
      refine List.nodup_cons.mpr ⟨fun hmem => ?_, ih fun k => ?_⟩
      · have hrest := hnext.mem_queue hmem
        rw [Function.update_self] at hrest
        exact hv.1 hrest
      · by_cases hk : k = key v
        · subst hk
          rw [Function.update_self]
          exact hv.2
        · rw [Function.update_of_ne hk]
          exact hnodup k

/-- The queue of `k` without what `before` has drawn of it. -/
def remaining (key : V → K) (queues : K → List V) (before : List V) (k : K) : List V :=
  (queues k).drop (before.filter fun v => key v = k).length

theorem remaining_nil : remaining key queues [] = queues := by
  funext k
  simp [remaining]

/-- Drawing one value first leaves what drawing the others leaves of the shorter queue. -/
theorem remaining_cons {v : V} {rest : List V} (hhead : queues (key v) = v :: rest)
    (before : List V) (k : K) :
    remaining key queues (v :: before) k =
      remaining key (Function.update queues (key v) rest) before k := by
  unfold remaining
  by_cases hk : key v = k
  · subst hk
    rw [List.filter_cons_of_pos (by simp), Function.update_self, hhead, List.length_cons,
      List.drop_succ_cons]
  · rw [List.filter_cons_of_neg (by simpa using hk), Function.update_of_ne (Ne.symm hk)]

/-- **Each draw takes the preferred one of the heads that are left.** -/
theorem best_at (h : Draw key prefers queues drawn) {i : Nat} {v : V}
    (hv : drawn[i]? = some v) :
    (remaining key queues (drawn.take i) (key v)).head? = some v ∧
      ∀ k w, (remaining key queues (drawn.take i) k).head? = some w → prefers v w := by
  induction h generalizing i with
  | stop => simp at hv
  | @take queues v' rest drawn hhead hbest _ ih =>
      cases i with
      | zero =>
          cases hv
          refine ⟨by simp [remaining, hhead], fun k w hw => hbest k w ?_⟩
          simpa [remaining] using hw
      | succ i =>
          simp only [List.take_succ_cons, remaining_cons hhead]
          exact ih hv

/-! ## Using up the queues -/

/-- **What runs along each queue runs along the draw**: if the head of any
queue can be executed, and executing it leaves the queues without it in
order, the whole draw can be executed. -/
theorem runs {σ ε : Type} {step : σ → V → Except ε σ} {Good : σ → (K → List V) → Prop}
    (hstep : ∀ {s queues v rest}, Good s queues → queues (key v) = v :: rest →
      ∃ s', step s v = .ok s' ∧ Good s' (Function.update queues (key v) rest))
    (h : Draw key prefers queues drawn) {s : σ} (hs : Good s queues) :
    ∃ s', drawn.foldlM step s = .ok s' := by
  induction h generalizing s with
  | stop => exact ⟨s, rfl⟩
  | take hhead _ _ ih =>
      obtain ⟨s', hs', hgood⟩ := hstep hs hhead
      obtain ⟨final, hfinal⟩ := ih hgood
      refine ⟨final, ?_⟩
      rw [List.foldlM_cons, hs']
      exact hfinal

/-- The same, with what is known at the end: the queues hold what is left. -/
theorem runs_to {σ ε : Type} {step : σ → V → Except ε σ} {Good : σ → (K → List V) → Prop}
    (hstep : ∀ {s queues v rest}, Good s queues → queues (key v) = v :: rest →
      ∃ s', step s v = .ok s' ∧ Good s' (Function.update queues (key v) rest))
    (h : Draw key prefers queues drawn) {s : σ} (hs : Good s queues) :
    ∃ s', drawn.foldlM step s = .ok s' ∧ Good s' (remaining key queues drawn) := by
  induction h generalizing s with
  | stop =>
      rw [remaining_nil]
      exact ⟨s, rfl, hs⟩
  | @take queues v rest drawn hhead _ _ ih =>
      obtain ⟨s', hs', hgood⟩ := hstep hs hhead
      obtain ⟨final, hfinal, hleft⟩ := ih hgood
      refine ⟨final, ?_, ?_⟩
      · rw [List.foldlM_cons, hs']
        exact hfinal
      · rwa [funext (remaining_cons hhead drawn)]

/-- Fronts of the queues can be drawn, in whatever order they are
interleaved. -/
theorem of_fronts (h : ∀ k, drawn.filter (fun v => key v = k) <+: queues k) :
    Draw key (fun _ _ => True) queues drawn := by
  induction drawn generalizing queues with
  | nil => exact .stop
  | cons v drawn ih =>
      obtain ⟨rest, hrest⟩ := h (key v)
      simp only [decide_true, List.filter_cons_of_pos, List.cons_append] at hrest
      refine .take hrest.symm (fun _ _ _ => trivial) (ih fun k => ?_)
      by_cases hk : key v = k
      · subst hk
        rw [Function.update_self]
        exact ⟨rest, rfl⟩
      · rw [Function.update_of_ne (Ne.symm hk)]
        simpa [hk] using h k

/-- The draw takes no more than the queues hold. -/
theorem sum_le (h : Draw key prefers queues drawn) (f : V → Nat) (keys : Finset K)
    (hkeys : ∀ k, queues k ≠ [] → k ∈ keys) :
    (drawn.map f).sum ≤ ∑ k ∈ keys, ((queues k).map f).sum := by
  induction h with
  | stop => exact Nat.zero_le _
  | @take queues v rest drawn hhead _ _ ih =>
      have hmem : key v ∈ keys := hkeys _ (by rw [hhead]; simp)
      have hrest := ih fun k hk => by
        by_cases heq : k = key v
        · rwa [heq]
        · rw [Function.update_of_ne heq] at hk
          exact hkeys k hk
      rw [← Finset.add_sum_erase _ _ hmem, Function.update_self] at hrest
      rw [← Finset.add_sum_erase _ _ hmem, hhead, List.map_cons, List.sum_cons, List.map_cons,
        List.sum_cons]
      have hsame : ∑ k ∈ keys.erase (key v), ((Function.update queues (key v) rest k).map f).sum =
          ∑ k ∈ keys.erase (key v), ((queues k).map f).sum := by
        refine Finset.sum_congr rfl fun k hk => ?_
        rw [Function.update_of_ne (Finset.ne_of_mem_erase hk)]
      omega

end Draw

end PaqusNode
