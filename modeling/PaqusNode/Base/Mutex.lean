import Mathlib.Data.List.Nodup
import Mathlib.Logic.Function.Basic
import Mathlib.Logic.Relation
import PaqusNode.Base.Guarded

/-!
# PaqusNode.Base.Mutex

Processes that share mutexes.  A process is the list of the acquisitions and
releases it has still to make; a mutex has at most one owner, and the process
that wants an owned mutex waits.  A deadlock is a cycle of processes each
waiting for a mutex of the next.

Two rules exclude deadlocks.  Where every process takes mutexes in the order
of a rank, there is none.  Where two mutexes are taken in both orders, the
processes that nest them one way must not meet those that nest them the other
way; a run whose steps keep them apart never has both.
-/

namespace PaqusNode

namespace Mutex

inductive Action (L : Type) where
  | acquire (mutex : L)
  | release (mutex : L)
deriving DecidableEq, Repr

/-- A guard on `mutex` that lives as long as `body`. -/
def locked {L : Type} (mutex : L) (body : List (Action L)) : List (Action L) :=
  .acquire mutex :: (body ++ [.release mutex])

structure State (Pid L : Type) where
  /-- What each process has still to do. -/
  program : Pid → List (Action L)
  owner : L → Option Pid

variable {Pid L : Type}

namespace State

/-- All mutexes are free. -/
def init (program : Pid → List (Action L)) : State Pid L := ⟨program, fun _ => none⟩

/-- Process `p` waits for a mutex that `q` owns. -/
def WaitsFor (s : State Pid L) (p q : Pid) : Prop :=
  ∃ l rest, s.program p = .acquire l :: rest ∧ s.owner l = some q

/-- A cycle of processes each waiting for a mutex held by the next. -/
def Deadlocked (s : State Pid L) : Prop := ∃ p, Relation.TransGen s.WaitsFor p p

variable {s : State Pid L} {p : Pid}

theorem waitsFor_of_head {q : Pid} {l : L} (h : (s.program p).head? = some (.acquire l))
    (howner : s.owner l = some q) : s.WaitsFor p q := by
  obtain ⟨rest, hprogram⟩ := List.head?_eq_some_iff.mp h
  exact ⟨l, rest, hprogram, howner⟩

/-! ## Ranks -/

/-- Along a chain of waiting processes the ranks of the mutexes rise. -/
theorem rank_lt_of_waits {rank : L → Nat}
    (hrank : ∀ p l rest, s.program p = .acquire l :: rest → ∀ h, s.owner h = some p →
      rank h < rank l)
    {p q : Pid} (hchain : Relation.TransGen s.WaitsFor p q) {l l' : L}
    {rest rest' : List (Action L)} (hp : s.program p = .acquire l :: rest)
    (hq : s.program q = .acquire l' :: rest') : rank l < rank l' := by
  induction hchain generalizing l' rest' with
  | single hwait =>
      obtain ⟨m, later, hprogram, howner⟩ := hwait
      obtain ⟨rfl, rfl⟩ : l = m ∧ rest = later := by simpa [hp] using hprogram
      exact hrank _ l' rest' hq l howner
  | tail _ hwait ih =>
      obtain ⟨m, later, hprogram, howner⟩ := hwait
      exact Nat.lt_trans (ih hprogram) (hrank _ l' rest' hq m howner)

/-- **No deadlock** where everybody waits for a mutex above those it holds. -/
theorem not_deadlocked_of_rank (rank : L → Nat)
    (hrank : ∀ p l rest, s.program p = .acquire l :: rest → ∀ h, s.owner h = some p →
      rank h < rank l) : ¬ s.Deadlocked := by
  rintro ⟨p, hcycle⟩
  obtain ⟨q, ⟨l, rest, hprogram, -⟩, -⟩ := Relation.TransGen.head'_iff.mp hcycle
  exact absurd (rank_lt_of_waits hrank hcycle hprogram hprogram) (Nat.lt_irrefl _)

end State

/-! ## Programs that keep a discipline -/

variable [DecidableEq L]

/-- The mutexes held after some actions. -/
def after (held : List L) : List (Action L) → List L
  | [] => held
  | .acquire l :: rest => after (l :: held) rest
  | .release l :: rest => after (held.erase l) rest

/-- Every mutex is taken with a set of mutexes held that `allowed` admits. -/
def Follows (allowed : List L → L → Prop) : List L → List (Action L) → Prop
  | _, [] => True
  | held, .acquire l :: rest => allowed held l ∧ Follows allowed (l :: held) rest
  | held, .release l :: rest => Follows allowed (held.erase l) rest

/-- A piece of a program that keeps the discipline and gives back what it takes. -/
structure Balanced (allowed : List L → L → Prop) (held : List L) (body : List (Action L)) :
    Prop where
  follows : Follows allowed held body
  after_eq : after held body = held

variable {allowed : List L → L → Prop} {held : List L} {body other : List (Action L)}

theorem after_append (held : List L) (body other : List (Action L)) :
    after held (body ++ other) = after (after held body) other := by
  induction body generalizing held with
  | nil => rfl
  | cons action rest ih => cases action <;> exact ih _

/-- A program in two parts: the second starts with the locks that the first leaves. -/
theorem follows_append :
    Follows allowed held (body ++ other) ↔
      Follows allowed held body ∧ Follows allowed (after held body) other := by
  induction body generalizing held with
  | nil => simp [Follows, after]
  | cons action rest ih =>
      cases action with
      | acquire l => simp only [List.cons_append, Follows, after, ih, and_assoc]
      | release l => simp only [List.cons_append, Follows, after, ih]

namespace Balanced

theorem nil : Balanced allowed held [] := ⟨trivial, rfl⟩

theorem append (h : Balanced allowed held body) (hother : Balanced allowed held other) :
    Balanced allowed held (body ++ other) where
  follows := follows_append.mpr ⟨h.follows, h.after_eq.symm ▸ hother.follows⟩
  after_eq := by rw [after_append, h.after_eq, hother.after_eq]

theorem locked {l : L} (hl : allowed held l) (h : Balanced allowed (l :: held) body) :
    Balanced allowed held (locked l body) where
  follows := ⟨hl, follows_append.mpr ⟨h.follows, trivial⟩⟩
  after_eq := by
    change after (l :: held) (body ++ [.release l]) = held
    rw [after_append, h.after_eq, after, List.erase_cons_head, after]

theorem flatMap {α : Type} {f : α → List (Action L)} (h : ∀ a, Balanced allowed held (f a))
    (as : List α) : Balanced allowed held (as.flatMap f) := by
  induction as with
  | nil => exact nil
  | cons a as ih => exact (h a).append ih

/-- A guard that is dropped at once. -/
theorem guard {l : L} (hl : allowed held l) : Balanced allowed held (Mutex.locked l []) :=
  locked hl nil

theorem getD {α : Type} {f : α → List (Action L)} (h : ∀ a, Balanced allowed held (f a))
    (o : Option α) : Balanced allowed held ((o.map f).getD []) := by
  cases o with
  | none => exact nil
  | some a => exact h a

theorem ite {c : Prop} [Decidable c] (h : Balanced allowed held body)
    (hother : Balanced allowed held other) :
    Balanced allowed held (if c then body else other) := by
  split
  · exact h
  · exact hother

end Balanced

namespace State

variable {s : State Pid L}

/-- What a process holds, and that the rest of its program keeps the discipline. -/
structure Holds (allowed : List L → L → Prop) (s : State Pid L) (p : Pid) (held : List L) :
    Prop where
  nodup : held.Nodup
  owner_iff : ∀ l, s.owner l = some p ↔ l ∈ held
  follows : Follows allowed held (s.program p)

/-- Every process keeps the discipline. -/
def Disciplined (allowed : List L → L → Prop) (s : State Pid L) : Prop :=
  ∀ p, ∃ held, s.Holds allowed p held

theorem disciplined_init {program : Pid → List (Action L)}
    (h : ∀ p, Follows allowed [] (program p)) : (init program).Disciplined allowed :=
  fun p => ⟨[], List.nodup_nil, fun _ => ⟨nofun, nofun⟩, h p⟩

/-- A process that wants a mutex is allowed to, with what it holds. -/
theorem Disciplined.wants (h : s.Disciplined allowed) {p : Pid} {l : L}
    {rest : List (Action L)} (hprogram : s.program p = .acquire l :: rest) :
    ∃ held, (∀ m, s.owner m = some p ↔ m ∈ held) ∧ allowed held l := by
  obtain ⟨held, -, howns, hfollows⟩ := h p
  rw [hprogram] at hfollows
  exact ⟨held, howns, hfollows.1⟩

/-! ## Two mutexes in both orders -/

/-- The program takes `b` before it releases `a`. -/
def takesBefore (a b : L) : List (Action L) → Bool
  | [] => false
  | .acquire l :: rest => decide (l = b) || takesBefore a b rest
  | .release l :: rest => decide (l ≠ a) && takesBefore a b rest

/-- Process `p` owns `a` and has still to take `b` before it releases it. -/
def Nests (s : State Pid L) (a b : L) (p : Pid) : Prop :=
  s.owner a = some p ∧ takesBefore a b (s.program p) = true

/-- Process `p` is about to take `a`, with `b` to follow before its release. -/
def Enters (s : State Pid L) (a b : L) (p : Pid) : Prop :=
  ∃ rest, s.program p = .acquire a :: rest ∧ takesBefore a b rest = true

/-- A step of `p` that does not start to nest `a` and `b` in one order while
somebody nests them in the other. -/
def Apart (a b : L) (s : State Pid L) (p : Pid) : Prop :=
  (s.Enters a b p → ∀ q, ¬ s.Nests b a q) ∧ (s.Enters b a p → ∀ q, ¬ s.Nests a b q)

/-- No two processes nest `a` and `b` in opposite orders. -/
def Uncrossed (a b : L) (s : State Pid L) : Prop :=
  (∀ p, ¬ s.Nests a b p) ∨ ∀ p, ¬ s.Nests b a p

/-- Only the owner of `a` can nest anything in it. -/
theorem forall_not_nests_iff {a b : L} :
    (∀ q, ¬ s.Nests a b q) ↔
      (s.owner a).all (fun q => !takesBefore a b (s.program q)) = true := by
  cases howner : s.owner a with
  | none => simp [Nests, howner]
  | some p => simp [Nests, howner]

/-- A process enters by its next command. -/
theorem enters_iff {a b : L} {p : Pid} :
    s.Enters a b p ↔
      (s.program p).head? = some (.acquire a) ∧ takesBefore a b (s.program p).tail = true := by
  cases hprogram : s.program p with
  | nil => simp [Enters, hprogram]
  | cons action rest =>
      constructor
      · rintro ⟨later, heq, htakes⟩
        obtain ⟨rfl, rfl⟩ := List.cons.inj (hprogram.symm.trans heq)
        exact ⟨rfl, htakes⟩
      · rintro ⟨hhead, htakes⟩
        cases Option.some.inj hhead
        exact ⟨rest, hprogram, htakes⟩

instance (a b : L) (s : State Pid L) (p : Pid) : Decidable (s.Apart a b p) :=
  haveI := decidable_of_iff _ (enters_iff (s := s) (a := a) (b := b) (p := p)).symm
  haveI := decidable_of_iff _ (enters_iff (s := s) (a := b) (b := a) (p := p)).symm
  haveI := decidable_of_iff _ (forall_not_nests_iff (s := s) (a := a) (b := b)).symm
  haveI := decidable_of_iff _ (forall_not_nests_iff (s := s) (a := b) (b := a)).symm
  inferInstanceAs (Decidable (_ ∧ _))

theorem uncrossed_init (program : Pid → List (Action L)) (a b : L) :
    (init program).Uncrossed a b :=
  .inl fun _ h => nomatch h.1

/-- **No deadlock with two mutexes in both orders.**  If every acquisition is
in the order of `rank` but for `a` under `b`, and in the order of `rank'` but
for `b` with `a` held, then processes that do not cross do not deadlock. -/
theorem not_deadlocked_of_uncrossed {a b : L} (rank rank' : L → Nat)
    (hrank : ∀ held l, allowed held l → ∀ h ∈ held, rank h < rank l ∨ h = b ∧ l = a)
    (hrank' : ∀ held l, allowed held l → ∀ h ∈ held, rank' h < rank' l ∨ a ∈ held ∧ l = b)
    (hdisciplined : s.Disciplined allowed) (huncrossed : s.Uncrossed a b) : ¬ s.Deadlocked := by
  rcases huncrossed with hnone | hnone
  · refine not_deadlocked_of_rank rank' fun p l rest hprogram h howner => ?_
    obtain ⟨held, howns, hallowed⟩ := hdisciplined.wants hprogram
    rcases hrank' held l hallowed h ((howns h).mp howner) with hlt | ⟨ha, rfl⟩
    · exact hlt
    · exact absurd ⟨(howns a).mpr ha, by simp [hprogram, takesBefore]⟩ (hnone p)
  · refine not_deadlocked_of_rank rank fun p l rest hprogram h howner => ?_
    obtain ⟨held, howns, hallowed⟩ := hdisciplined.wants hprogram
    rcases hrank held l hallowed h ((howns h).mp howner) with hlt | ⟨rfl, rfl⟩
    · exact hlt
    · exact absurd ⟨howner, by simp [hprogram, takesBefore]⟩ (hnone p)

/-! ## Runs -/

variable [DecidableEq Pid]

/-- The next action of process `p`, if it can make it. -/
def step (s : State Pid L) (p : Pid) : Option (State Pid L) :=
  match s.program p with
  | [] => none
  | .acquire l :: rest =>
      if s.owner l = none then
        some ⟨Function.update s.program p rest, Function.update s.owner l (some p)⟩
      else none
  | .release l :: rest =>
      if s.owner l = some p then
        some ⟨Function.update s.program p rest, Function.update s.owner l none⟩
      else none

/-- Several steps, by the processes named. -/
def run (s : State Pid L) (schedule : List Pid) : Option (State Pid L) :=
  schedule.foldlM step s

/-- Every step of the run is apart in the state it is made in. -/
def ApartRun (a b : L) (s : State Pid L) (schedule : List Pid) : Prop :=
  Guarded step (Apart a b) s schedule

instance (a b : L) (s : State Pid L) (schedule : List Pid) :
    Decidable (ApartRun a b s schedule) :=
  inferInstanceAs (Decidable (Guarded step (Apart a b) s schedule))

variable {s' : State Pid L} {p : Pid}

/-- The two ways to make a step. -/
theorem step_eq_some (h : s.step p = some s') :
    (∃ l rest, s.program p = .acquire l :: rest ∧ s.owner l = none ∧
      s' = ⟨Function.update s.program p rest, Function.update s.owner l (some p)⟩) ∨
    ∃ l rest, s.program p = .release l :: rest ∧ s.owner l = some p ∧
      s' = ⟨Function.update s.program p rest, Function.update s.owner l none⟩ := by
  unfold step at h
  split at h
  · cases h
  · next l rest hprogram =>
      split at h
      · next howner =>
          cases h
          exact .inl ⟨l, rest, hprogram, howner, rfl⟩
      · cases h
  · next l rest hprogram =>
      split at h
      · next howner =>
          cases h
          exact .inr ⟨l, rest, hprogram, howner, rfl⟩
      · cases h

/-- A step keeps every process to the locks it may hold. -/
theorem Disciplined.step (h : s.Disciplined allowed) {p : Pid} (hstep : s.step p = some s') :
    s'.Disciplined allowed := by
  intro q
  obtain ⟨held, hnodup, howns, hfollows⟩ := h q
  rcases step_eq_some hstep with
    ⟨l, rest, hprogram, hfree, rfl⟩ | ⟨l, rest, hprogram, howner, rfl⟩
  · by_cases hq : q = p
    · subst hq
      rw [hprogram] at hfollows
      have hl : l ∉ held := fun hmem => by simp [(howns l).mpr hmem] at hfree
      refine ⟨l :: held, List.nodup_cons.mpr ⟨hl, hnodup⟩, fun m => ?_, ?_⟩
      · by_cases hm : m = l
        · simp [hm]
        · simp [hm, howns m]
      · simpa using hfollows.2
    · refine ⟨held, hnodup, fun m => ?_, ?_⟩
      · by_cases hm : m = l
        · subst hm
          simp [Ne.symm hq, ← howns, hfree]
        · simp [hm, howns m]
      · simpa [hq] using hfollows
  · by_cases hq : q = p
    · subst hq
      rw [hprogram] at hfollows
      refine ⟨held.erase l, hnodup.erase l, fun m => ?_, ?_⟩
      · rw [hnodup.mem_erase_iff]
        by_cases hm : m = l
        · simp [hm]
        · simp [hm, howns m]
      · simpa [Follows] using hfollows
    · refine ⟨held, hnodup, fun m => ?_, ?_⟩
      · by_cases hm : m = l
        · subst hm
          simp [← howns, howner, Ne.symm hq]
        · simp [hm, howns m]
      · simpa [hq] using hfollows

/-- Nesting starts with taking the outer mutex. -/
theorem nests_of_step {a b : L} {p q : Pid} (hstep : s.step p = some s') (h : s'.Nests a b q) :
    s.Nests a b q ∨ q = p ∧ s.Enters a b p := by
  obtain ⟨howner, htakes⟩ := h
  rcases step_eq_some hstep with
    ⟨l, rest, hprogram, hfree, rfl⟩ | ⟨l, rest, hprogram, hown, rfl⟩
  · by_cases ha : a = l
    · subst ha
      obtain rfl : p = q := by simpa using howner
      simp only [Function.update_self] at htakes
      exact .inr ⟨rfl, rest, hprogram, htakes⟩
    · simp only [Function.update_of_ne ha] at howner
      refine .inl ⟨howner, ?_⟩
      by_cases hq : q = p
      · subst hq
        simp only [Function.update_self] at htakes
        simp [hprogram, takesBefore, htakes]
      · simpa [hq] using htakes
  · by_cases ha : a = l
    · subst ha
      simp at howner
    · simp only [Function.update_of_ne ha] at howner
      refine .inl ⟨howner, ?_⟩
      by_cases hq : q = p
      · subst hq
        simp only [Function.update_self] at htakes
        simp [hprogram, takesBefore, htakes, Ne.symm ha]
      · simpa [hq] using htakes

/-- A step of a process that keeps the two locks apart crosses nobody. -/
theorem Uncrossed.step {a b : L} (hne : a ≠ b) {p : Pid} (h : s.Uncrossed a b)
    (hapart : s.Apart a b p) (hstep : s.step p = some s') : s'.Uncrossed a b := by
  -- if both nestings are there after the step, they were before it, or it was not apart
  by_contra hcrossed
  simp only [Uncrossed, not_or, not_forall, not_not] at hcrossed
  obtain ⟨⟨q, hq⟩, ⟨r, hr⟩⟩ := hcrossed
  rcases nests_of_step hstep hq with hq | ⟨-, henters⟩
  · rcases nests_of_step hstep hr with hr | ⟨-, henters⟩
    · exact h.elim (fun hnone => hnone q hq) fun hnone => hnone r hr
    · exact hapart.2 henters q hq
  · rcases nests_of_step hstep hr with hr | ⟨_, _, hprogram, _⟩
    · exact hapart.1 henters r hr
    · obtain ⟨_, hprogram', _⟩ := henters
      rw [hprogram] at hprogram'
      exact hne (Action.acquire.inj (List.cons.inj hprogram').1).symm

/-- What a run of steps that are apart keeps. -/
theorem apartRun_keeps {a b : L} (hne : a ≠ b) {schedule : List Pid}
    (hdisciplined : s.Disciplined allowed) (huncrossed : s.Uncrossed a b)
    (hapart : ApartRun a b s schedule) (hrun : s.run schedule = some s') :
    s'.Disciplined allowed ∧ s'.Uncrossed a b := by
  refine hapart.invariant (fun s => s.Disciplined allowed ∧ s.Uncrossed a b) ?_ hrun
    ⟨hdisciplined, huncrossed⟩
  rintro s p s' hok hstep ⟨hdisciplined, huncrossed⟩
  exact ⟨hdisciplined.step hstep, huncrossed.step hne hok hstep⟩

end State

end Mutex

end PaqusNode
