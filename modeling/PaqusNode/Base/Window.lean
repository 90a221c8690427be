import Mathlib.Data.List.DropRight
import Mathlib.Data.List.Nodup

/-!
# PaqusNode.Base.Window

A bounded window over a stream of values: a value is taken in unless it is
in the window already, and then pushes the oldest one out.  The window is
always the last `capacity` values that were taken in, so it remembers exactly
those.
-/

namespace PaqusNode

namespace Window

variable {α : Type}

theorem length_rtake (n : Nat) (xs : List α) : (xs.rtake n).length = min n xs.length := by
  rw [List.rtake, List.length_drop]
  omega

/-- The last `n` of `xs` and what follows, cut again to `n`. -/
theorem rtake_rtake_append (n : Nat) (xs ys : List α) :
    (xs.rtake n ++ ys).rtake n = (xs ++ ys).rtake n := by
  simp only [List.rtake, List.length_append, List.length_drop, List.drop_append, List.drop_drop]
  congr 2 <;> omega

variable [DecidableEq α] {capacity : Nat} {window : List α}

/-- Show the window a value: whether it is new, and the window after it. -/
def mark (capacity : Nat) (window : List α) (value : α) : Bool × List α :=
  if value ∈ window then (false, window) else (true, (window ++ [value]).rtake capacity)

/-- Show it a list of values, first to last. -/
def run (capacity : Nat) (window : List α) : List α → List Bool × List α
  | [] => ([], window)
  | value :: values =>
      let (answer, window) := mark capacity window value
      let (answers, window) := run capacity window values
      (answer :: answers, window)

theorem run_cons (capacity : Nat) (window : List α) (value : α) (values : List α) :
    run capacity window (value :: values) =
      ((mark capacity window value).1 :: (run capacity (mark capacity window value).2 values).1,
        (run capacity (mark capacity window value).2 values).2) := rfl

/-- The values that were answered with `true`. -/
def accepted (values : List α) (answers : List Bool) : List α :=
  (values.zip answers).filterMap fun asked => if asked.2 then some asked.1 else none

theorem mark_fst_eq_false {value : α} :
    (mark capacity window value).1 = false ↔ value ∈ window := by
  unfold mark
  split
  · next hold => simp [hold]
  · next hnew => simp [hnew]

/-- The window never holds more than its capacity. -/
theorem length_mark_le (h : window.length ≤ capacity) (value : α) :
    (mark capacity window value).2.length ≤ capacity := by
  unfold mark
  split
  · exact h
  · rw [length_rtake]
    exact Nat.min_le_left _ _

/-- No value is twice in the window. -/
theorem nodup_mark (h : window.Nodup) (value : α) : (mark capacity window value).2.Nodup := by
  unfold mark
  split
  · exact h
  · next hnew =>
      refine List.Nodup.sublist (List.drop_sublist _ _) ?_
      rw [List.nodup_append]
      refine ⟨h, List.nodup_singleton _, ?_⟩
      rintro a ha b hb rfl
      rw [List.mem_singleton] at hb
      exact hnew (hb ▸ ha)

/-- **The window is the last values that were taken in**, those of `taken`
before it included. -/
theorem run_window (capacity : Nat) (taken values : List α) :
    (run capacity (taken.rtake capacity) values).2 =
      (taken ++ accepted values (run capacity (taken.rtake capacity) values).1).rtake capacity := by
  induction values generalizing taken with
  | nil => simp [run, accepted]
  | cons value values ih =>
      by_cases hold : value ∈ taken.rtake capacity
      · simp only [run, mark, if_pos hold]
        simpa [accepted] using ih taken
      · simp only [run, mark, if_neg hold, rtake_rtake_append]
        simpa [accepted] using ih (taken ++ [value])

end Window

end PaqusNode
