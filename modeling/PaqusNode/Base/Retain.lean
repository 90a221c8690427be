import Mathlib.Data.List.Nodup
import Mathlib.Data.List.Sublists

/-!
# PaqusNode.Base.Retain

`vec.retain(|x| seen.insert(*x))`: the first occurrence of every item, in the
order of the list.
-/

namespace PaqusNode

namespace Retain

variable {α : Type} [DecidableEq α]

/-- The items that are not in `seen`, each at its first occurrence. -/
def unseen : List α → List α → List α
  | _, [] => []
  | seen, x :: rest => if x ∈ seen then unseen seen rest else x :: unseen (x :: seen) rest

/-- The first occurrences. -/
def firsts (xs : List α) : List α := unseen [] xs

/-- What is new is what has not been seen. -/
theorem mem_unseen {seen xs : List α} {x : α} : x ∈ unseen seen xs ↔ x ∈ xs ∧ x ∉ seen := by
  induction xs generalizing seen with
  | nil => simp [unseen]
  | cons y rest ih =>
      unfold unseen
      split
      · next hseen =>
          rw [ih, List.mem_cons]
          constructor
          · exact fun ⟨hmem, hnew⟩ => ⟨.inr hmem, hnew⟩
          · rintro ⟨rfl | hmem, hnew⟩
            · exact absurd hseen hnew
            · exact ⟨hmem, hnew⟩
      · next hnew =>
          rw [List.mem_cons, ih, List.mem_cons, List.mem_cons]
          grind

@[simp] theorem mem_firsts {xs : List α} {x : α} : x ∈ firsts xs ↔ x ∈ xs := by
  simp [firsts, mem_unseen]

/-- Nothing is kept twice. -/
theorem nodup_unseen (seen xs : List α) : (unseen seen xs).Nodup := by
  induction xs generalizing seen with
  | nil => simp [unseen]
  | cons y rest ih =>
      unfold unseen
      split
      · exact ih seen
      · exact List.nodup_cons.mpr ⟨fun h => (mem_unseen.mp h).2 List.mem_cons_self, ih _⟩

/-- Nothing is left twice. -/
theorem nodup_firsts (xs : List α) : (firsts xs).Nodup := nodup_unseen [] xs

end Retain

end PaqusNode
