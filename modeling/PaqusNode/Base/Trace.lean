import Mathlib.Data.List.Basic

/-!
# PaqusNode.Base.Trace

Runs with a record of their steps, each listed with the state it was taken
in.  Some steps decide a property of the state whatever it was before; the
others can only lose it.  Whether it holds at the end then depends on the
steps since the last one that decides, and on the start if there is none.
-/

namespace PaqusNode

variable {σ α : Type*} {step : σ → α → σ} {same : σ → σ → Prop}

/-- `Trace step same s steps s'`: from `s` to `s'` by the listed steps, with
`same` changes before and after each of them. -/
inductive Trace (step : σ → α → σ) (same : σ → σ → Prop) : σ → List (σ × α) → σ → Prop
  | done {s s' : σ} (h : same s s') : Trace step same s [] s'
  | next {s s₁ s' : σ} {a : α} {steps : List (σ × α)} (h : same s s₁)
      (hrest : Trace step same (step s₁ a) steps s') : Trace step same s ((s₁, a) :: steps) s'

namespace Trace

variable {s s₁ s' : σ} {steps steps' : List (σ × α)}

theorem cons_same [IsTrans σ same] (h : same s s₁) (hrest : Trace step same s₁ steps s') :
    Trace step same s steps s' := by
  cases hrest with
  | done h' => exact .done (IsTrans.trans _ _ _ h h')
  | next h' hrest => exact .next (IsTrans.trans _ _ _ h h') hrest

theorem append [IsTrans σ same] (h : Trace step same s steps s₁)
    (h' : Trace step same s₁ steps' s') : Trace step same s (steps ++ steps') s' := by
  induction h with
  | done hsame => exact h'.cons_same hsame
  | next hsame _ ih => exact .next hsame (ih h')

/-- Every step that no `reset` follows passes its check. -/
def Settled (reset check : σ → α → Prop) : List (σ × α) → Prop
  | [] => True
  | t :: rest =>
      ((∀ t' ∈ rest, ¬reset t'.1 t'.2) → check t.1 t.2) ∧ Settled reset check rest

instance decidableSettled (reset check : σ → α → Prop) [∀ s a, Decidable (reset s a)]
    [∀ s a, Decidable (check s a)] : DecidablePred (Settled reset check)
  | [] => .isTrue trivial
  | t :: rest =>
      have := decidableSettled reset check rest
      inferInstanceAs (Decidable (((∀ t' ∈ rest, ¬reset t'.1 t'.2) → check t.1 t.2) ∧
        Settled reset check rest))

/-- **The steps since the last reset decide.**  Let `I` hold after a `reset`
exactly if the step passes its check, and after any other step exactly if it
held before and the step passes its check; `J` is what the states of the run
are known to satisfy, and `K` what the steps are. -/
theorem holds_iff {I J : σ → Prop} {K reset check : σ → α → Prop}
    (hsame : ∀ {s s'}, same s s' → J s → J s' ∧ (I s' ↔ I s))
    (hstep : ∀ {s} a, J s → J (step s a))
    (hreset : ∀ {s a}, J s → K s a → reset s a → (I (step s a) ↔ check s a))
    (hkeep : ∀ {s a}, J s → K s a → ¬reset s a → (I (step s a) ↔ I s ∧ check s a))
    (h : Trace step same s steps s') (hs : J s) (hsteps : ∀ t ∈ steps, K t.1 t.2) :
    I s' ↔ Settled reset check steps ∧ ((∀ t ∈ steps, ¬reset t.1 t.2) → I s) := by
  induction h with
  | done hdone => simp [Settled, (hsame hdone hs).2]
  | @next s s₁ s' a steps hfirst hrest ih =>
      rw [List.forall_mem_cons] at hsteps
      obtain ⟨hs₁, hiff⟩ := hsame hfirst hs
      have hone : I (step s₁ a) ↔ check s₁ a ∧ (¬reset s₁ a → I s) := by
        by_cases hlast : reset s₁ a
        · simp [hreset hs₁ hsteps.1 hlast, hlast]
        · simp [hkeep hs₁ hsteps.1 hlast, hlast, hiff, and_comm]
      rw [ih (hstep a hs₁) hsteps.2, hone]
      simp only [Settled, List.forall_mem_cons]
      constructor
      · rintro ⟨hsettled, hlast⟩
        exact ⟨⟨fun hnone => (hlast hnone).1, hsettled⟩, fun hstart => (hlast hstart.2).2 hstart.1⟩
      · rintro ⟨⟨hcheck, hsettled⟩, hstart⟩
        exact ⟨hsettled, fun hnone => ⟨hcheck hnone, fun hfirst => hstart ⟨hfirst, hnone⟩⟩⟩

end Trace

end PaqusNode
