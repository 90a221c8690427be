/-!
# PaqusNode.Base.Guarded

Runs of a step function whose every step meets a condition in the state it is
made in.  What such steps keep, the whole run keeps.
-/

namespace PaqusNode

variable {σ ε : Type} {step : σ → ε → Option σ} {ok : σ → ε → Prop}

/-- Every event of the run is `ok` in the state it happens in. -/
def Guarded (step : σ → ε → Option σ) (ok : σ → ε → Prop) : σ → List ε → Prop
  | _, [] => True
  | s, event :: events =>
      ok s event ∧ ∀ s', step s event = some s' → Guarded step ok s' events

instance instDecidableGuarded [∀ s event, Decidable (ok s event)] :
    (s : σ) → (events : List ε) → Decidable (Guarded step ok s events)
  | _, [] => isTrue trivial
  | s, event :: events =>
      haveI : Decidable (∀ s', step s event = some s' → Guarded step ok s' events) :=
        match step s event with
        | none => isTrue nofun
        | some next =>
            haveI := instDecidableGuarded next events
            decidable_of_iff (Guarded step ok next events) (by simp)
      inferInstanceAs (Decidable (_ ∧ _))

/-- **Invariant rule**: what every step that is `ok` keeps holds after every
guarded run. -/
theorem Guarded.invariant {events : List ε} {s s' : σ} (I : σ → Prop)
    (hstep : ∀ s event s', ok s event → step s event = some s' → I s → I s')
    (hguarded : Guarded step ok s events) (hrun : events.foldlM step s = some s') (hs : I s) :
    I s' := by
  induction events generalizing s with
  | nil =>
      cases hrun
      exact hs
  | cons event events ih =>
      rw [List.foldlM_cons] at hrun
      cases hnext : step s event with
      | none =>
          rw [hnext] at hrun
          cases hrun
      | some next =>
          rw [hnext] at hrun
          exact ih (hguarded.2 next hnext) hrun (hstep s event next hguarded.1 hnext hs)

end PaqusNode
