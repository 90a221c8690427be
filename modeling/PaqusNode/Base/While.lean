/-!
# PaqusNode.Base.While

The meaning of a `while` loop whose guard and body are functions of the
state.  `While` relates the state before the loop to the state after it and
to the number of rounds in between; a loop that runs forever has no state
after it.
-/

namespace PaqusNode

variable {σ : Type} {guard : σ → Bool} {body : σ → σ} {s s' : σ} {n : Nat}

/-- The loop leads from one state to another in `n` rounds. -/
inductive While (guard : σ → Bool) (body : σ → σ) : Nat → σ → σ → Prop
  | done {s : σ} (hguard : guard s = false) : While guard body 0 s s
  | round {n : Nat} {s s' : σ} (hguard : guard s = true) (hrest : While guard body n (body s) s') :
      While guard body (n + 1) s s'

namespace While

/-- A loop ends in at most one way. -/
theorem unique {n' : Nat} {s'' : σ} (h : While guard body n s s')
    (h' : While guard body n' s s'') : n = n' ∧ s' = s'' := by
  induction h generalizing n' with
  | done hguard =>
      cases h' with
      | done _ => exact ⟨rfl, rfl⟩
      | round hguard' _ =>
          rw [hguard] at hguard'
          cases hguard'
  | round hguard _ ih =>
      cases h' with
      | done hguard' =>
          rw [hguard] at hguard'
          cases hguard'
      | round _ hrest' =>
          obtain ⟨rfl, rfl⟩ := ih hrest'
          exact ⟨rfl, rfl⟩

/-- A body that changes nothing while the guard holds never lets the loop
end. -/
theorem not_of_stuck (hguard : guard s = true) (hbody : body s = s) :
    ¬While guard body n s s' := by
  intro h
  induction n with
  | zero =>
      cases h with
      | done hguard' =>
          rw [hguard] at hguard'
          cases hguard'
  | succ n ih =>
      cases h with
      | round _ hrest =>
          rw [hbody] at hrest
          exact ih hrest

/-- **Variant rule**: a loop whose rounds all decrease a natural number ends,
after no more rounds than that number allows. -/
theorem of_variant (variant : σ → Nat)
    (hround : ∀ s, guard s = true → variant (body s) < variant s) (s : σ) :
    ∃ n s', n ≤ variant s ∧ While guard body n s s' := by
  induction hm : variant s using Nat.strongRecOn generalizing s with
  | _ m ih =>
      cases hguard : guard s with
      | false => exact ⟨0, s, Nat.zero_le _, .done hguard⟩
      | true =>
          have hlt := hround s hguard
          obtain ⟨n, s', hn, hrest⟩ := ih (variant (body s)) (hm ▸ hlt) (body s) rfl
          exact ⟨n + 1, s', by omega, .round hguard hrest⟩

end While

end PaqusNode
