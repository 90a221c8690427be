/-!
# PaqusNode.Base.Mutating

Code that changes a value in place and may stop half-way with an error, as a
method with `&mut self` that returns a `Result`: what the statements before
the error have changed stays changed.  The rules run a sequence of
statements from its first one on; `outcome` is what such code amounts to
when it makes no change before its last error exit.
-/

namespace PaqusNode

/-- A computation on a value of type `σ` that returns an `α` or stops with an
`ε`. -/
abbrev Mutating (ε σ : Type) : Type → Type := EStateM ε σ

namespace Mutating

variable {ε σ α β : Type}

/-- The `?` operator. -/
def question : Except ε α → Mutating ε σ α
  | .ok a => pure a
  | .error e => throw e

/-- `if condition { return Err(error) }`. -/
def failIf (condition : Prop) [Decidable condition] (error : ε) : Mutating ε σ Unit :=
  if condition then throw error else pure ()

/-- What a function that returns the changed value on success leaves of `s`. -/
def outcome (s : σ) : Except ε (α × σ) → EStateM.Result ε σ α
  | .ok (a, s') => .ok a s'
  | .error e => .error e s

/-- A value next to a result, as the end of a computation. -/
def ended : σ × Except ε α → EStateM.Result ε σ α
  | (s, .ok a) => .ok a s
  | (s, .error e) => .error e s

/-- An error exit shows the value as it was left. -/
theorem eq_of_ended_eq_error {final : σ × Except ε α} {e : ε} {s : σ}
    (h : ended final = .error e s) : final = (s, .error e) := by
  obtain ⟨s', e' | a⟩ := final
  · cases h
    rfl
  · cases h

/-! ## Running a sequence of statements -/

variable (s : σ)

theorem run_get_bind (next : σ → Mutating ε σ β) : (get >>= next).run s = (next s).run s := rfl

theorem run_question_bind (result : Except ε α) (next : α → Mutating ε σ β) :
    (question result >>= next).run s = match result with
      | .ok a => (next a).run s
      | .error e => .error e s := by
  cases result <;> rfl

theorem run_failIf_bind (condition : Prop) [Decidable condition] (error : ε)
    (next : Unit → Mutating ε σ β) :
    (failIf condition error >>= next).run s =
      if condition then .error error s else (next ()).run s := by
  unfold failIf
  split <;> rfl

/-- A statement that cannot fail. -/
theorem run_bind_of_ok {first : Mutating ε σ α} {a : α} {s' : σ} (h : first.run s = .ok a s')
    (next : α → Mutating ε σ β) : (first >>= next).run s = (next a).run s' := by
  rw [EStateM.run_bind, h]

end Mutating

end PaqusNode
