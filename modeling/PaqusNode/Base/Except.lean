/-!
# PaqusNode.Base.Except

Taking an `Except` computation apart: a mapped one, one after
another, and a fold that stops at the first error.
-/

namespace PaqusNode

variable {ε α β σ : Type}

theorem Except.map_eq_ok {x : Except ε α} {f : α → β} {b : β} (h : x.map f = .ok b) :
    ∃ a, x = .ok a ∧ f a = b := by
  cases x with
  | error e => cases h
  | ok a =>
      cases h
      exact ⟨a, rfl, rfl⟩

theorem Except.map_eq_error {x : Except ε α} {f : α → β} {e : ε} (h : x.map f = .error e) :
    x = .error e := by
  cases x with
  | error e' =>
      cases h
      rfl
  | ok a => cases h

theorem Except.mapError_eq_ok {δ : Type} {x : Except ε α} {f : ε → δ} {a : α} :
    x.mapError f = .ok a ↔ x = .ok a := by
  cases x with
  | error e => exact ⟨nofun, nofun⟩
  | ok b => constructor <;> (intro h; cases h; rfl)

/-- A sequence succeeds exactly if both parts do. -/
theorem Except.bind_eq_ok {x : Except ε α} {f : α → Except ε β} {b : β} :
    (x >>= f) = .ok b ↔ ∃ a, x = .ok a ∧ f a = .ok b := by
  cases x with
  | error e => exact ⟨nofun, nofun⟩
  | ok a =>
      constructor
      · intro h
        exact ⟨a, rfl, h⟩
      · rintro ⟨a', ha', h⟩
        cases ha'
        exact h

theorem Except.eq_ok_of_toOption {x : Except ε α} {a : α} (h : x.toOption = some a) :
    x = .ok a := by
  cases x with
  | error e => cases h
  | ok b => exact congrArg Except.ok (Option.some.inj h)

/-- A result next to the state it leaves behind. -/
theorem eq_mk_ok_of_toOption {x : σ × Except ε α} {a : α} (h : x.2.toOption = some a) :
    x = (x.1, .ok a) := by
  rw [← Except.eq_ok_of_toOption h]

/-- A run succeeds exactly if its first step and the rest do. -/
theorem foldlM_cons_eq_ok {f : σ → α → Except ε σ} {a : α} {as : List α} {s s' : σ} :
    (a :: as).foldlM f s = .ok s' ↔ ∃ m, f s a = .ok m ∧ as.foldlM f m = .ok s' := by
  rw [List.foldlM_cons]
  cases h : f s a with
  | error e =>
      constructor
      · intro h'
        cases h'
      · rintro ⟨m, hm, -⟩
        cases hm
  | ok m =>
      constructor
      · intro h'
        exact ⟨m, rfl, h'⟩
      · rintro ⟨m', hm, h'⟩
        cases hm
        exact h'

/-- A run can be cut anywhere. -/
theorem foldlM_append_eq_ok {f : σ → α → Except ε σ} {as bs : List α} {s s' : σ} :
    (as ++ bs).foldlM f s = .ok s' ↔ ∃ m, as.foldlM f s = .ok m ∧ bs.foldlM f m = .ok s' := by
  induction as generalizing s with
  | nil =>
      constructor
      · intro h
        exact ⟨s, rfl, h⟩
      · rintro ⟨m, hm, h⟩
        cases hm
        exact h
  | cons a as ih =>
      rw [List.cons_append, foldlM_cons_eq_ok]
      constructor
      · rintro ⟨m, hm, h⟩
        obtain ⟨m', hm', h⟩ := ih.mp h
        exact ⟨m', foldlM_cons_eq_ok.mpr ⟨m, hm, hm'⟩, h⟩
      · rintro ⟨m', hm', h⟩
        obtain ⟨m, hm, hm'⟩ := foldlM_cons_eq_ok.mp hm'
        exact ⟨m, hm, ih.mpr ⟨m', hm', h⟩⟩

/-- The last step of a successful fold. -/
theorem foldlM_concat_eq_ok {f : σ → α → Except ε σ} {as : List α} {a : α} {s s' : σ} :
    (as ++ [a]).foldlM f s = .ok s' ↔ ∃ m, as.foldlM f s = .ok m ∧ f m a = .ok s' := by
  rw [foldlM_append_eq_ok]
  constructor
  · rintro ⟨m, hm, h⟩
    obtain ⟨m', hm', h⟩ := foldlM_cons_eq_ok.mp h
    cases h
    exact ⟨m, hm, hm'⟩
  · rintro ⟨m, hm, h⟩
    exact ⟨m, hm, foldlM_cons_eq_ok.mpr ⟨s', h, rfl⟩⟩

/-- **Invariant rule**: what every successful step keeps, a successful fold
keeps. -/
theorem foldlM_invariant {f : σ → α → Except ε σ} {as : List α} {s s' : σ} (I : σ → Prop)
    (hstep : ∀ s a s', a ∈ as → I s → f s a = .ok s' → I s') (hs : I s)
    (h : as.foldlM f s = .ok s') : I s' := by
  induction as generalizing s with
  | nil =>
      cases h
      exact hs
  | cons a as ih =>
      obtain ⟨m, hm, h⟩ := foldlM_cons_eq_ok.mp h
      exact ih (fun s b s' hb => hstep s b s' (List.mem_cons_of_mem a hb))
        (hstep s a m List.mem_cons_self hs hm) h

/-- Every element of a successful fold was a successful step. -/
theorem foldlM_mem {f : σ → α → Except ε σ} {as : List α} {a : α} {s s' : σ}
    (h : as.foldlM f s = .ok s') (ha : a ∈ as) : ∃ m m', f m a = .ok m' := by
  induction as generalizing s with
  | nil => cases ha
  | cons b as ih =>
      obtain ⟨m, hm, h⟩ := foldlM_cons_eq_ok.mp h
      rcases List.mem_cons.mp ha with rfl | ha
      · exact ⟨s, m, hm⟩
      · exact ih h ha

end PaqusNode
