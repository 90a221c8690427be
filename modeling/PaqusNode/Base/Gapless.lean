import Mathlib.Data.List.Basic

/-!
# PaqusNode.Base.Gapless

Ascending lists of naturals without a gap: `start, start + 1, …`.  A strictly
ascending list is gapless from `start` exactly if it holds nothing below
`start` and, with each member, everything between `start` and it.
-/

namespace PaqusNode

/-- The list counts up from `start` by ones. -/
def Gapless (start : Nat) (l : List Nat) : Prop := l = List.range' start l.length

instance (start : Nat) (l : List Nat) : Decidable (Gapless start l) :=
  inferInstanceAs (Decidable (_ = _))

variable {start : Nat} {l : List Nat}

theorem gapless_nil : Gapless start [] := rfl

theorem gapless_cons {n : Nat} : Gapless start (n :: l) ↔ n = start ∧ Gapless (start + 1) l := by
  simp [Gapless, List.range'_succ]

theorem Gapless.mem_iff (h : Gapless start l) {n : Nat} :
    n ∈ l ↔ start ≤ n ∧ n < start + l.length := by
  rw [h, List.mem_range'_1, List.length_range']

theorem Gapless.nodup (h : Gapless start l) : l.Nodup := by
  rw [h]
  exact List.nodup_range'

theorem Gapless.sorted (h : Gapless start l) : l.Pairwise (· < ·) := by
  rw [h]
  exact List.pairwise_lt_range'

/-- One more number continues the sequence where it ends. -/
theorem gapless_concat_iff {n : Nat} :
    Gapless start (l ++ [n]) ↔ Gapless start l ∧ n = start + l.length := by
  unfold Gapless
  rw [List.length_append, List.length_singleton, List.range'_1_concat]
  constructor
  · intro h
    obtain ⟨hl, hn⟩ := List.append_inj' h rfl
    exact ⟨hl, List.head_eq_of_cons_eq hn⟩
  · rintro ⟨hl, rfl⟩
    exact congrArg (· ++ _) hl

/-- Gaplessness of an ascending list, member by member. -/
theorem gapless_iff_of_sorted (hsorted : l.Pairwise (· < ·)) :
    Gapless start l ↔ ∀ n ∈ l, start ≤ n ∧ ∀ m, start ≤ m → m < n → m ∈ l := by
  constructor
  · intro h n hn
    have hrange := h.mem_iff.mp hn
    refine ⟨hrange.1, ?_⟩
    intro m hle hlt
    exact h.mem_iff.mpr ⟨hle, by omega⟩
  · intro h
    induction l generalizing start with
    | nil => exact gapless_nil
    | cons x rest ih =>
        obtain ⟨hx, hrest⟩ := List.pairwise_cons.mp hsorted
        obtain ⟨hge, hdown⟩ := h x List.mem_cons_self
        -- `start` itself would have to come before `x`
        obtain rfl : x = start := by
          rcases Nat.eq_or_lt_of_le hge with heq | hlt
          · exact heq.symm
          · rcases List.mem_cons.mp (hdown start (Nat.le_refl _) hlt) with heq | hmem
            · exact heq.symm
            · exact absurd (hx start hmem) (by omega)
        refine gapless_cons.mpr ⟨rfl, ih hrest ?_⟩
        intro n hn
        have hlt := hx n hn
        refine ⟨hlt, ?_⟩
        intro m hle hmn
        have hmem := (h n (List.mem_cons_of_mem _ hn)).2 m (by omega) hmn
        rcases List.mem_cons.mp hmem with heq | hmem
        · omega
        · exact hmem

/-- An ascending list that holds exactly an interval. -/
theorem Gapless.of_mem_iff (hsorted : l.Pairwise (· < ·)) {stop : Nat} (hle : start ≤ stop)
    (h : ∀ n, n ∈ l ↔ start ≤ n ∧ n < stop) :
    Gapless start l ∧ start + l.length = stop := by
  have hgapless : Gapless start l := by
    refine (gapless_iff_of_sorted hsorted).mpr ?_
    intro n hn
    have hrange := (h n).mp hn
    refine ⟨hrange.1, ?_⟩
    intro m hm hmn
    exact (h m).mpr ⟨hm, by omega⟩
  refine ⟨hgapless, ?_⟩
  have hlast := (h (start + l.length))
  rw [hgapless.mem_iff] at hlast
  rcases Nat.lt_trichotomy (start + l.length) stop with hlt | heq | hgt
  · exact absurd (hlast.mpr ⟨by omega, hlt⟩).2 (Nat.lt_irrefl _)
  · exact heq
  · exact absurd ((h stop).mp (hgapless.mem_iff.mpr ⟨hle, hgt⟩)).2 (Nat.lt_irrefl _)

/-! ## The first free number -/

/-- A walk from `start` has passed numbers that are `taken` or `stale` and
ended at `stop`, which is free unless it is the largest number there is.  The
taken numbers other than `stop` are exactly those passed if and only if the
taken ones have no gap and no stale one comes right after them. -/
theorem passed_iff {taken stale : Nat → Prop} {start stop max : Nat}
    (hdisjoint : ∀ n, taken n → ¬stale n) (hmax : ∀ n, taken n → n ≤ max) (hstop : stop ≤ max)
    (hle : start ≤ stop) (hpassed : ∀ n, start ≤ n → n < stop → taken n ∨ stale n)
    (hfree : taken stop ∨ stale stop → stop = max) :
    (∀ n, taken n ∧ n ≠ stop ↔ start ≤ n ∧ n < stop) ↔
      (∀ n, taken n → start ≤ n ∧ ∀ m, start ≤ m → m < n → taken m) ∧
        ∀ n, stale n → start ≤ n → n < max → ∃ m, start ≤ m ∧ m < n ∧ ¬taken m := by
  constructor
  · intro h
    have htaken : ∀ n, start ≤ n → n < stop → taken n := fun n hn hlt => ((h n).mpr ⟨hn, hlt⟩).1
    refine ⟨?_, ?_⟩
    · intro n hn
      have hrange : start ≤ n ∧ n ≤ stop := by
        by_cases heq : n = stop
        · omega
        · have := (h n).mp ⟨hn, heq⟩
          omega
      exact ⟨hrange.1, fun m hm hmn => htaken m hm (by omega)⟩
    · intro n hn hle' hlt
      rcases Nat.lt_trichotomy n stop with hbelow | heq | habove
      · exact absurd hn (hdisjoint n (htaken n hle' hbelow))
      · subst heq
        exact absurd (hfree (.inr hn)) (by omega)
      · refine ⟨stop, hle, habove, ?_⟩
        intro htop
        have := hfree (.inl htop)
        omega
  · rintro ⟨hdown, hnext⟩ n
    constructor
    · rintro ⟨hn, hne⟩
      obtain ⟨hge, hbelow⟩ := hdown n hn
      refine ⟨hge, ?_⟩
      have hn' := hmax n hn
      rcases Nat.lt_trichotomy n stop with hlt | heq | hgt
      · exact hlt
      · exact absurd heq hne
      · have := hfree (.inl (hbelow stop hle hgt))
        omega
    · rintro ⟨hge, hlt⟩
      refine ⟨?_, by omega⟩
      -- a stale number would need a gap below it
      induction n using Nat.strongRecOn with
      | _ n ih =>
          rcases hpassed n hge hlt with hn | hn
          · exact hn
          · obtain ⟨m, hm, hmn, hgap⟩ := hnext n hn hge (by omega)
            exact absurd (ih m hmn hm (by omega)) hgap

end PaqusNode
