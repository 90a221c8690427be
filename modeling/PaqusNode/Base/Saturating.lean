import Mathlib.Algebra.GroupWithZero.Nat

/-!
# PaqusNode.Base.Saturating

Saturating arithmetic, as `saturating_add` and `saturating_sub` of `u64` and
`u32` define it.  Every fact is stated through `toNat`, so clock and nonce
arithmetic is linear arithmetic over `Nat` from here on, and so are the sums
that saturate at every step.
-/

namespace PaqusNode

/-- The largest `u64`. -/
def u64Max : UInt64 := UInt64.ofNat (2 ^ 64 - 1)

/-- The largest `usize` of a 64-bit target. -/
def usizeMax : Nat := 2 ^ 64 - 1

/-- `u64::saturating_add`. -/
def satAdd (a b : UInt64) : UInt64 :=
  if a.toNat + b.toNat < 2 ^ 64 then a + b else u64Max

/-- `u64::saturating_sub`. -/
def satSub (a b : UInt64) : UInt64 :=
  if b ≤ a then a - b else 0

@[simp] theorem toNat_u64Max : u64Max.toNat = 2 ^ 64 - 1 := rfl

/-- Saturating addition as arithmetic of `Nat`. -/
theorem toNat_satAdd (a b : UInt64) :
    (satAdd a b).toNat = min (a.toNat + b.toNat) (2 ^ 64 - 1) := by
  unfold satAdd
  split
  · next h =>
      rw [UInt64.toNat_add, Nat.mod_eq_of_lt h]
      omega
  · next h =>
      rw [toNat_u64Max]
      omega

/-- Saturating subtraction is the subtraction of `Nat`. -/
theorem toNat_satSub (a b : UInt64) : (satSub a b).toNat = a.toNat - b.toNat := by
  unfold satSub
  split
  · next h => exact UInt64.toNat_sub_of_le a b h
  · next h =>
      have hlt : a.toNat < b.toNat := by
        rw [UInt64.le_iff_toNat_le] at h
        omega
      rw [show (0 : UInt64).toNat = 0 from rfl]
      omega

theorem toNat_satSub_le {a b : UInt64} (now : UInt64) (h : a ≤ b) :
    (satSub now b).toNat ≤ (satSub now a).toNat := by
  rw [UInt64.le_iff_toNat_le] at h
  rw [toNat_satSub, toNat_satSub]
  omega

/-! ## Saturating `u32` arithmetic -/

/-- The largest `u32`. -/
def u32Max : UInt32 := UInt32.ofNat (2 ^ 32 - 1)

/-- `u32::saturating_add`. -/
def satAdd32 (a b : UInt32) : UInt32 :=
  if a.toNat + b.toNat < 2 ^ 32 then a + b else u32Max

/-- The same for `u32`. -/
theorem toNat_satAdd32 (a b : UInt32) :
    (satAdd32 a b).toNat = min (a.toNat + b.toNat) (2 ^ 32 - 1) := by
  unfold satAdd32
  split
  · next h =>
      rw [UInt32.toNat_add, Nat.mod_eq_of_lt h]
      omega
  · next h =>
      rw [show u32Max.toNat = 2 ^ 32 - 1 from rfl]
      omega

/-! ## Saturating sums -/

/-- Saturating at every step is saturating once, at the end. -/
theorem foldl_saturating {σ α : Type} {step : σ → α → σ} {f : σ → Nat} {w : α → Nat} {bound : Nat}
    (hstep : ∀ s a, f (step s a) = min (f s + w a) bound) (l : List α) {s : σ} (hs : f s ≤ bound) :
    f (l.foldl step s) = min (f s + (l.map w).sum) bound := by
  induction l generalizing s with
  | nil => simp [hs]
  | cons a l ih =>
      have hnext : f (step s a) ≤ bound := by
        rw [hstep]
        exact Nat.min_le_right _ _
      rw [List.foldl_cons, ih hnext, hstep, List.map_cons, List.sum_cons]
      omega

end PaqusNode
