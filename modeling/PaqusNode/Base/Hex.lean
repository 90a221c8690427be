import Mathlib.Data.List.Basic
import Mathlib.Tactic.IntervalCases

/-!
# PaqusNode.Base.Hex

Hexadecimal text as the `hex` crate writes and reads it: two digits a byte,
written in lower case and read in either.
-/

namespace PaqusNode

namespace Hex

/-- The digit of a number below 16. -/
def digit (n : Nat) : Char := if n < 10 then Char.ofNat (48 + n) else Char.ofNat (87 + n)

/-- The value of a digit, in either case. -/
def value (c : Char) : Option Nat :=
  if 48 ≤ c.toNat ∧ c.toNat ≤ 57 then some (c.toNat - 48)
  else if 97 ≤ c.toNat ∧ c.toNat ≤ 102 then some (c.toNat - 87)
  else if 65 ≤ c.toNat ∧ c.toNat ≤ 70 then some (c.toNat - 55)
  else none

/-- The two digits of a byte. -/
def encodeByte (byte : UInt8) : List Char := [digit (byte.toNat / 16), digit (byte.toNat % 16)]

/-- `hex::encode`. -/
def encode (bytes : List UInt8) : List Char := bytes.flatMap encodeByte

/-- `hex::decode`; its error is never looked at. -/
def decode : List Char → Option (List UInt8)
  | [] => some []
  | [_] => none
  | high :: low :: rest =>
      match value high, value low with
      | some h, some l => (decode rest).map (UInt8.ofNat (16 * h + l) :: ·)
      | _, _ => none

/-- The digit in lower case. -/
def lower (c : Char) : Char :=
  if 65 ≤ c.toNat ∧ c.toNat ≤ 70 then Char.ofNat (c.toNat + 32) else c

/-! ## Digits -/

theorem toNat_digit {n : Nat} (h : n < 16) :
    (digit n).toNat = if n < 10 then 48 + n else 87 + n := by
  interval_cases n <;> rfl

theorem value_digit {n : Nat} (h : n < 16) : value (digit n) = some n := by
  unfold value
  rw [toNat_digit h]
  split <;> grind

theorem lower_digit {n : Nat} (h : n < 16) : lower (digit n) = digit n := by
  unfold lower
  rw [toNat_digit h]
  split <;> grind

/-- A digit is known by its value, up to its case. -/
theorem value_eq_some {c : Char} {n : Nat} : value c = some n ↔ n < 16 ∧ lower c = digit n := by
  constructor
  · intro h
    have hchar := c.ofNat_toNat
    unfold value at h
    unfold lower digit
    split at h
    · cases h
      grind
    split at h
    · cases h
      grind
    split at h
    · cases h
      grind
    · cases h
  · rintro ⟨hn, hc⟩
    have hnat := congrArg Char.toNat hc
    rw [toNat_digit hn] at hnat
    unfold lower at hnat
    unfold value
    split at hnat
    · next hupper =>
        have hupper' : (Char.ofNat (c.toNat + 32)).toNat = c.toNat + 32 := by
          have hle := hupper.2
          have hge := hupper.1
          generalize c.toNat = m at *
          interval_cases m <;> rfl
        rw [hupper'] at hnat
        grind
    · grind

/-! ## Bytes -/

/-- Two digits for every byte. -/
theorem length_encode (bytes : List UInt8) : (encode bytes).length = 2 * bytes.length := by
  induction bytes with
  | nil => rfl
  | cons byte bytes ih =>
      simp only [encode, List.flatMap_cons, List.length_append, List.length_cons] at ih ⊢
      rw [ih]
      simp only [encodeByte, List.length_cons, List.length_nil]
      omega

/-- A byte is its two digits. -/
theorem encodeByte_eq {byte : UInt8} {h l : Nat} (hh : h < 16) (hl : l < 16) :
    byte = UInt8.ofNat (16 * h + l) ↔ encodeByte byte = [digit h, digit l] := by
  have hbyte := byte.toNat_lt
  constructor
  · rintro rfl
    have hnat : (UInt8.ofNat (16 * h + l)).toNat = 16 * h + l := by
      simp only [UInt8.toNat_ofNat']
      omega
    simp only [encodeByte, hnat]
    congr 2 <;> grind
  · intro heq
    simp only [encodeByte, List.cons.injEq, and_true] at heq
    have hhigh := congrArg value heq.1
    have hlow := congrArg value heq.2
    rw [value_digit (by omega), value_digit hh, Option.some.injEq] at hhigh
    rw [value_digit (by omega), value_digit hl, Option.some.injEq] at hlow
    rw [← UInt8.toNat_inj, UInt8.toNat_ofNat']
    omega

/-- **What is read.**  A text decodes to some bytes exactly if it is, up to the
case of its digits, the text these bytes are written as. -/
theorem decode_eq_some {text : List Char} {bytes : List UInt8} :
    decode text = some bytes ↔ text.map lower = encode bytes := by
  fun_induction decode text generalizing bytes with
  | case1 =>
      cases bytes with
      | nil => simp [encode]
      | cons byte bytes => simp [encode, encodeByte]
  | case2 c =>
      have hlength := length_encode bytes
      constructor
      · simp
      · intro heq
        rw [← heq] at hlength
        simp only [List.map_cons, List.map_nil, List.length_cons, List.length_nil] at hlength
        omega
  | case3 high low rest h l hl hh ih =>
      obtain ⟨hhlt, hhigh⟩ := value_eq_some.mp hh
      obtain ⟨hllt, hlow⟩ := value_eq_some.mp hl
      cases bytes with
      | nil => simp [encode]
      | cons byte bytes =>
          simp only [Option.map_eq_some_iff, List.cons.injEq, List.map_cons, encode,
            List.flatMap_cons, hhigh, hlow]
          constructor
          · rintro ⟨bytes, hrest, hbyte, rfl⟩
            rw [(encodeByte_eq hhlt hllt).mp hbyte.symm, ih.mp hrest]
            rfl
          · intro heq
            obtain ⟨hbyte, hrest⟩ : [digit h, digit l] = encodeByte byte ∧ _ :=
              List.append_inj heq rfl
            exact ⟨bytes, ih.mpr hrest, ((encodeByte_eq hhlt hllt).mpr hbyte.symm).symm, rfl⟩
  | case4 high low rest hnot =>
      constructor
      · simp
      · intro heq
        cases bytes with
        | nil => simp [encode] at heq
        | cons byte bytes =>
            have hbyte := byte.toNat_lt
            simp only [encode, List.flatMap_cons, encodeByte, List.map_cons, List.cons_append,
              List.nil_append, List.cons.injEq] at heq
            exact absurd (value_eq_some.mpr ⟨by omega, heq.2.1⟩)
              (hnot _ _ (value_eq_some.mpr ⟨by omega, heq.1⟩))

/-- The digits are in lower case already. -/
theorem map_lower_encode (bytes : List UInt8) : (encode bytes).map lower = encode bytes := by
  induction bytes with
  | nil => rfl
  | cons byte bytes ih =>
      have hbyte := byte.toNat_lt
      simp only [encode, List.flatMap_cons, List.map_append] at ih ⊢
      rw [ih]
      simp only [encodeByte, List.map_cons, List.map_nil]
      rw [lower_digit (by omega), lower_digit (by omega)]

@[simp] theorem decode_encode (bytes : List UInt8) : decode (encode bytes) = some bytes :=
  decode_eq_some.mpr (map_lower_encode bytes)

end Hex

end PaqusNode
