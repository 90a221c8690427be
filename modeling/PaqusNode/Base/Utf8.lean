import Mathlib.Data.List.Basic
import PaqusNode.Base.Except

/-!
# PaqusNode.Base.Utf8

UTF-8 as Rust's `std::str::from_utf8` decodes it, with the error it reports:
how many bytes were in order, and the length of the sequence that is not, or
none if the input breaks off in the middle of one.  What is accepted is
exactly what Lean's own encoder writes.
-/

namespace PaqusNode

namespace Utf8

/-- `std::str::Utf8Error`. -/
structure Error where
  validUpTo : Nat
  errorLen : Option Nat
deriving DecidableEq, Repr

/-- `Display for Utf8Error`. -/
def Error.display (e : Error) : String :=
  match e.errorLen with
  | some errorLen => "invalid utf-8 sequence of " ++ toString errorLen ++ " bytes from index " ++
      toString e.validUpTo
  | none => "incomplete utf-8 byte sequence from index " ++ toString e.validUpTo

/-- A byte after the second of a sequence. -/
def Continues (b : Nat) : Prop := 0x80 ≤ b ∧ b ≤ 0xBF

instance (b : Nat) : Decidable (Continues b) := inferInstanceAs (Decidable (_ ∧ _))

/-- The second byte of a sequence: some first bytes leave less room, so that
no character has two encodings and none is a surrogate or too large. -/
def Second (first b : Nat) : Prop :=
  Continues b ∧ (first = 0xE0 → 0xA0 ≤ b) ∧ (first = 0xED → b ≤ 0x9F) ∧
    (first = 0xF0 → 0x90 ≤ b) ∧ (first = 0xF4 → b ≤ 0x8F)

instance (first b : Nat) : Decidable (Second first b) := inferInstanceAs (Decidable (_ ∧ _))

/-- The next byte, which must satisfy `p`; `len` bytes of the sequence were in
order before it. -/
def next (len : Nat) (p : Nat → Prop) [DecidablePred p] :
    List UInt8 → Except (Option Nat) (Nat × List UInt8)
  | [] => .error none
  | b :: rest => if p b.toNat then .ok (b.toNat, rest) else .error (some len)

/-- The character that starts with the byte `first`, and the bytes after it. -/
def decodeChar (first : UInt8) (rest : List UInt8) : Except (Option Nat) (Char × List UInt8) :=
  let a := first.toNat
  if a < 0x80 then .ok (Char.ofNat a, rest)
  else if 0xC2 ≤ a ∧ a ≤ 0xDF then do
    let (b, rest) ← next 1 (Second a) rest
    return (Char.ofNat ((a - 0xC0) * 64 + (b - 0x80)), rest)
  else if 0xE0 ≤ a ∧ a ≤ 0xEF then do
    let (b, rest) ← next 1 (Second a) rest
    let (c, rest) ← next 2 Continues rest
    return (Char.ofNat ((a - 0xE0) * 4096 + (b - 0x80) * 64 + (c - 0x80)), rest)
  else if 0xF0 ≤ a ∧ a ≤ 0xF4 then do
    let (b, rest) ← next 1 (Second a) rest
    let (c, rest) ← next 2 Continues rest
    let (d, rest) ← next 3 Continues rest
    return (Char.ofNat ((a - 0xF0) * 262144 + (b - 0x80) * 4096 + (c - 0x80) * 64 + (d - 0x80)),
      rest)
  else .error (some 1)

/-! ## One character -/

/-- The next byte is taken if it is there and passes. -/
theorem next_eq_ok {len : Nat} {p : Nat → Prop} [DecidablePred p] {bytes rest : List UInt8}
    {b : Nat} : next len p bytes = .ok (b, rest) ↔
      ∃ byte : UInt8, bytes = byte :: rest ∧ byte.toNat = b ∧ p b := by
  cases bytes with
  | nil => simp [next]
  | cons byte bytes =>
      simp only [next]
      split
      · next hp =>
          simp only [Except.ok.injEq, Prod.mk.injEq, List.cons.injEq]
          constructor
          · rintro ⟨rfl, rfl⟩
            exact ⟨byte, ⟨rfl, rfl⟩, rfl, hp⟩
          · rintro ⟨_, ⟨rfl, rfl⟩, rfl, _⟩
            exact ⟨rfl, rfl⟩
      · next hp =>
          refine ⟨nofun, ?_⟩
          rintro ⟨_, heq, rfl, hp'⟩
          cases heq
          exact absurd hp' hp

/-- The encodings of a character, by length. -/
inductive Sequence : List UInt8 → Char → Prop
  | one {a : UInt8} (ha : a.toNat < 0x80) : Sequence [a] (Char.ofNat a.toNat)
  | two {a b : UInt8} (ha : 0xC2 ≤ a.toNat ∧ a.toNat ≤ 0xDF) (hb : Second a.toNat b.toNat) :
      Sequence [a, b] (Char.ofNat ((a.toNat - 0xC0) * 64 + (b.toNat - 0x80)))
  | three {a b c : UInt8} (ha : 0xE0 ≤ a.toNat ∧ a.toNat ≤ 0xEF) (hb : Second a.toNat b.toNat)
      (hc : Continues c.toNat) :
      Sequence [a, b, c]
        (Char.ofNat ((a.toNat - 0xE0) * 4096 + (b.toNat - 0x80) * 64 + (c.toNat - 0x80)))
  | four {a b c d : UInt8} (ha : 0xF0 ≤ a.toNat ∧ a.toNat ≤ 0xF4) (hb : Second a.toNat b.toNat)
      (hc : Continues c.toNat) (hd : Continues d.toNat) :
      Sequence [a, b, c, d]
        (Char.ofNat ((a.toNat - 0xF0) * 262144 + (b.toNat - 0x80) * 4096 +
          (c.toNat - 0x80) * 64 + (d.toNat - 0x80)))

/-- What is decoded is a sequence. -/
theorem sequence_of_decodeChar {first : UInt8} {rest rest' : List UInt8} {c : Char}
    (h : decodeChar first rest = .ok (c, rest')) :
    ∃ others, rest = others ++ rest' ∧ Sequence (first :: others) c := by
  unfold decodeChar at h
  simp only at h
  split at h
  · next ha =>
      cases h
      exact ⟨[], rfl, .one ha⟩
  split at h
  · next ha =>
      obtain ⟨⟨b, r⟩, hb, h⟩ := Except.bind_eq_ok.mp h
      obtain ⟨rfl, rfl⟩ := Prod.mk.inj (Except.ok.inj h)
      obtain ⟨b, rfl, rfl, hsecond⟩ := next_eq_ok.mp hb
      exact ⟨[b], rfl, .two ha hsecond⟩
  split at h
  · next ha =>
      obtain ⟨⟨b, r⟩, hb, h⟩ := Except.bind_eq_ok.mp h
      obtain ⟨⟨c, r'⟩, hc, h⟩ := Except.bind_eq_ok.mp h
      obtain ⟨rfl, rfl⟩ := Prod.mk.inj (Except.ok.inj h)
      obtain ⟨b, rfl, rfl, hsecond⟩ := next_eq_ok.mp hb
      obtain ⟨c, rfl, rfl, hthird⟩ := next_eq_ok.mp hc
      exact ⟨[b, c], rfl, .three ha hsecond hthird⟩
  split at h
  · next ha =>
      obtain ⟨⟨b, r⟩, hb, h⟩ := Except.bind_eq_ok.mp h
      obtain ⟨⟨c, r'⟩, hc, h⟩ := Except.bind_eq_ok.mp h
      obtain ⟨⟨d, r''⟩, hd, h⟩ := Except.bind_eq_ok.mp h
      obtain ⟨rfl, rfl⟩ := Prod.mk.inj (Except.ok.inj h)
      obtain ⟨b, rfl, rfl, hsecond⟩ := next_eq_ok.mp hb
      obtain ⟨c, rfl, rfl, hthird⟩ := next_eq_ok.mp hc
      obtain ⟨d, rfl, rfl, hfourth⟩ := next_eq_ok.mp hd
      exact ⟨[b, c, d], rfl, .four ha hsecond hthird hfourth⟩
  · cases h

/-- A sequence is decoded. -/
theorem Sequence.decodeChar {first : UInt8} {others : List UInt8} {c : Char}
    (h : Sequence (first :: others) c) (rest : List UInt8) :
    decodeChar first (others ++ rest) = .ok (c, rest) := by
  have hnext : ∀ {len : Nat} {p : Nat → Prop} [DecidablePred p] {b : UInt8} {r : List UInt8},
      p b.toNat → next len p (b :: r) = .ok (b.toNat, r) :=
    fun hp => next_eq_ok.mpr ⟨_, rfl, rfl, hp⟩
  cases h with
  | one ha => simp [Utf8.decodeChar, ha]
  | two ha hb =>
      have hlow : ¬first.toNat < 0x80 := by omega
      simp only [Utf8.decodeChar, hlow, ha, if_false, if_true, and_self, List.cons_append,
        List.nil_append, hnext hb]
      rfl
  | three ha hb hc =>
      have hlow : ¬first.toNat < 0x80 := by omega
      have htwo : ¬(0xC2 ≤ first.toNat ∧ first.toNat ≤ 0xDF) := by omega
      simp only [Utf8.decodeChar, hlow, htwo, ha, if_false, if_true, and_self, List.cons_append,
        List.nil_append, hnext hb]
      change (next 2 Continues _ >>= _) = _
      rw [hnext hc]
      rfl
  | four ha hb hc hd =>
      have hlow : ¬first.toNat < 0x80 := by omega
      have htwo : ¬(0xC2 ≤ first.toNat ∧ first.toNat ≤ 0xDF) := by omega
      have hthree : ¬(0xE0 ≤ first.toNat ∧ first.toNat ≤ 0xEF) := by omega
      simp only [Utf8.decodeChar, hlow, htwo, hthree, ha, if_false, if_true, and_self,
        List.cons_append, List.nil_append, hnext hb]
      change (next 2 Continues _ >>= _) = _
      rw [hnext hc]
      change (next 3 Continues _ >>= _) = _
      rw [hnext hd]
      rfl

theorem toNat_ofNat {n : Nat} (h : n.isValidChar) : (Char.ofNat n).val.toNat = n := by
  rw [Char.ofNat, dif_pos h]
  rfl

theorem eq_ofNat {n : Nat} {a : UInt8} (h : a.toNat = n) : a = UInt8.ofNat n := by
  rw [← h, UInt8.ofNat_toNat]

/-- A sequence is what the encoder writes. -/
theorem Sequence.eq_encode {bytes : List UInt8} {c : Char} (h : Sequence bytes c) :
    bytes = String.utf8EncodeChar c := by
  cases h with
  | one ha =>
      rw [String.utf8EncodeChar, toNat_ofNat (.inl (by omega)), if_pos (by omega),
        UInt8.ofNat_toNat]
  | two ha hb =>
      obtain ⟨⟨hlow, hhigh⟩, -⟩ := hb
      rw [String.utf8EncodeChar, toNat_ofNat (.inl (by omega)), if_neg (by omega),
        if_pos (by omega)]
      simp only [List.cons.injEq, and_true]
      exact ⟨eq_ofNat (by omega), eq_ofNat (by omega)⟩
  | three ha hb hc =>
      obtain ⟨⟨hlow, hhigh⟩, he0, hed, -⟩ := hb
      obtain ⟨hlow', hhigh'⟩ := hc
      rw [String.utf8EncodeChar, toNat_ofNat (by unfold Nat.isValidChar; omega),
        if_neg (by omega), if_neg (by omega), if_pos (by omega)]
      simp only [List.cons.injEq, and_true]
      exact ⟨eq_ofNat (by omega), eq_ofNat (by omega), eq_ofNat (by omega)⟩
  | four ha hb hc hd =>
      obtain ⟨⟨hlow, hhigh⟩, -, -, hf0, hf4⟩ := hb
      obtain ⟨hlow', hhigh'⟩ := hc
      obtain ⟨hlow'', hhigh''⟩ := hd
      rw [String.utf8EncodeChar, toNat_ofNat (by unfold Nat.isValidChar; omega),
        if_neg (by omega), if_neg (by omega), if_neg (by omega)]
      simp only [List.cons.injEq, and_true]
      exact ⟨eq_ofNat (by omega), eq_ofNat (by omega), eq_ofNat (by omega), eq_ofNat (by omega)⟩

theorem toNat_byte {n : Nat} (h : n < 256) : (UInt8.ofNat n).toNat = n := by
  rw [UInt8.toNat_ofNat']
  omega

theorem ofNat_val {c : Char} {n : Nat} (h : n = c.val.toNat) : Char.ofNat n = c := by
  rw [h]
  exact Char.ofNat_toNat c

/-- What the encoder writes is a sequence. -/
theorem sequence_encode (c : Char) : Sequence (String.utf8EncodeChar c) c := by
  have hvalid : c.val.toNat < 0xD800 ∨ 0xDFFF < c.val.toNat ∧ c.val.toNat < 0x110000 := c.valid
  rw [String.utf8EncodeChar]
  generalize hv : c.val.toNat = v at hvalid ⊢
  split
  · have h := Sequence.one (a := UInt8.ofNat v) (by rw [toNat_byte] <;> omega)
    rwa [toNat_byte (by omega), ofNat_val hv.symm] at h
  split
  · have ha : (UInt8.ofNat (v / 64 % 32 + 192)).toNat = v / 64 + 192 := by
      rw [toNat_byte] <;> omega
    have hb : (UInt8.ofNat (v % 64 + 128)).toNat = v % 64 + 128 := toNat_byte (by omega)
    have h := Sequence.two (a := UInt8.ofNat (v / 64 % 32 + 192)) (b := UInt8.ofNat (v % 64 + 128))
      (by rw [ha]; omega) (by rw [ha, hb]; refine ⟨⟨?_, ?_⟩, ?_, ?_, ?_, ?_⟩ <;> omega)
    rwa [ha, hb, ofNat_val (c := c) (by omega)] at h
  split
  · have ha : (UInt8.ofNat (v / 4096 % 16 + 224)).toNat = v / 4096 + 224 := by
      rw [toNat_byte] <;> omega
    have hb : (UInt8.ofNat (v / 64 % 64 + 128)).toNat = v / 64 % 64 + 128 := toNat_byte (by omega)
    have hc : (UInt8.ofNat (v % 64 + 128)).toNat = v % 64 + 128 := toNat_byte (by omega)
    have h := Sequence.three (a := UInt8.ofNat (v / 4096 % 16 + 224))
      (b := UInt8.ofNat (v / 64 % 64 + 128)) (c := UInt8.ofNat (v % 64 + 128)) (by rw [ha]; omega)
      (by rw [ha, hb]; refine ⟨⟨?_, ?_⟩, ?_, ?_, ?_, ?_⟩ <;> omega)
      (by rw [hc]; exact ⟨by omega, by omega⟩)
    rwa [ha, hb, hc, ofNat_val (c := c) (by omega)] at h
  · have ha : (UInt8.ofNat (v / 262144 % 8 + 240)).toNat = v / 262144 + 240 := by
      rw [toNat_byte] <;> omega
    have hb : (UInt8.ofNat (v / 4096 % 64 + 128)).toNat = v / 4096 % 64 + 128 :=
      toNat_byte (by omega)
    have hc : (UInt8.ofNat (v / 64 % 64 + 128)).toNat = v / 64 % 64 + 128 := toNat_byte (by omega)
    have hd : (UInt8.ofNat (v % 64 + 128)).toNat = v % 64 + 128 := toNat_byte (by omega)
    have h := Sequence.four (a := UInt8.ofNat (v / 262144 % 8 + 240))
      (b := UInt8.ofNat (v / 4096 % 64 + 128)) (c := UInt8.ofNat (v / 64 % 64 + 128))
      (d := UInt8.ofNat (v % 64 + 128)) (by rw [ha]; omega)
      (by rw [ha, hb]; refine ⟨⟨?_, ?_⟩, ?_, ?_, ?_, ?_⟩ <;> omega)
      (by rw [hc]; exact ⟨by omega, by omega⟩) (by rw [hd]; exact ⟨by omega, by omega⟩)
    rwa [ha, hb, hc, hd, ofNat_val (c := c) (by omega)] at h

/-! ## Whole texts -/

/-- The characters of `bytes`, the first of which is at position `index`. -/
def decodeFrom (index : Nat) : List UInt8 → Except Error (List Char)
  | [] => .ok []
  | first :: rest =>
      match h : decodeChar first rest with
      | .error errorLen => .error ⟨index, errorLen⟩
      | .ok (c, rest') =>
          (decodeFrom (index + (rest.length + 1 - rest'.length)) rest').map (c :: ·)
termination_by bytes => bytes.length
decreasing_by
  obtain ⟨others, rfl, -⟩ := sequence_of_decodeChar h
  simp only [List.length_append, List.length_cons]
  omega

/-- `std::str::from_utf8`. -/
def fromUtf8 (bytes : List UInt8) : Except Error (List Char) := decodeFrom 0 bytes

/-- The UTF-8 encoding of a text. -/
def encode (text : List Char) : List UInt8 := text.flatMap String.utf8EncodeChar

@[simp] theorem encode_cons (c : Char) (text : List Char) :
    encode (c :: text) = String.utf8EncodeChar c ++ encode text := rfl

/-- What is decoded is the encoding of the text. -/
theorem encode_of_decodeFrom {index : Nat} {bytes : List UInt8} {text : List Char}
    (h : decodeFrom index bytes = .ok text) : bytes = encode text := by
  fun_induction decodeFrom index bytes generalizing text with
  | case1 =>
      cases h
      rfl
  | case2 => cases h
  | case3 index first rest c rest' hchar ih =>
      obtain ⟨text', htext, rfl⟩ := Except.map_eq_ok h
      obtain ⟨others, rfl, hsequence⟩ := sequence_of_decodeChar hchar
      rw [encode_cons, ← hsequence.eq_encode, ← ih htext, List.cons_append]

/-- Decoding goes on after a sequence. -/
theorem Sequence.decodeFrom {bytes : List UInt8} {c : Char} (h : Sequence bytes c) (index : Nat)
    (rest : List UInt8) :
    ∃ index', decodeFrom index (bytes ++ rest) = (decodeFrom index' rest).map (c :: ·) := by
  rcases bytes with _ | ⟨first, others⟩
  · cases h
  have hchar := h.decodeChar rest
  refine ⟨index + ((others ++ rest).length + 1 - rest.length), ?_⟩
  rw [List.cons_append]
  conv_lhs => unfold Utf8.decodeFrom
  split
  · next hfail =>
      rw [hchar] at hfail
      cases hfail
  · next c' rest' hok =>
      rw [hchar] at hok
      cases hok
      rfl

theorem decodeFrom_encode (index : Nat) (text : List Char) :
    decodeFrom index (encode text) = .ok text := by
  induction text generalizing index with
  | nil => rw [encode, List.flatMap_nil, decodeFrom]
  | cons c text ih =>
      obtain ⟨index', hdecode⟩ := (sequence_encode c).decodeFrom index (encode text)
      rw [encode_cons, hdecode, ih, Except.map]

/-- **What `from_utf8` accepts is UTF-8**, and it gives back the text. -/
theorem fromUtf8_eq_ok {bytes : List UInt8} {text : List Char} :
    fromUtf8 bytes = .ok text ↔ bytes = encode text := by
  constructor
  · exact encode_of_decodeFrom
  · rintro rfl
    exact decodeFrom_encode 0 text

end Utf8

end PaqusNode
