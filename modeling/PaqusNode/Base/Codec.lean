import Mathlib.Algebra.GroupWithZero.Nat
import Mathlib.Data.List.Nodup
import Mathlib.Logic.Equiv.Basic
import Mathlib.Logic.Equiv.Prod
import PaqusNode.Base.Except
import PaqusNode.Base.Utf8

/-!
# PaqusNode.Base.Codec

Canonical binary encodings.  A *codec* writes a value and parses one from the
front of a byte string, and carries the proof that the two invert each other:
what was written is parsed back whatever follows it, and what is parsed is
exactly what would have been written.  The combinators below build the
encodings of records, enumerations, tagged unions, strings and sequences the
way borsh lays them out; their texts for malformed input are borsh's.
-/

namespace PaqusNode

/-! ## Numbers as bytes -/

/-- The `n` lowest base-256 digits, the lowest first. -/
def leBytes : Nat → Nat → List UInt8
  | 0, _ => []
  | n + 1, x => UInt8.ofNat x :: leBytes n (x / 256)

/-- The number with given base-256 digits, the lowest first. -/
def leValue : List UInt8 → Nat
  | [] => 0
  | byte :: bytes => byte.toNat + 256 * leValue bytes

@[simp] theorem length_leBytes (n x : Nat) : (leBytes n x).length = n := by
  induction n generalizing x with
  | zero => rfl
  | succ n ih => rw [leBytes, List.length_cons, ih]

theorem leValue_leBytes (n x : Nat) : leValue (leBytes n x) = x % 256 ^ n := by
  induction n generalizing x with
  | zero => rw [Nat.pow_zero, Nat.mod_one, leBytes, leValue]
  | succ n ih =>
      have hsplit : x % 256 ^ (n + 1) = x % 256 + 256 * (x / 256 % 256 ^ n) := by
        rw [Nat.pow_succ', Nat.mod_mul]
      rw [hsplit, leBytes, leValue, ih, UInt8.toNat_ofNat']

/-- A number has the digits it is given by. -/
theorem leBytes_leValue (bytes : List UInt8) : leBytes bytes.length (leValue bytes) = bytes := by
  induction bytes with
  | nil => rfl
  | cons byte bytes ih =>
      have hbyte : UInt8.ofNat (byte.toNat + 256 * leValue bytes) = byte := by
        rw [← UInt8.toNat_inj, UInt8.toNat_ofNat', Nat.add_mul_mod_self_left]
        exact Nat.mod_eq_of_lt byte.toNat_lt
      have hrest : (byte.toNat + 256 * leValue bytes) / 256 = leValue bytes := by
        have hlt := byte.toNat_lt
        omega
      rw [List.length_cons, leValue, leBytes, hbyte, hrest, ih]

theorem leValue_lt (bytes : List UInt8) : leValue bytes < 256 ^ bytes.length := by
  rw [← leBytes_leValue bytes, leValue_leBytes, length_leBytes]
  exact Nat.mod_lt _ (Nat.pow_pos (by decide))

theorem two_pow_eight_mul (n : Nat) : 2 ^ (8 * n) = 256 ^ n := by
  rw [Nat.pow_mul]

/-- A word of `n` bytes is its digits, the lowest first. -/
def leWord (n : Nat) : BitVec (8 * n) ≃ Vector UInt8 n where
  toFun x := ⟨(leBytes n x.toNat).toArray, by simp⟩
  invFun v := BitVec.ofNat _ (leValue v.toList)
  left_inv x := by
    have hlt := x.isLt
    rw [two_pow_eight_mul] at hlt
    apply BitVec.eq_of_toNat_eq
    simp [leValue_leBytes, Nat.mod_eq_of_lt hlt]
  right_inv v := by
    have hlt := leValue_lt v.toList
    have hbytes := leBytes_leValue v.toList
    rw [Vector.length_toList] at hlt hbytes
    rw [← Vector.toList_inj]
    simp [two_pow_eight_mul, Nat.mod_eq_of_lt hlt, hbytes]

/-- A word of `n` bytes is its digits, the highest first. -/
def beWord (n : Nat) : BitVec (8 * n) ≃ Vector UInt8 n :=
  (leWord n).trans (Function.Involutive.toPerm Vector.reverse Vector.reverse_reverse)

/-! ## Codecs -/

/-- A writer, and a parser that leaves the bytes it does not need.  Lengths
are written in 32 bits, so a longer encoding need not be parsed back. -/
structure Codec (α : Type) where
  encode : α → List UInt8
  decode : List UInt8 → Except String (α × List UInt8)
  decode_encode : ∀ a rest, (encode a).length < 2 ^ 32 →
    decode (encode a ++ rest) = .ok (a, rest)
  encode_decode : ∀ {bytes a rest}, decode bytes = .ok (a, rest) → bytes = encode a ++ rest

namespace Codec

variable {α β ι : Type}

/-- `try_from_slice`: one value and nothing after it. -/
def tryFromSlice (c : Codec α) (bytes : List UInt8) : Except String α :=
  match c.decode bytes with
  | .error e => .error e
  | .ok (a, []) => .ok a
  | .ok (_, _ :: _) => .error "Not all bytes read"

theorem tryFromSlice_encode (c : Codec α) {a : α} (h : (c.encode a).length < 2 ^ 32) :
    c.tryFromSlice (c.encode a) = .ok a := by
  have hdecode := c.decode_encode a [] h
  rw [List.append_nil] at hdecode
  rw [tryFromSlice, hdecode]

/-- What is accepted is exactly what would have been written. -/
theorem encode_of_tryFromSlice (c : Codec α) {bytes : List UInt8} {a : α}
    (h : c.tryFromSlice bytes = .ok a) : c.encode a = bytes := by
  unfold tryFromSlice at h
  cases hdecode : c.decode bytes with
  | error e =>
      rw [hdecode] at h
      cases h
  | ok parsed =>
      obtain ⟨a', rest⟩ := parsed
      rw [hdecode] at h
      cases rest with
      | cons byte rest => cases h
      | nil =>
          cases h
          rw [c.encode_decode hdecode, List.append_nil]

/-- A value is never written as nothing if nothing cannot be parsed. -/
theorem encode_ne_nil {c : Codec α} {e : String} (h : c.decode [] = .error e) (a : α) :
    c.encode a ≠ [] := by
  intro hnil
  have hdecode := c.decode_encode a [] (by simp [hnil])
  rw [hnil, List.append_nil, h] at hdecode
  cases hdecode

/-! ## Fixed sizes -/

/-- Nothing at all. -/
def unit : Codec Unit where
  encode _ := []
  decode bytes := .ok ((), bytes)
  decode_encode _ _ _ := rfl
  encode_decode h := by
    cases h
    rfl

/-- `[u8; n]`. -/
def array (n : Nat) : Codec (Vector UInt8 n) where
  encode v := v.toList
  decode bytes :=
    if h : n ≤ bytes.length then
      .ok (⟨(bytes.take n).toArray, by simp [h]⟩, bytes.drop n)
    else .error "Unexpected length of input"
  decode_encode v rest _ := by
    rw [dif_pos (by simp)]
    congr 2
    · rw [← Vector.toList_inj]
      simp
    · simp
  encode_decode h := by
    split at h
    · cases h
      simp
    · cases h

/-! ## Change of representation -/

/-- Parse a representation and check it. -/
def via (c : Codec α) (repr : β → α) (check : α → Except String β)
    (check_repr : ∀ b, check (repr b) = .ok b)
    (repr_check : ∀ {a b}, check a = .ok b → repr b = a) : Codec β where
  encode b := c.encode (repr b)
  decode bytes := do
    let (a, rest) ← c.decode bytes
    let b ← check a
    return (b, rest)
  decode_encode b rest h := by
    rw [c.decode_encode _ _ h]
    change (check (repr b) >>= fun b => .ok (b, rest)) = _
    rw [check_repr]
    rfl
  encode_decode h := by
    obtain ⟨⟨a, rest⟩, ha, h⟩ := Except.bind_eq_ok.mp h
    obtain ⟨b, hb, h⟩ := Except.bind_eq_ok.mp h
    cases h
    rw [repr_check hb, c.encode_decode ha]

/-- The same bytes for values in one-to-one correspondence. -/
def iso (c : Codec α) (e : β ≃ α) : Codec β :=
  c.via e (fun a => .ok (e.symm a)) (fun b => by rw [e.symm_apply_apply]) fun h => by
    cases h
    exact e.apply_symm_apply _

def u8 : Codec UInt8 :=
  (array 1).iso ((⟨UInt8.toBitVec, UInt8.ofBitVec, fun _ => rfl, fun _ => rfl⟩ :
    UInt8 ≃ BitVec (8 * 1)).trans (leWord 1))

def u16 : Codec UInt16 :=
  (array 2).iso ((⟨UInt16.toBitVec, UInt16.ofBitVec, fun _ => rfl, fun _ => rfl⟩ :
    UInt16 ≃ BitVec (8 * 2)).trans (leWord 2))

def u32 : Codec UInt32 :=
  (array 4).iso ((⟨UInt32.toBitVec, UInt32.ofBitVec, fun _ => rfl, fun _ => rfl⟩ :
    UInt32 ≃ BitVec (8 * 4)).trans (leWord 4))

def u64 : Codec UInt64 :=
  (array 8).iso ((⟨UInt64.toBitVec, UInt64.ofBitVec, fun _ => rfl, fun _ => rfl⟩ :
    UInt64 ≃ BitVec (8 * 8)).trans (leWord 8))

/-- `n` bytes as they are, for values compared byte by byte. -/
def bits (n : Nat) : Codec (BitVec (8 * n)) := (array n).iso (beWord n)

@[simp] theorem length_encode_u32 (x : UInt32) : (u32.encode x).length = 4 :=
  Vector.length_toList

/-! ## Products and sums -/

/-- One value, then another whose kind the first decides. -/
def sigma {π : ι → Type} (index : Codec ι) (payload : (i : ι) → Codec (π i)) :
    Codec ((i : ι) × π i) where
  encode p := index.encode p.1 ++ (payload p.1).encode p.2
  decode bytes := do
    let (i, rest) ← index.decode bytes
    let (p, rest) ← (payload i).decode rest
    return (⟨i, p⟩, rest)
  decode_encode p rest h := by
    rw [List.length_append] at h
    rw [List.append_assoc, index.decode_encode _ _ (by omega)]
    change ((payload p.1).decode _ >>= _) = _
    rw [(payload p.1).decode_encode _ _ (by omega)]
    rfl
  encode_decode h := by
    obtain ⟨⟨i, rest⟩, hi, h⟩ := Except.bind_eq_ok.mp h
    obtain ⟨⟨p, rest⟩, hp, h⟩ := Except.bind_eq_ok.mp h
    cases h
    rw [index.encode_decode hi, (payload i).encode_decode hp, List.append_assoc]

def pair (first : Codec α) (second : Codec β) : Codec (α × β) :=
  (sigma first fun _ => second).iso (Equiv.sigmaEquivProd α β).symm

/-- All the values of a type in the order of their declaration. -/
structure Enumeration (ι : Type) where
  all : List ι
  nodup : all.Nodup
  complete : ∀ i, i ∈ all
  short : all.length ≤ 256

/-- The place of a value in its enumeration, as one byte. -/
def enum [DecidableEq ι] (e : Enumeration ι) (invalid : UInt8 → String) : Codec ι :=
  u8.via (fun i => UInt8.ofNat (e.all.idxOf i))
    (fun tag => match e.all[tag.toNat]? with
      | some i => .ok i
      | none => .error (invalid tag))
    (fun i => by
      have hlt := List.idxOf_lt_length_iff.mpr (e.complete i)
      have hsmall : e.all.idxOf i < UInt8.size := Nat.lt_of_lt_of_le hlt e.short
      rw [UInt8.toNat_ofNat_of_lt' hsmall, List.getElem?_idxOf (e.complete i)])
    (fun {tag i} h => by
      cases hget : e.all[tag.toNat]? with
      | none =>
          rw [hget] at h
          cases h
      | some j =>
          rw [hget] at h
          cases h
          obtain ⟨hlt, hj⟩ := List.getElem?_eq_some_iff.mp hget
          rw [← hj, e.nodup.idxOf_getElem, UInt8.ofNat_toNat])

/-- A tag of an `enum` that no variant has. -/
def unexpectedVariant (tag : UInt8) : String :=
  "Unexpected variant tag: " ++ toString tag.toNat

/-- What follows the flag of an optional value. -/
def Optional (α : Type) : Bool → Type
  | false => Unit
  | true => α

def optionEquiv (α : Type) : Option α ≃ (flag : Bool) × Optional α flag where
  toFun
    | none => ⟨false, ()⟩
    | some a => ⟨true, a⟩
  invFun
    | ⟨false, _⟩ => none
    | ⟨true, a⟩ => some a
  left_inv o := by cases o <;> rfl
  right_inv p := by
    obtain ⟨flag, p⟩ := p
    cases flag <;> rfl

/-- `Option`: a flag, then the value if there is one. -/
def option (c : Codec α) : Codec (Option α) :=
  (sigma (enum ⟨[false, true], by decide, by decide, by decide⟩ fun flag =>
      "Invalid Option representation: " ++ toString flag.toNat ++
        ". The first byte must be 0 or 1")
    fun
      | false => unit
      | true => c).iso (optionEquiv α)

/-! ## Sequences -/

/-- So many values, one after the other. -/
def decodeList (c : Codec α) : Nat → List UInt8 → Except String (List α × List UInt8)
  | 0, bytes => .ok ([], bytes)
  | n + 1, bytes => do
      let (a, rest) ← c.decode bytes
      let (as, rest) ← decodeList c n rest
      return (a :: as, rest)

/-- Values written one after the other are parsed back. -/
theorem decodeList_encode (c : Codec α) (as : List α) (rest : List UInt8)
    (h : (as.flatMap c.encode).length < 2 ^ 32) :
    c.decodeList as.length (as.flatMap c.encode ++ rest) = .ok (as, rest) := by
  induction as with
  | nil => rfl
  | cons a as ih =>
      rw [List.flatMap_cons, List.length_append] at h
      rw [List.flatMap_cons, List.append_assoc, List.length_cons, decodeList,
        c.decode_encode _ _ (by omega)]
      change (c.decodeList as.length _ >>= _) = _
      rw [ih (by omega)]
      rfl

/-- What is parsed as a list is the encodings of its members. -/
theorem encode_decodeList (c : Codec α) {n : Nat} {bytes rest : List UInt8} {as : List α}
    (h : c.decodeList n bytes = .ok (as, rest)) :
    as.length = n ∧ bytes = as.flatMap c.encode ++ rest := by
  induction n generalizing bytes as with
  | zero =>
      cases h
      exact ⟨rfl, rfl⟩
  | succ n ih =>
      obtain ⟨⟨a, left⟩, ha, h⟩ := Except.bind_eq_ok.mp h
      obtain ⟨⟨as', left'⟩, has, h⟩ := Except.bind_eq_ok.mp h
      cases h
      obtain ⟨hlength, hbytes⟩ := ih has
      refine ⟨by rw [List.length_cons, hlength], ?_⟩
      rw [c.encode_decode ha, hbytes, List.flatMap_cons, List.append_assoc]

/-- Every value takes at least one byte. -/
theorem length_le_flatMap_encode (c : Codec α) (hne : ∀ a, c.encode a ≠ []) (as : List α) :
    as.length ≤ (as.flatMap c.encode).length := by
  induction as with
  | nil => exact Nat.le_refl 0
  | cons a as ih =>
      have hpos := List.length_pos_iff.mpr (hne a)
      rw [List.flatMap_cons, List.length_append, List.length_cons]
      omega

/-- `Vec`: the number of values, then the values, none of which is empty. -/
def vec (c : Codec α) (hne : ∀ a, c.encode a ≠ []) : Codec (List α) where
  encode as := u32.encode (UInt32.ofNat as.length) ++ as.flatMap c.encode
  decode bytes := do
    let (n, rest) ← u32.decode bytes
    c.decodeList n.toNat rest
  decode_encode as rest h := by
    rw [List.length_append, length_encode_u32] at h
    have hle := c.length_le_flatMap_encode hne as
    have hlt : as.length < UInt32.size := by
      change as.length < 2 ^ 32
      omega
    rw [List.append_assoc, u32.decode_encode _ _ (by simp)]
    change c.decodeList (UInt32.ofNat as.length).toNat _ = _
    rw [UInt32.toNat_ofNat_of_lt' hlt, c.decodeList_encode as rest (by omega)]
  encode_decode h := by
    obtain ⟨⟨n, rest⟩, hn, h⟩ := Except.bind_eq_ok.mp h
    obtain ⟨hlength, hbytes⟩ := c.encode_decodeList h
    rw [u32.encode_decode hn, hbytes, hlength, UInt32.ofNat_toNat, List.append_assoc]

/-! ## Strings -/

/-- `String`: its UTF-8 bytes as a `Vec<u8>`. -/
def string : Codec String :=
  (vec u8 (encode_ne_nil rfl)).via
    (fun s => Utf8.encode s.toList)
    (fun bytes => match Utf8.fromUtf8 bytes with
      | .error e => .error e.display
      | .ok text => .ok (String.ofList text))
    (fun s => by simp only [Utf8.fromUtf8_eq_ok.mpr rfl, String.ofList_toList])
    (fun {bytes s} h => by
      split at h
      · cases h
      · next text htext =>
          cases h
          rw [String.toList_ofList, Utf8.fromUtf8_eq_ok.mp htext])

end Codec

end PaqusNode
