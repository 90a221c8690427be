import PaqusNode.Base.Hex
import PaqusNode.Base.Codec
import PaqusNode.Paqus

/-!
# PaqusNode.Keys

The texts in which `src/main.rs` takes and gives hashes, addresses, keys and
transactions: hexadecimal digits of a fixed number of bytes, or of a borsh
encoding.  Each text form is read back as what it was written from, and what
is read could, up to the case of its digits, only have been written from that.
-/

namespace PaqusNode

namespace Keys

/-! ## Fixed-size values -/

/-- `hex::decode` and `try_into`, the steps that the three parsers share. -/
def parseArray (n : Nat) (what value : String) : Except String (Vector UInt8 n) :=
  match Hex.decode value.toList with
  | none => .error ("invalid " ++ what ++ " hex")
  | some bytes =>
      if h : bytes.length = n then .ok ⟨bytes.toArray, h⟩
      else .error (what ++ " has invalid length")

/-- `hex::encode` of an array. -/
def formatArray {n : Nat} (bytes : Vector UInt8 n) : String :=
  String.ofList (Hex.encode bytes.toList)

/-- `parse_address_hex`. -/
def parseAddressHex (value : String) : Except String Address :=
  (parseArray 20 "address" value).map (beWord 20).symm

/-- `parse_address`. -/
def parseAddress : Option String → Except String Address
  | none => .error "missing address hex"
  | some value => parseAddressHex value

/-- `parse_hash_hex`. -/
def parseHashHex (value : String) : Except String Hash :=
  (parseArray 64 "hash" value).map (beWord 64).symm

/-- `parse_secret_key`, for the number of bytes that `SecretKey` has. -/
def parseSecretKey (n : Nat) : Option String → Except String (Vector UInt8 n)
  | none => .error "missing secret key hex"
  | some value => parseArray n "secret key" value

/-- `format_hash`. -/
def formatHash : Option Hash → String
  | some hash => formatArray (beWord 64 hash)
  | none => "none"

/-- `short_hash`. -/
def shortHash (hash : Option Hash) : String :=
  let hash := (formatHash hash).toList
  if hash.length ≤ 16 then String.ofList hash
  else String.ofList (hash.take 8 ++ ['.', '.'] ++ hash.drop (hash.length - 8))

/-! ## Transactions -/

variable {T : Type}

/-- `signed_transaction_to_hex`. -/
def signedTransactionToHex (codec : Codec T) (transaction : T) : String :=
  String.ofList (Hex.encode (codec.encode transaction))

/-- `signed_transaction_from_hex`. -/
def signedTransactionFromHex (codec : Codec T) (value : String) : Except String T :=
  match Hex.decode value.toList with
  | none => .error "invalid transaction hex"
  | some bytes =>
      match codec.tryFromSlice bytes with
      | .error error => .error ("invalid signed transaction bytes: " ++ error)
      | .ok transaction => .ok transaction

/-! ## Reading what was written -/

/-- Two texts with the same digits, whatever the case of the first. -/
def Reads (value written : String) : Prop := value.toList.map Hex.lower = written.toList

instance (value written : String) : Decidable (Reads value written) :=
  inferInstanceAs (Decidable (_ = _))

theorem reads_encode {value : String} {bytes : List UInt8} :
    Reads value (String.ofList (Hex.encode bytes)) ↔ Hex.decode value.toList = some bytes := by
  simp [Reads, Hex.decode_eq_some]

theorem reads_self (bytes : List UInt8) :
    Reads (String.ofList (Hex.encode bytes)) (String.ofList (Hex.encode bytes)) := by
  simp [reads_encode]

/-- A text is read as bytes exactly if it stands for them. -/
theorem parseArray_eq_ok {n : Nat} {what value : String} {bytes : Vector UInt8 n} :
    parseArray n what value = .ok bytes ↔ Reads value (formatArray bytes) := by
  rw [formatArray, reads_encode, parseArray]
  cases Hex.decode value.toList with
  | none => simp
  | some read =>
      obtain ⟨written, hwritten⟩ := bytes
      simp only [Option.some.injEq]
      split
      · simp [Vector.toList, List.toArray_eq_iff]
      · next hlength =>
          constructor
          · simp
          · intro heq
            simp [heq, Vector.toList, hwritten] at hlength

theorem map_parseArray_eq_ok {α : Type} {n : Nat} {what value : String} {e : α ≃ Vector UInt8 n}
    {a : α} :
    (parseArray n what value).map e.symm = .ok a ↔ Reads value (formatArray (e a)) := by
  rw [← @parseArray_eq_ok n what]
  cases parseArray n what value with
  | error error => simp [Except.map]
  | ok bytes => simp [Except.map, Equiv.symm_apply_eq]

theorem parseAddressHex_eq_ok {value : String} {address : Address} :
    parseAddressHex value = .ok address ↔ Reads value (formatArray (beWord 20 address)) :=
  map_parseArray_eq_ok

theorem parseSecretKey_eq_ok {n : Nat} {value : String} {key : Vector UInt8 n} :
    parseSecretKey n (some value) = .ok key ↔ Reads value (formatArray key) :=
  parseArray_eq_ok

theorem parseArray_formatArray {n : Nat} (what : String) (bytes : Vector UInt8 n) :
    parseArray n what (formatArray bytes) = .ok bytes :=
  parseArray_eq_ok.mpr (reads_self _)

/-- A transaction's text stands for it alone: what a wallet posts is what the
node checks, and no second text passes for it. -/
theorem signedTransactionFromHex_eq_ok (codec : Codec T) {value : String} {transaction : T}
    (hshort : (codec.encode transaction).length < 2 ^ 32) :
    signedTransactionFromHex codec value = .ok transaction ↔
      Reads value (signedTransactionToHex codec transaction) := by
  rw [signedTransactionToHex, reads_encode, signedTransactionFromHex]
  cases Hex.decode value.toList with
  | none => simp
  | some bytes =>
      simp only [Option.some.injEq]
      constructor
      · intro h
        cases hslice : codec.tryFromSlice bytes with
        | error error => simp [hslice] at h
        | ok read =>
            simp only [hslice, Except.ok.injEq] at h
            rw [← h, codec.encode_of_tryFromSlice hslice]
      · rintro rfl
        rw [codec.tryFromSlice_encode hshort]

end Keys

end PaqusNode
