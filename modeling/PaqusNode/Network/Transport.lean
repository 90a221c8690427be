import PaqusNode.Base.Framing
import PaqusNode.Network.Message
import PaqusNode.Paqus.Reference

/-!
# PaqusNode.Network.Transport

Envelopes as bytes (`NetworkEnvelope`) and framed messages on a connection
(`runtime/network/transport.rs`).  `write_message` writes a frame in two
pieces, the length and the body.  An accepted connection has two writers: the
thread that answers its requests, and whichever thread broadcasts through the
clone of the socket in `inbound_connections`.  Nothing orders the pieces of
one writer against those of the other.
-/

namespace PaqusNode

namespace Network

variable {P : Paqus}

/-! ## Envelopes -/

/-- The borsh encoding of a message. -/
structure Borsh (M : Type) where
  toVec : M → List UInt8
  tryFromSlice : List UInt8 → Except String M

structure NetworkEnvelope (P : Paqus) where
  magic : Vector UInt8 4
  message : Message P

/-- `to_envelope`. -/
def Message.toEnvelope (params : ChainParams) (message : Message P) : NetworkEnvelope P where
  magic := params.networkMagic
  message := message

def maxNetworkMessageSize : Nat := 8 * 1024 * 1024

def messageLengthSize : Nat := 4

/-- `to_bytes`.  Borsh writes the four bytes of the magic as they are. -/
def NetworkEnvelope.toBytes (borsh : Borsh (Message P)) (envelope : NetworkEnvelope P) :
    Except NetworkError (List UInt8) :=
  let bytes := envelope.magic.toList ++ borsh.toVec envelope.message
  if maxNetworkMessageSize < bytes.length then .error .messageTooLarge else .ok bytes

/-- `from_bytes`. -/
def NetworkEnvelope.fromBytes (params : ChainParams) (borsh : Borsh (Message P))
    (bytes : List UInt8) : Except NetworkError (NetworkEnvelope P) :=
  if maxNetworkMessageSize < bytes.length then .error .messageTooLarge
  else match readExact 4 bytes with
    | none => .error (.serialization "Unexpected length of input")
    | some (magic, rest) =>
        match borsh.tryFromSlice rest with
        | .error e => .error (.serialization e)
        | .ok message =>
            if magic ≠ params.networkMagic.toList then
              .error (.serialization "network magic mismatch")
            else .ok ⟨params.networkMagic, message⟩

/-! ## Framed messages -/

/-- `write_message`: the pieces handed to `write_all`, in order. -/
def writeMessage (borsh : Borsh (Message P)) (envelope : NetworkEnvelope P) :
    Except NetworkError (List (List UInt8)) := do
  let bytes ← envelope.toBytes borsh
  if 2 ^ 32 ≤ bytes.length then throw .messageTooLarge
  return [toBeBytes bytes.length, bytes]

/-- `read_message`, with the bytes it leaves on the stream. -/
def readMessage (params : ChainParams) (borsh : Borsh (Message P)) (stream : List UInt8) :
    Except NetworkError (NetworkEnvelope P × List UInt8) :=
  match readExact messageLengthSize stream with
  | none => .error (.io "failed to fill whole buffer")
  | some (lengthBytes, rest) =>
      let length := fromBeBytes lengthBytes
      if maxNetworkMessageSize < length then .error .messageTooLarge
      else match readExact length rest with
        | none => .error (.io "failed to fill whole buffer")
        | some (bytes, rest) =>
            match NetworkEnvelope.fromBytes params borsh bytes with
            | .error e => .error e
            | .ok envelope => .ok (envelope, rest)

/-- Up to `n` calls of `read_message`, ended by the first that fails: the
envelopes read, and the bytes from the failed call on. -/
def readMessagesUpTo (params : ChainParams) (borsh : Borsh (Message P)) :
    Nat → List UInt8 → List (NetworkEnvelope P) × List UInt8
  | 0, stream => ([], stream)
  | n + 1, stream =>
      match readMessage params borsh stream with
      | .error _ => ([], stream)
      | .ok (envelope, rest) =>
          let (envelopes, left) := readMessagesUpTo params borsh n rest
          (envelope :: envelopes, left)

/-- Repeated `read_message`.  A message takes at least one byte, so there are
no more calls than bytes. -/
def readMessages (params : ChainParams) (borsh : Borsh (Message P)) (stream : List UInt8) :
    List (NetworkEnvelope P) × List UInt8 :=
  readMessagesUpTo params borsh stream.length stream

/-- Everything one thread writes to send `messages`. -/
def writes (params : ChainParams) (borsh : Borsh (Message P)) (messages : List (Message P)) :
    List (List UInt8) :=
  messages.flatMap fun message =>
    match writeMessage borsh (message.toEnvelope params) with
    | .error _ => []
    | .ok pieces => pieces

/-! ## One frame -/

variable {params : ChainParams} {borsh : Borsh (Message P)}

/-- The message is within the size limit and borsh reads back what it wrote. -/
structure Sendable (borsh : Borsh (Message P)) (message : Message P) : Prop where
  fits : 4 + (borsh.toVec message).length ≤ maxNetworkMessageSize
  roundtrip : borsh.tryFromSlice (borsh.toVec message) = .ok message

/-- The body of a message's frame. -/
def body (params : ChainParams) (borsh : Borsh (Message P)) (message : Message P) : List UInt8 :=
  params.networkMagic.toList ++ borsh.toVec message

/-- The bytes written before the body. -/
def lengthBytes (params : ChainParams) (borsh : Borsh (Message P)) (message : Message P) :
    List UInt8 :=
  toBeBytes (body params borsh message).length

@[simp] theorem length_lengthBytes (message : Message P) :
    (lengthBytes params borsh message).length = 4 := rfl

theorem length_body (message : Message P) :
    (body params borsh message).length = 4 + (borsh.toVec message).length := by
  simp [body]

namespace Sendable

variable {message : Message P}

theorem length_le (h : Sendable borsh message) (params : ChainParams) :
    (body params borsh message).length ≤ maxNetworkMessageSize := by
  rw [length_body]
  exact h.fits

theorem length_lt (h : Sendable borsh message) (params : ChainParams) :
    (body params borsh message).length < 2 ^ 32 :=
  Nat.lt_of_le_of_lt (h.length_le params) (by decide)

theorem writeMessage_eq (h : Sendable borsh message) :
    writeMessage borsh (message.toEnvelope params) =
      .ok [lengthBytes params borsh message, body params borsh message] := by
  have hbytes : (message.toEnvelope params).toBytes borsh = .ok (body params borsh message) :=
    if_neg (Nat.not_lt.mpr (h.length_le params))
  simp only [writeMessage, hbytes, bind, Except.bind, pure, Except.pure]
  exact if_neg (Nat.not_le.mpr (h.length_lt params))

theorem fromBytes_body (h : Sendable borsh message) :
    NetworkEnvelope.fromBytes params borsh (body params borsh message) =
      .ok (message.toEnvelope params) := by
  rw [NetworkEnvelope.fromBytes, if_neg (Nat.not_lt.mpr (h.length_le params)), body,
    readExact_append (by simp)]
  simp [h.roundtrip, Message.toEnvelope]

/-- `read_message` after the length of a message takes as many bytes as its
body has, whatever they are. -/
theorem readMessage_length (h : Sendable borsh message) (rest : List UInt8) :
    readMessage params borsh (lengthBytes params borsh message ++ rest) =
      match readExact (body params borsh message).length rest with
      | none => .error (.io "failed to fill whole buffer")
      | some (bytes, rest) =>
          match NetworkEnvelope.fromBytes params borsh bytes with
          | .error e => .error e
          | .ok envelope => .ok (envelope, rest) := by
  rw [readMessage, lengthBytes, messageLengthSize, readExact_append (length_toBeBytes _)]
  simp only [fromBeBytes_toBeBytes (h.length_lt params),
    if_neg (Nat.not_lt.mpr (h.length_le params))]

theorem readMessage_frame (h : Sendable borsh message) (rest : List UInt8) :
    readMessage params borsh
        (lengthBytes params borsh message ++ (body params borsh message ++ rest)) =
      .ok (message.toEnvelope params, rest) := by
  rw [h.readMessage_length, readExact_append rfl]
  simp only [h.fromBytes_body]

end Sendable

/-- An accepted body is the magic of the network and a message borsh accepts. -/
theorem fromBytes_ok {bytes : List UInt8} {envelope : NetworkEnvelope P}
    (h : NetworkEnvelope.fromBytes params borsh bytes = .ok envelope) :
    bytes.length ≤ maxNetworkMessageSize ∧ envelope.magic = params.networkMagic ∧
      ∃ rest, bytes = params.networkMagic.toList ++ rest ∧
        borsh.tryFromSlice rest = .ok envelope.message := by
  unfold NetworkEnvelope.fromBytes at h
  by_cases hlarge : maxNetworkMessageSize < bytes.length
  · rw [if_pos hlarge] at h
    cases h
  rw [if_neg hlarge] at h
  refine ⟨Nat.not_lt.mp hlarge, ?_⟩
  cases hread : readExact 4 bytes with
  | none =>
      rw [hread] at h
      cases h
  | some parts =>
      obtain ⟨magic, rest⟩ := parts
      rw [hread] at h
      cases hmessage : borsh.tryFromSlice rest with
      | error e => simp [hmessage] at h
      | ok message =>
          simp only [hmessage] at h
          by_cases hmagic : magic = params.networkMagic.toList
          · rw [if_neg (not_not_intro hmagic)] at h
            cases h
            exact ⟨rfl, rest, hmagic ▸ (append_of_readExact hread).2, hmessage⟩
          · rw [if_pos hmagic] at h
            cases h

theorem fromBytes_magic {bytes : List UInt8} {envelope : NetworkEnvelope P}
    (h : NetworkEnvelope.fromBytes params borsh bytes = .ok envelope) :
    bytes.take 4 = params.networkMagic.toList := by
  obtain ⟨-, -, rest, rfl, -⟩ := fromBytes_ok h
  exact List.take_left' Vector.length_toList

/-- What `read_message` takes from the stream is the length of an accepted
body and the body. -/
theorem readMessage_ok {stream rest : List UInt8} {envelope : NetworkEnvelope P}
    (h : readMessage params borsh stream = .ok (envelope, rest)) :
    ∃ bytes, stream = toBeBytes bytes.length ++ (bytes ++ rest) ∧
      NetworkEnvelope.fromBytes params borsh bytes = .ok envelope := by
  unfold readMessage at h
  cases hlength : readExact messageLengthSize stream with
  | none =>
      rw [hlength] at h
      cases h
  | some parts =>
      obtain ⟨lengthBytes, left⟩ := parts
      obtain ⟨hfour, hstream⟩ := append_of_readExact hlength
      simp only [hlength] at h
      by_cases hlarge : maxNetworkMessageSize < fromBeBytes lengthBytes
      · rw [if_pos hlarge] at h
        cases h
      rw [if_neg hlarge] at h
      cases hbody : readExact (fromBeBytes lengthBytes) left with
      | none =>
          rw [hbody] at h
          cases h
      | some parts =>
          obtain ⟨bytes, left'⟩ := parts
          obtain ⟨hsize, hleft⟩ := append_of_readExact hbody
          simp only [hbody] at h
          cases hbytes : NetworkEnvelope.fromBytes params borsh bytes with
          | error e => simp [hbytes] at h
          | ok envelope' =>
              simp only [hbytes] at h
              cases h
              exact ⟨bytes, by rw [hsize, toBeBytes_fromBeBytes hfour, ← hleft, ← hstream], hbytes⟩

/-- The magic of the network read as a length is above the limit, so that no
length looks like the magic. -/
def MagicIsNoLength (params : ChainParams) : Prop :=
  maxNetworkMessageSize < fromBeBytes params.networkMagic.toList

instance : Decidable (MagicIsNoLength params) :=
  inferInstanceAs (Decidable (_ < _))

theorem MagicIsNoLength.ne (hmagic : MagicIsNoLength params) {message : Message P}
    (h : Sendable borsh message) :
    lengthBytes params borsh message ≠ params.networkMagic.toList := by
  intro heq
  have hle := h.length_le params
  rw [← fromBeBytes_toBeBytes (h.length_lt params), ← lengthBytes, heq] at hle
  exact absurd hmagic (Nat.not_lt.mpr hle)

/-- Two lengths in a row: the second is read as the start of a body, where the
magic should be. -/
theorem readMessage_cut (hmagic : MagicIsNoLength params) {message other : Message P}
    (h : Sendable borsh message) (hother : Sendable borsh other) (rest : List UInt8) :
    ∃ e, readMessage params borsh
      (lengthBytes params borsh message ++ (lengthBytes params borsh other ++ rest)) =
        .error e := by
  rw [h.readMessage_length]
  cases hread : readExact (body params borsh message).length
      (lengthBytes params borsh other ++ rest) with
  | none => exact ⟨_, rfl⟩
  | some parts =>
      obtain ⟨bytes, left⟩ := parts
      cases hbytes : NetworkEnvelope.fromBytes params borsh bytes with
      | error e => exact ⟨e, by simp only [hbytes]⟩
      | ok envelope =>
          have htake := fromBytes_magic hbytes
          have hmin : min 4 (body params borsh message).length = 4 := by
            rw [length_body]
            omega
          rw [(readExact_eq_some hread).1, List.take_take, hmin,
            List.take_left' (length_lengthBytes other)] at htake
          exact absurd htake (hmagic.ne hother)

/-! ## Whole streams -/

/-- Every message is written as its length and its body. -/
theorem writes_eq_chunks {messages : List (Message P)} (h : ∀ m ∈ messages, Sendable borsh m) :
    writes params borsh messages =
      chunks (lengthBytes params borsh) (body params borsh) messages := by
  induction messages with
  | nil => rfl
  | cons message messages ih =>
      rw [writes, List.flatMap_cons, (h message (by simp)).writeMessage_eq, ← writes,
        ih fun m hm => h m (List.mem_cons_of_mem _ hm)]
      rfl

theorem readMessagesUpTo_error {stream : List UInt8} {e : NetworkError}
    (h : readMessage params borsh stream = .error e) (n : Nat) :
    readMessagesUpTo params borsh n stream = ([], stream) := by
  cases n with
  | zero => rfl
  | succ n => rw [readMessagesUpTo, h]

theorem readMessagesUpTo_frame {message : Message P} (h : Sendable borsh message) (n : Nat)
    (rest : List UInt8) :
    readMessagesUpTo params borsh (n + 1)
        (lengthBytes params borsh message ++ (body params borsh message ++ rest)) =
      (message.toEnvelope params :: (readMessagesUpTo params borsh n rest).1,
        (readMessagesUpTo params borsh n rest).2) := by
  rw [readMessagesUpTo, h.readMessage_frame]

/-- **Whole frames are read back**, all of them. -/
theorem readMessagesUpTo_writes {messages : List (Message P)}
    (h : ∀ m ∈ messages, Sendable borsh m) {n : Nat} (hn : messages.length ≤ n) :
    readMessagesUpTo params borsh n (writes params borsh messages).flatten =
      (messages.map (Message.toEnvelope params), []) := by
  rw [writes_eq_chunks h]
  induction messages generalizing n with
  | nil => exact readMessagesUpTo_error rfl n
  | cons message messages ih =>
      obtain ⟨n, rfl⟩ : ∃ k, n = k + 1 := ⟨n - 1, by simp at hn; omega⟩
      have hrest := ih (fun m hm => h m (List.mem_cons_of_mem _ hm)) (by simpa using hn)
      simp only [chunks, List.flatMap_cons, List.cons_append, List.nil_append,
        List.flatten_cons] at hrest ⊢
      rw [readMessagesUpTo_frame (h message (by simp)), hrest]
      rfl

/-- No message is written as nothing. -/
theorem length_le_writes {messages : List (Message P)} (h : ∀ m ∈ messages, Sendable borsh m) :
    messages.length ≤ (writes params borsh messages).flatten.length := by
  rw [writes_eq_chunks h]
  clear h
  induction messages with
  | nil => exact Nat.zero_le _
  | cons message messages ih =>
      simp only [chunks, List.flatMap_cons, List.cons_append, List.nil_append,
        List.flatten_cons, List.length_append, List.length_cons, length_lengthBytes] at ih ⊢
      omega

/-! ## Two writers -/

/-- The threads that write on an accepted connection. -/
inductive Writer where
  | stream
  | broadcaster
deriving DecidableEq, Repr

variable {messages : Writer → List (Message P)} {schedule : List (Writer × List UInt8)}

/-- The bytes of a schedule, as the peer receives them. -/
def received (schedule : List (Writer × List UInt8)) : List UInt8 :=
  (schedule.map Prod.snd).flatten

theorem received_frame (w w' : Writer) (a a' : List UInt8)
    (rest : List (Writer × List UInt8)) :
    received ((w, a) :: (w', a') :: rest) = a ++ (a' ++ received rest) := by
  simp [received]

/-- The peer gets whole frames, and reads from them an interleaving of what
the two threads sent. -/
structure Delivered (params : ChainParams) (borsh : Borsh (Message P))
    (messages : Writer → List (Message P)) (bytes : List UInt8)
    (merged : List (Writer × Message P)) : Prop where
  merges : Merges merged messages
  whole : bytes = (writes params borsh (merged.map Prod.snd)).flatten
  read : readMessages params borsh bytes =
    (merged.map fun sent => sent.2.toEnvelope params, [])

/-- What is written message by message is read message by message. -/
theorem delivered_of_uncut (huncut : Uncut schedule)
    (hsend : ∀ w, ∀ m ∈ messages w, Sendable borsh m)
    (h : Merges schedule fun w => writes params borsh (messages w)) :
    ∃ merged, Delivered params borsh messages (received schedule) merged := by
  simp only [writes_eq_chunks (hsend _)] at h
  obtain ⟨merged, hmerged, hchunks⟩ := huncut.whole h
  have hsent : ∀ m ∈ merged.map Prod.snd, Sendable borsh m := by
    intro m hm
    obtain ⟨sent, hmem, rfl⟩ := List.mem_map.mp hm
    exact hsend _ _ (hmerged.mem hmem)
  have hwhole : received schedule = (writes params borsh (merged.map Prod.snd)).flatten := by
    rw [received, hchunks, writes_eq_chunks hsent]
  refine ⟨merged, hmerged, hwhole, ?_⟩
  rw [hwhole, readMessages, readMessagesUpTo_writes hsent (length_le_writes hsent), List.map_map]
  rfl

/-- What is left to write was to be written. -/
theorem mem_of_mem_update {w w' : Writer} {m m' : Message P} {later : List (Message P)}
    (hmessages : messages w = m :: later) (hm' : m' ∈ Function.update messages w later w') :
    m' ∈ messages w' := by
  by_cases heq : w' = w
  · subst heq
    rw [Function.update_self] at hm'
    exact hmessages ▸ List.mem_cons_of_mem m hm'
  · rwa [Function.update_of_ne heq] at hm'

/-- A stream that is read to its end was never cut. -/
theorem uncut_of_read (hmagic : MagicIsNoLength params)
    (hsend : ∀ w, ∀ m ∈ messages w, Sendable borsh m)
    (h : Merges schedule fun w =>
      chunks (lengthBytes params borsh) (body params borsh) (messages w))
    {n : Nat} (hread : (readMessagesUpTo params borsh n (received schedule)).2 = []) :
    Uncut schedule := by
  induction schedule using Uncut.induct generalizing messages n with
  | case1 => exact trivial
  | case2 write =>
      obtain ⟨m, later, -, -, hnext⟩ := h.head
      cases hnext
  | case3 w a w' a' rest ih =>
      obtain ⟨m, later, hmessages, rfl, hnext⟩ := h.head
      have hm : Sendable borsh m := hsend w m (by simp [hmessages])
      by_cases heq : w = w'
      · subst heq
        rw [projection_cons_self, List.cons.injEq] at hnext
        obtain ⟨rfl, -⟩ := hnext
        refine ⟨rfl, ?_⟩
        rw [received_frame] at hread
        cases n with
        | zero => exact absurd hread (by simp [readMessagesUpTo, lengthBytes, toBeBytes])
        | succ n =>
            rw [readMessagesUpTo_frame hm] at hread
            refine ih (fun w' m' hm' => ?_) (h.tail hmessages) hread
            exact hsend w' m' (mem_of_mem_update hmessages hm')
      · obtain ⟨m', later', hmessages', rfl⟩ := h.cut heq
        have hm' : Sendable borsh m' := hsend w' m' (by simp [hmessages'])
        obtain ⟨e, he⟩ := readMessage_cut hmagic hm hm' (received rest)
        rw [received_frame, readMessagesUpTo_error he] at hread
        exact absurd hread (by simp [lengthBytes, toBeBytes])

/-- **Frames stay whole exactly when no length is cut from its body.**  For
any messages of the two threads and any interleaving of their writes, the
peer reads an interleaving of exactly these messages if and only if neither
thread ever writes between the length and the body of the other. -/
theorem frames_whole_iff (hmagic : MagicIsNoLength params)
    (hsend : ∀ w, ∀ m ∈ messages w, Sendable borsh m)
    (h : Merges schedule fun w => writes params borsh (messages w)) :
    (∃ merged, Delivered params borsh messages (received schedule) merged) ↔
      Uncut schedule := by
  constructor
  · rintro ⟨merged, hdelivered⟩
    simp only [writes_eq_chunks (hsend _)] at h
    have hread := congrArg Prod.snd hdelivered.read
    exact uncut_of_read hmagic hsend h hread
  · intro huncut
    exact delivered_of_uncut huncut hsend h

/-- Parameters for the runs below. -/
def sampleParams : ChainParams where
  protocolVersion := 1
  chainId := 1
  chainName := "sample"
  protocolStage := "test"
  networkMagic := #v[0x50, 0x41, 0x51, 0x53]

/-- Borsh on the two messages of the runs below, a `Pong` whose nonce is one
byte and a `Block` that is the first block. -/
def sampleBorsh : Borsh (Message Reference.paqus) where
  toVec
    | .pong nonce => [4, nonce.toUInt8, 0, 0, 0, 0, 0, 0, 0]
    | .block _ => [9]
    | _ => []
  tryFromSlice
    | [4, nonce, 0, 0, 0, 0, 0, 0, 0] => .ok (.pong nonce.toUInt64)
    | [9] => .ok (.block Reference.genesis)
    | _ => .error "Unexpected length of input"

/-- The stream thread answers a `Ping` while another thread broadcasts a block. -/
def sampleMessages : Writer → List (Message Reference.paqus)
  | .stream => [.pong 7]
  | .broadcaster => [.block Reference.genesis]

theorem sampleMessages_sendable (w : Writer) :
    ∀ m ∈ sampleMessages w, Sendable sampleBorsh m := by
  cases w <;> exact List.forall_mem_singleton.mpr ⟨by decide, rfl⟩

/-- The block, then the answer. -/
def inTurn : List (Writer × List UInt8) :=
  [(.broadcaster, [0, 0, 0, 5]), (.broadcaster, [0x50, 0x41, 0x51, 0x53, 9]),
    (.stream, [0, 0, 0, 13]),
    (.stream, [0x50, 0x41, 0x51, 0x53, 4, 7, 0, 0, 0, 0, 0, 0, 0])]

theorem frames_whole_inTurn :
    ∃ merged, Delivered sampleParams sampleBorsh sampleMessages (received inTurn) merged :=
  (frames_whole_iff (by decide) sampleMessages_sendable
    (fun w => by cases w <;> decide +kernel)).mpr (by decide)

/-- The same writes, with both lengths first. -/
def lengthsFirst : List (Writer × List UInt8) :=
  [(.stream, [0, 0, 0, 13]), (.broadcaster, [0, 0, 0, 5]),
    (.stream, [0x50, 0x41, 0x51, 0x53, 4, 7, 0, 0, 0, 0, 0, 0, 0]),
    (.broadcaster, [0x50, 0x41, 0x51, 0x53, 9])]

/-- The peer takes the length of the block for the magic of the answer, and
reads nothing from this stream. -/
theorem frames_cut :
    Merges lengthsFirst (fun w => writes sampleParams sampleBorsh (sampleMessages w)) ∧
    ¬ ∃ merged, Delivered sampleParams sampleBorsh sampleMessages (received lengthsFirst)
      merged := by
  refine ⟨fun w => by cases w <;> decide +kernel, ?_⟩
  rintro ⟨merged, hdelivered⟩
  have hleft : (readMessages sampleParams sampleBorsh (received lengthsFirst)).2 = [] :=
    congrArg Prod.snd hdelivered.read
  exact absurd hleft (by decide +kernel)

end Network

end PaqusNode
