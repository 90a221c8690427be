import PaqusNode.Base.Codec
import PaqusNode.Network.Transport

/-!
# PaqusNode.Network.Codec

The borsh encoding of the messages, field by field and variant by variant as
`runtime/network/message.rs` declares them; blocks and transactions come with
codecs of their own.  With it every frame on a connection stands for exactly
one envelope: `read_message` gives back what `write_message` wrote, and takes
nothing from a stream that `write_message` would not have written.
-/

namespace PaqusNode

namespace Network

open Codec

/-! ## Records -/

/-- The 64 bytes of a hash. -/
def hashCodec : Codec Hash := bits 64

def PeerInfo.codec : Codec PeerInfo :=
  string.iso
    { toFun := PeerInfo.address
      invFun := PeerInfo.mk
      left_inv := fun _ => rfl
      right_inv := fun _ => rfl }

def TipInfo.codec : Codec TipInfo :=
  (pair u64 hashCodec).iso
    { toFun := fun tip => (tip.height, tip.hash)
      invFun := fun (height, hash) => ⟨height, hash⟩
      left_inv := fun _ => rfl
      right_inv := fun _ => rfl }

def VersionInfo.codec : Codec VersionInfo :=
  (pair u8 (pair u16 (pair string (pair string (pair (array 4) (option TipInfo.codec)))))).iso
    { toFun := fun version =>
        (version.protocolVersion, version.chainId, version.chainName, version.protocolStage,
          version.networkMagic, version.tip)
      invFun := fun (protocolVersion, chainId, chainName, protocolStage, networkMagic, tip) =>
        ⟨protocolVersion, chainId, chainName, protocolStage, networkMagic, tip⟩
      left_inv := fun _ => rfl
      right_inv := fun _ => rfl }

def RejectReason.codec : Codec RejectReason :=
  enum
    { all := [.protocolVersionMismatch, .chainMismatch, .networkMismatch, .invalidMessage]
      nodup := by decide
      complete := fun reason => by cases reason <;> decide
      short := by decide }
    unexpectedVariant

/-! ## Messages -/

/-- The variants of `NetworkMessage`. -/
inductive Variant where
  | version
  | verAck
  | reject
  | ping
  | pong
  | getTip
  | tip
  | getBlockByHeight
  | getBlockByHash
  | block
  | transaction
  | getPeers
  | peers
deriving DecidableEq, Repr

/-- The order of the declaration, which borsh numbers. -/
def Variant.all : Enumeration Variant where
  all := [.version, .verAck, .reject, .ping, .pong, .getTip, .tip, .getBlockByHeight,
    .getBlockByHash, .block, .transaction, .getPeers, .peers]
  nodup := by decide
  complete variant := by cases variant <;> decide
  short := by decide

/-- What a message of the variant carries. -/
def Variant.Fields (P : Paqus) : Variant → Type
  | .version => VersionInfo
  | .verAck => VersionInfo
  | .reject => RejectReason × String
  | .ping => UInt64
  | .pong => UInt64
  | .getTip => Unit
  | .tip => TipInfo
  | .getBlockByHeight => UInt64
  | .getBlockByHash => BlockHash
  | .block => P.Block
  | .transaction => P.SignedTransaction
  | .getPeers => Unit
  | .peers => List PeerInfo

variable {P : Paqus}

/-- A message is its variant and what it carries. -/
def messageEquiv : Message P ≃ (variant : Variant) × variant.Fields P where
  toFun
    | .version version => ⟨.version, version⟩
    | .verAck version => ⟨.verAck, version⟩
    | .reject reason message => ⟨.reject, reason, message⟩
    | .ping nonce => ⟨.ping, nonce⟩
    | .pong nonce => ⟨.pong, nonce⟩
    | .getTip => ⟨.getTip, ()⟩
    | .tip tip => ⟨.tip, tip⟩
    | .getBlockByHeight height => ⟨.getBlockByHeight, height⟩
    | .getBlockByHash hash => ⟨.getBlockByHash, hash⟩
    | .block block => ⟨.block, block⟩
    | .transaction transaction => ⟨.transaction, transaction⟩
    | .getPeers => ⟨.getPeers, ()⟩
    | .peers peers => ⟨.peers, peers⟩
  invFun
    | ⟨.version, version⟩ => .version version
    | ⟨.verAck, version⟩ => .verAck version
    | ⟨.reject, reason, message⟩ => .reject reason message
    | ⟨.ping, nonce⟩ => .ping nonce
    | ⟨.pong, nonce⟩ => .pong nonce
    | ⟨.getTip, _⟩ => .getTip
    | ⟨.tip, tip⟩ => .tip tip
    | ⟨.getBlockByHeight, height⟩ => .getBlockByHeight height
    | ⟨.getBlockByHash, hash⟩ => .getBlockByHash hash
    | ⟨.block, block⟩ => .block block
    | ⟨.transaction, transaction⟩ => .transaction transaction
    | ⟨.getPeers, _⟩ => .getPeers
    | ⟨.peers, peers⟩ => .peers peers
  left_inv message := by cases message <;> rfl
  right_inv p := by
    obtain ⟨variant, fields⟩ := p
    cases variant <;> rfl

section Borsh

variable (block : Codec P.Block) (transaction : Codec P.SignedTransaction)

def Variant.codec : (variant : Variant) → Codec (variant.Fields P)
  | .version => VersionInfo.codec
  | .verAck => VersionInfo.codec
  | .reject => pair RejectReason.codec string
  | .ping => u64
  | .pong => u64
  | .getTip => unit
  | .tip => TipInfo.codec
  | .getBlockByHeight => u64
  | .getBlockByHash => hashCodec
  | .block => block
  | .transaction => transaction
  | .getPeers => unit
  | .peers => vec PeerInfo.codec (encode_ne_nil rfl)

def Message.codec : Codec (Message P) :=
  (sigma (enum Variant.all unexpectedVariant) (Variant.codec block transaction)).iso
    messageEquiv

/-- The borsh encoding of messages, for given encodings of blocks and
transactions.  Where a string or a list has 2^32 elements or more, borsh
refuses to write it; here its encoding is above the size limit, and
`write_message` refuses it. -/
def Message.borsh : Borsh (Message P) where
  toVec := (Message.codec block transaction).encode
  tryFromSlice := (Message.codec block transaction).tryFromSlice

/-- A message that fits into an envelope is parsed back. -/
theorem sendable_of_fits {message : Message P}
    (h : 4 + ((Message.borsh block transaction).toVec message).length ≤ maxNetworkMessageSize) :
    Sendable (Message.borsh block transaction) message where
  fits := h
  roundtrip := by
    apply tryFromSlice_encode
    have hle : ((Message.codec block transaction).encode message).length ≤
        maxNetworkMessageSize := by
      exact Nat.le_trans (Nat.le_add_left _ 4) h
    exact Nat.lt_of_le_of_lt hle (by decide)

theorem length_le_toVec_peers (peers : List PeerInfo) :
    peers.length ≤ ((Message.borsh block transaction).toVec (.peers peers)).length := by
  have hpeers := length_le_flatMap_encode PeerInfo.codec (encode_ne_nil rfl) peers
  change _ ≤ (List.append _ (List.append _ (peers.flatMap PeerInfo.codec.encode))).length
  simp only [List.append_eq, List.length_append]
  omega

/-! ## Frames -/

/-- A frame that is read is the one that is written for its envelope. -/
theorem writeMessage_of_readMessage {params : ChainParams} {stream rest : List UInt8}
    {envelope : NetworkEnvelope P}
    (h : readMessage params (Message.borsh block transaction) stream = .ok (envelope, rest)) :
    ∃ pieces, writeMessage (Message.borsh block transaction) envelope = .ok pieces ∧
      stream = pieces.flatten ++ rest := by
  obtain ⟨bytes, hstream, hbytes⟩ := readMessage_ok h
  obtain ⟨hsize, hmagic, encoding, rfl, hencoding⟩ := fromBytes_ok hbytes
  obtain ⟨magic, message⟩ := envelope
  obtain rfl : magic = params.networkMagic := hmagic
  have hvec : (Message.borsh block transaction).toVec message = encoding :=
    encode_of_tryFromSlice _ hencoding
  have hsend : Sendable (Message.borsh block transaction) message := by
    apply sendable_of_fits
    rw [hvec]
    simpa using hsize
  refine ⟨_, hsend.writeMessage_eq, ?_⟩
  rw [hstream, lengthBytes, body, hvec]
  simp

/-- A message over the limit is not written. -/
theorem writeMessage_tooLarge {borsh : Borsh (Message P)} {envelope : NetworkEnvelope P}
    (h : maxNetworkMessageSize < 4 + (borsh.toVec envelope.message).length) :
    writeMessage borsh envelope = .error .messageTooLarge := by
  have hbytes : envelope.toBytes borsh = .error .messageTooLarge := by
    apply if_pos
    simpa using h
  rw [writeMessage, hbytes]
  rfl

/-- **Frames and envelopes correspond**, on whole streams.  Messages within
the limit are read back in order, up to the end of the stream; what is taken
from a stream for an envelope is what would be written for it; and of an
envelope above the limit nothing is written. -/
theorem frames_exact (params : ChainParams) :
    (∀ messages : List (Message P),
      (∀ message ∈ messages, 4 + ((Message.borsh block transaction).toVec message).length ≤
        maxNetworkMessageSize) →
      readMessages params (Message.borsh block transaction)
          (writes params (Message.borsh block transaction) messages).flatten =
        (messages.map (Message.toEnvelope params), [])) ∧
    (∀ (stream rest : List UInt8) (envelope : NetworkEnvelope P),
      readMessage params (Message.borsh block transaction) stream = .ok (envelope, rest) →
      ∃ pieces, writeMessage (Message.borsh block transaction) envelope = .ok pieces ∧
        stream = pieces.flatten ++ rest) ∧
    ∀ envelope : NetworkEnvelope P,
      maxNetworkMessageSize <
        4 + ((Message.borsh block transaction).toVec envelope.message).length →
      ∃ error, writeMessage (Message.borsh block transaction) envelope = .error error := by
  refine ⟨?_, ?_, ?_⟩
  · intro messages hfits
    have hsend : ∀ message ∈ messages, Sendable (Message.borsh block transaction) message :=
      fun message hmessage => sendable_of_fits block transaction (hfits message hmessage)
    exact readMessagesUpTo_writes hsend (length_le_writes hsend)
  · intro stream rest envelope h
    exact writeMessage_of_readMessage block transaction h
  · intro envelope hlarge
    exact ⟨_, writeMessage_tooLarge hlarge⟩

end Borsh

end Network

namespace Reference

open Codec

/-- An address is 20 bytes. -/
def Tx.codec : Codec Tx :=
  (pair (bits 20) (pair (bits 20) (pair u32 (pair u32 (pair u64 u64))))).iso
    { toFun := fun tx =>
        (tx.sender, tx.receiver, tx.amount, tx.fee, tx.nonce, tx.timestamp)
      invFun := fun (sender, receiver, amount, fee, nonce, timestamp) =>
        ⟨sender, receiver, amount, fee, nonce, timestamp⟩
      left_inv := fun _ => rfl
      right_inv := fun _ => rfl }

def Block.codec : Codec Block :=
  (pair Network.hashCodec (pair u64 (pair Network.hashCodec (pair (bits 20) (pair u32 (pair u64
    (pair Network.hashCodec (vec Tx.codec (encode_ne_nil rfl))))))))).iso
    { toFun := fun block =>
        (block.hash, block.height, block.previousHash, block.miner, block.difficulty,
          block.timestamp, block.stateRoot, block.transactions)
      invFun := fun (hash, height, previousHash, miner, difficulty, timestamp, stateRoot,
          transactions) =>
        ⟨hash, height, previousHash, miner, difficulty, timestamp, stateRoot, transactions⟩
      left_inv := fun _ => rfl
      right_inv := fun _ => rfl }

/-- Borsh of the messages with these blocks and transactions. -/
def borsh : Network.Borsh (Network.Message paqus) := Network.Message.borsh Block.codec Tx.codec

/-- A greeting, the addresses of two peers and the first block. -/
def greeting : List (Network.Message paqus) :=
  [.version (.ofLocal Network.sampleParams (some ⟨0, genesis.hash⟩)),
    .peers [⟨"10.0.0.1:3030"⟩, ⟨"10.0.0.2:3030"⟩], .block genesis]

/-- One peer for each byte of the limit. -/
def manyPeers : Network.Message paqus :=
  .peers (List.replicate Network.maxNetworkMessageSize ⟨""⟩)

end Reference

open Reference in
/-- The greeting is read back, the frame of a `Pong` is taken from a stream
that goes on, and too many peers are not written. -/
theorem Network.frames_exact_of_greeting :
    readMessages sampleParams borsh (writes sampleParams borsh greeting).flatten =
        (greeting.map (Message.toEnvelope sampleParams), []) ∧
      (∃ pieces, writeMessage borsh ⟨sampleParams.networkMagic, .pong 7⟩ = .ok pieces ∧
        [0, 0, 0, 13, 0x50, 0x41, 0x51, 0x53, 4, 7, 0, 0, 0, 0, 0, 0, 0, 0xff] =
          pieces.flatten ++ [0xff]) ∧
      ∃ error, writeMessage borsh (manyPeers.toEnvelope sampleParams) = .error error := by
  obtain ⟨hread, htaken, hlarge⟩ :=
    frames_exact (P := paqus) Block.codec Tx.codec sampleParams
  have hpong : Sendable borsh (.pong 7) := sendable_of_fits _ _ (by decide +kernel)
  have hframe : lengthBytes sampleParams borsh (.pong 7) ++
      (body sampleParams borsh (.pong 7) ++ [0xff]) =
        [0, 0, 0, 13, 0x50, 0x41, 0x51, 0x53, 4, 7, 0, 0, 0, 0, 0, 0, 0, 0xff] := by
    decide +kernel
  have hpeers : ∀ peers : List PeerInfo, maxNetworkMessageSize ≤ peers.length →
      ∃ error, writeMessage borsh (Message.toEnvelope sampleParams (.peers peers)) =
        .error error := by
    intro peers hmany
    have hlength := length_le_toVec_peers (P := paqus) Block.codec Tx.codec peers
    refine hlarge (Message.toEnvelope sampleParams (.peers peers)) ?_
    change maxNetworkMessageSize <
      4 + ((Message.borsh Block.codec Tx.codec).toVec (.peers peers)).length
    omega
  refine ⟨hread greeting (by decide +kernel), htaken _ _ _ ?_, ?_⟩
  · rw [← hframe]
    exact hpong.readMessage_frame [0xff]
  · unfold manyPeers
    exact hpeers _ (by rw [List.length_replicate])

end PaqusNode
