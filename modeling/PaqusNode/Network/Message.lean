import PaqusNode.Node.Sync

/-!
# PaqusNode.Network.Message

The messages peers exchange (`runtime/network/message.rs`) and how a node
answers them (`runtime/network/handler.rs`).  Requests carry no number and
answers do not say what they answer; a message that is not a request gets no
answer at all.
-/

namespace PaqusNode

namespace Network

/-! ## Messages -/

structure PeerInfo where
  address : String
deriving DecidableEq, Repr

structure TipInfo where
  height : UInt64
  hash : BlockHash
deriving DecidableEq, Repr

structure VersionInfo where
  protocolVersion : UInt8
  chainId : UInt16
  chainName : String
  protocolStage : String
  networkMagic : Vector UInt8 4
  tip : Option TipInfo
deriving DecidableEq, Repr

inductive RejectReason where
  | protocolVersionMismatch
  | chainMismatch
  | networkMismatch
  | invalidMessage
deriving DecidableEq, Repr

/-- `NetworkMessage`. -/
inductive Message (P : Paqus) where
  | version (version : VersionInfo)
  | verAck (version : VersionInfo)
  | reject (reason : RejectReason) (message : String)
  | ping (nonce : UInt64)
  | pong (nonce : UInt64)
  | getTip
  | tip (tip : TipInfo)
  | getBlockByHeight (height : UInt64)
  | getBlockByHash (hash : BlockHash)
  | block (block : P.Block)
  | transaction (transaction : P.SignedTransaction)
  | getPeers
  | peers (peers : List PeerInfo)

inductive NetworkError where
  | messageTooLarge
  | node (error : NodeError)
  | io (error : String)
  | serialization (error : String)
deriving DecidableEq, Repr

/-! ## Versions -/

/-- `CURRENT_CHAIN_PARAMS` of the crate, as far as messages use it. -/
structure ChainParams where
  protocolVersion : UInt8
  chainId : UInt16
  chainName : String
  protocolStage : String
  networkMagic : Vector UInt8 4

/-- `VersionInfo::local`. -/
def VersionInfo.ofLocal (params : ChainParams) (tip : Option TipInfo) : VersionInfo where
  protocolVersion := params.protocolVersion
  chainId := params.chainId
  chainName := params.chainName
  protocolStage := params.protocolStage
  networkMagic := params.networkMagic
  tip := tip

/-- `validate_compatibility`. -/
def VersionInfo.validateCompatibility (params : ChainParams) (version : VersionInfo) :
    Except RejectReason Unit :=
  if version.networkMagic ≠ params.networkMagic then .error .networkMismatch
  else if version.chainId ≠ params.chainId ∨ version.chainName ≠ params.chainName ∨
      version.protocolStage ≠ params.protocolStage then .error .chainMismatch
  else if version.protocolVersion ≠ params.protocolVersion then .error .protocolVersionMismatch
  else .ok ()

/-! ## The handler -/

variable {P : Paqus}

/-- `node.tip_height().zip(node.tip_hash())` as a `TipInfo`. -/
def localTip (s : Node P) : Option TipInfo :=
  match P.ledger.tipHeight s.ledger, P.ledger.tipHash s.ledger with
  | some height, some hash => some ⟨height, hash⟩
  | _, _ => none

/-- `handle_message`. -/
def handleMessage (params : ChainParams) (env : Env) (s : Node P) :
    Message P → Node P × Except NetworkError (Option (Message P))
  | .version version =>
      match version.validateCompatibility params with
      | .ok () => (s, .ok (some (.verAck (.ofLocal params (localTip s)))))
      | .error reason => (s, .ok (some (.reject reason "incompatible peer version")))
  | .verAck _ => (s, .ok none)
  | .reject _ _ => (s, .ok none)
  | .ping nonce => (s, .ok (some (.pong nonce)))
  | .pong _ => (s, .ok none)
  | .getTip => (s, .ok ((localTip s).map .tip))
  | .tip _ => (s, .ok none)
  | .getBlockByHeight height => (s, .ok (s.ledger.chain.blocks[height]?.map .block))
  | .getBlockByHash hash => (s, .ok ((s.cache.blockByHash hash).map .block))
  | .block block =>
      match s.applyBlock env block with
      | (s, .error e) => (s, .error (.node e))
      | (s, .ok ()) => (s, .ok none)
  | .transaction transaction =>
      match s.submitTransaction env transaction with
      | (s, .error e) => (s, .error (.node e))
      | (s, .ok _) => (s, .ok none)
  | .getPeers => (s, .ok (some (.peers [])))
  | .peers _ => (s, .ok none)

end Network

end PaqusNode
