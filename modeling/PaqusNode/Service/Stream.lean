import Mathlib.Data.List.Destutter
import Mathlib.Data.List.Sort
import PaqusNode.Base.Pairing
import PaqusNode.Network.Transport
import PaqusNode.Service.Peers

/-!
# PaqusNode.Service.Stream

An accepted connection between two nodes (`main.rs`, `network.rs`).  The
thread of the connection answers the messages of the client one after the
other, `None` being no answer at all, while every thread of the node may
broadcast a block or a transaction on the same socket.  The client's
`request_on_stream` takes whatever message comes next.
-/

namespace PaqusNode

open Network

namespace Service

variable {P : Paqus} {A : Type} [Ord A] [Std.TransOrd A]

/-! ## The thread of a connection -/

/-- `peer_infos_from`. -/
def NodeService.peerInfosFrom (render : A → String) (s : NodeService P A) : List PeerInfo :=
  let infos := (s.peers.keys ++ s.config.publicAddrs).map fun addr => ⟨render addr⟩
  let sorted := infos.insertionSort fun left right => left.address ≤ right.address
  sorted.destutter fun left right => left.address ≠ right.address

variable [DecidableEq A]

/-- What the loop of `handle_p2p_stream_task` does with a message it has read,
at the instant `now`. -/
def NodeService.handleP2pMessage (params : ChainParams) (env : Env) (parse : String → Option A)
    (render : A → String) (now : Nat) (s : NodeService P A) :
    Message P → NodeService P A × Except NetworkError (Option (Message P))
  | .getPeers => (s, .ok (some (.peers (s.peerInfosFrom render))))
  | .peers infos => (s.addPeerInfos parse now infos, .ok none)
  | message =>
      let (node, response) := handleMessage params env s.node message
      ({ s with node := node }, response)

/-- The messages a node sends to a peer without reading an answer: its own
addresses after the handshake, and what it broadcasts. -/
def isPush : Message P → Bool
  | .peers _ => true
  | .block _ => true
  | .transaction _ => true
  | _ => false

/-- What is broadcast on the connections of `inbound_connections`. -/
def isBroadcast : Message P → Bool
  | .block _ => true
  | .transaction _ => true
  | _ => false

/-- `sync_peers` ignores the error of `request_peers_connection` and leaves the
connection in its table; it removes it when any other request fails. -/
def keepsConnection : Message P → Bool
  | .getPeers => true
  | _ => false

/-- Nothing that is sent without reading an answer gets one. -/
theorem handleP2pMessage_push (params : ChainParams) (env : Env) (parse : String → Option A)
    (render : A → String) (now : Nat) (s : NodeService P A) (message : Message P)
    (hpush : isPush message = true) (response : Message P) :
    (s.handleP2pMessage params env parse render now message).2 ≠ .ok (some response) := by
  cases message with
  | peers infos => exact nofun
  | block block =>
      rcases happly : s.node.applyBlock env block with ⟨node, _ | _⟩ <;>
        simp [NodeService.handleP2pMessage, handleMessage, happly]
  | transaction transaction =>
      rcases hsubmit : s.node.submitTransaction env transaction with ⟨node, _ | _⟩ <;>
        simp [NodeService.handleP2pMessage, handleMessage, hsubmit]
  | _ => cases hpush

/-- The two sides of an accepted connection. -/
def p2pStream (params : ChainParams) (env : Env) (parse : String → Option A)
    (render : A → String) :
    Pairing.Sides Nat (NodeService P A) (Message P) (Message P) NetworkError where
  serve now s message := s.handleP2pMessage params env parse render now message
  isPush := isPush
  keeps := keepsConnection
  isBroadcast := isBroadcast
  push_silent now s message := handleP2pMessage_push params env parse render now s message

/-! ## Requests and answers -/

open Pairing (Connection)

/-- **Answers are paired with requests when nothing else is on the way.**  On
every run of a new connection on which nothing is broadcast while the client
has the connection, and a `GetPeers` that fails is not answered afterwards,
what `request_on_stream` returns for a request is the reply that the thread of
the connection produced for it. -/
theorem answers_paired {params : ChainParams} {env : Env} {parse : String → Option A}
    {render : A → String} {s : NodeService P A} {c : Connection (NodeService P A) (Message P) _}
    {events : List (Pairing.Event Nat (NodeService P A) (Message P) (Message P))}
    (horderly : (Connection.opened s).OrderlyRun (p2pStream params env parse render) events)
    (hrun : (Connection.opened s).run (p2pStream params env parse render) events = some c) :
    c.Paired :=
  Connection.paired_of_orderlyRun horderly hrun

/-- Two messages for one request that can be told apart are not paired. -/
theorem not_paired_of_ne {σ Req Msg β : Type} {c : Connection σ Req Msg} (label : Msg → β)
    {i : Nat} {a b : β}
    (hanswer : (i, a) ∈ c.answers.map fun answer => (answer.1, label answer.2))
    (hreply : (i, b) ∈ c.replies.map fun reply => (reply.1, label reply.2)) (hne : b ≠ a) :
    ¬ c.Paired := by
  intro hpaired
  obtain ⟨⟨j, m⟩, hm, heq⟩ := List.mem_map.mp hanswer
  obtain ⟨⟨k, r⟩, hr, heq'⟩ := List.mem_map.mp hreply
  obtain ⟨rfl, rfl⟩ := Prod.mk.inj heq
  obtain ⟨rfl, rfl⟩ := Prod.mk.inj heq'
  exact hne (congrArg label ((hpaired _ m hm r).mp hr))

end Service

namespace Reference

open Service Pairing

/-- A connection to a node that has only the first block. -/
def newConnection : Connection (NodeService paqus Nat) (Message paqus) (Message paqus) :=
  .opened (NodeService.new genesisNode peerConfig 0)

/-- The sides of the connection. -/
def stream : Sides Nat (NodeService paqus Nat) (Message paqus) (Message paqus) NetworkError :=
  p2pStream sampleParams calm String.toNat? toString

/-- The client asks for a block, and another block is broadcast before the
answer. -/
def overtaken : List (Pairing.Event Nat (NodeService paqus Nat) (Message paqus) (Message paqus)) :=
  [.request (.getBlockByHeight 0), .broadcast (.block { genesis with hash := 2 }), .serve 0,
    .receive]

/-- The answer to `GetPeers` comes after the client has stopped to wait. -/
def late : List (Pairing.Event Nat (NodeService paqus Nat) (Message paqus) (Message paqus)) :=
  [.request .getPeers, .fail, .request .getTip, .serve 0, .receive, .serve 0]

/-- The hash of a block that is sent. -/
def sentBlock : Message paqus → Option BlockHash
  | .block block => some block.hash
  | _ => none

/-- Whether addresses are sent. -/
def sentPeers : Message paqus → Bool
  | .peers _ => true
  | _ => false

end Reference

namespace Service

open Pairing (Connection)

/-- Without a broadcast the client gets what it asks for, one request after
the other. -/
theorem answers_paired_of_requests :
    ∃ c, Reference.newConnection.run Reference.stream
        [.request (.getBlockByHeight 0), .serve 0, .receive, .request .getPeers, .serve 0,
          .receive] = some c ∧
      (c.answers.map fun answer => (answer.1, Reference.sentBlock answer.2)) =
        [(0, some 1), (1, none)] ∧ c.Paired := by
  refine ⟨_, (Option.some_get (by decide +kernel)).symm, by decide +kernel, ?_⟩
  refine answers_paired ?_ (Option.some_get (by decide +kernel)).symm
  exact ⟨trivial, fun _ _ => ⟨trivial, fun _ _ => ⟨trivial, fun _ _ => ⟨trivial, fun _ _ =>
    ⟨trivial, fun _ _ => ⟨trivial, fun _ _ => trivial⟩⟩⟩⟩⟩⟩

/-- **A broadcast is taken for the answer**, and so is a late answer to
`GetPeers`. -/
theorem answer_of_other_request :
    (∃ c, Reference.newConnection.run Reference.stream Reference.overtaken = some c ∧
      ¬ c.Paired) ∧
    ∃ c, Reference.newConnection.run Reference.stream Reference.late = some c ∧
      ¬ c.Paired := by
  constructor
  · refine ⟨_, (Option.some_get (by decide +kernel)).symm, ?_⟩
    refine not_paired_of_ne Reference.sentBlock (i := 0) (a := some 2) (b := some 1) ?_ ?_ ?_ <;>
      decide +kernel
  · refine ⟨_, (Option.some_get (by decide +kernel)).symm, ?_⟩
    refine not_paired_of_ne Reference.sentPeers (i := 1) (a := true) (b := false) ?_ ?_ ?_ <;>
      decide +kernel

end Service

end PaqusNode
