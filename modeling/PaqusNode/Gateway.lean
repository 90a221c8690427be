import PaqusNode.Keys
import PaqusNode.Network.Exchange
import PaqusNode.Network.Message

/-!
# PaqusNode.Gateway

The client of the gateway (`gateway.rs`): where a gateway URL leads, the
requests that register a node and ask for peers, and what is made of the
answers.  A URL is an address, perhaps with a scheme before it and slashes
after it; all its forms lead to the same requests.
-/

namespace PaqusNode

namespace Gateway

open Http Network

/-! ## URLs -/

/-- `strip_prefix`. -/
def withoutScheme (scheme url : List Char) : Option (List Char) :=
  if scheme <+: url then some (url.drop scheme.length) else none

/-- What is left of a URL without its scheme and the slashes at its end. -/
def endpointText (url : List Char) : List Char :=
  (((withoutScheme "http://".toList url).or (withoutScheme "https://".toList url)).getD
    url).rdropWhile (· == '/')

variable {A : Type}

/-- `GatewayEndpoint::parse`. -/
def parseEndpoint (wire : Wire A) (url : String) : Except String A :=
  if '/' ∈ endpointText url.toList then
    .error "gateway url path is not supported; use host:port"
  else
    (wire.parseAddr (String.ofList (endpointText url.toList))).mapError fun error =>
      s!"invalid gateway address `{url}`: {error}"

/-! ## Requests -/

/-- `get`. -/
def get (profile : Profile) (wire : Wire A) (url path : String) :
    Option (Except Failure String) :=
  match parseEndpoint wire url with
  | .error error => some (.error (.message error))
  | .ok addr =>
      match gateway.send wire addr (getRequest path (wire.addrToString addr)) with
      | .error failure => some (.error failure)
      | .ok reads => Gateway.readHttpResponse profile reads

/-- `post_json`, `encoded` being what `serde_json` makes of the value. -/
def postJson (profile : Profile) (wire : Wire A) (url path : String)
    (encoded : Except String String) : Option (Except Failure String) :=
  match parseEndpoint wire url with
  | .error error => some (.error (.message error))
  | .ok addr =>
      match encoded with
      | .error error => some (.error (.message ("failed to encode gateway request: " ++ error)))
      | .ok body =>
          match gateway.send wire addr (postRequest path (wire.addrToString addr) body) with
          | .error failure => some (.error failure)
          | .ok reads => Gateway.readHttpResponse profile reads

/-- `RegisterRequest`. -/
structure RegisterRequest where
  peerId : Option String
  address : String
  chainId : UInt16
  chainName : String
  protocolStage : String
  protocolVersion : UInt8
  networkMagic : String
  bestHeight : Option UInt64
  tipHash : Option String

/-- `HeartbeatRequest`. -/
structure HeartbeatRequest where
  peerId : Option String
  address : String
  bestHeight : Option UInt64
  tipHash : Option String

/-- What `serde_json` does with the records of the gateway; an answer is the
addresses of its peers. -/
structure Json where
  register : RegisterRequest → Except String String
  heartbeat : HeartbeatRequest → Except String String
  peers : String → Except String (List String)

/-- `network_magic_hex`. -/
def networkMagicHex (params : ChainParams) : String := Keys.formatArray params.networkMagic

/-- The two functions below: the body of the answer is dropped. -/
def update (profile : Profile) (wire : Wire A) (url path : String)
    (encoded : Except String String) : Option (Except Failure Unit) :=
  (postJson profile wire url path encoded).map fun answer => answer.map fun _ => ()

/-- `register_peer`. -/
def registerPeer (profile : Profile) (wire : Wire A) (json : Json) (params : ChainParams)
    (url : String) (publicAddr : A) (bestHeight : Option UInt64) (tipHash : Option String) :
    Option (Except Failure Unit) :=
  update profile wire url "/v1/node/register" (json.register
    { peerId := none
      address := wire.addrToString publicAddr
      chainId := params.chainId
      chainName := params.chainName
      protocolStage := params.protocolStage
      protocolVersion := params.protocolVersion
      networkMagic := networkMagicHex params
      bestHeight := bestHeight
      tipHash := tipHash })

/-- `heartbeat_peer`. -/
def heartbeatPeer (profile : Profile) (wire : Wire A) (json : Json) (url : String)
    (publicAddr : A) (bestHeight : Option UInt64) (tipHash : Option String) :
    Option (Except Failure Unit) :=
  update profile wire url "/v1/node/heartbeat" (json.heartbeat
    { peerId := none
      address := wire.addrToString publicAddr
      bestHeight := bestHeight
      tipHash := tipHash })

/-- The path of the query for peers. -/
def peersPath (params : ChainParams) (limit : Nat) (exclude : Option String) : String :=
  s!"/v1/peers?chain_id={params.chainId}&chain_name={params.chainName}" ++
    s!"&protocol_stage={params.protocolStage}&protocol_version={params.protocolVersion}" ++
    s!"&network_magic={networkMagicHex params}&limit={limit}" ++
    (exclude.map ("&exclude=" ++ ·)).getD ""

/-- `request_gateway_peers`. -/
def requestGatewayPeers (profile : Profile) (wire : Wire A) (json : Json) (params : ChainParams)
    (url : String) (limit : Nat) (exclude : Option A) :
    Option (Except Failure (List PeerInfo)) :=
  (get profile wire url (peersPath params limit (exclude.map wire.addrToString))).map
    fun answer => do
      let body ← answer
      match json.peers body with
      | .error error =>
          .error (.message s!"failed to parse gateway peers response: {error}: {body}")
      | .ok peers => .ok (peers.map PeerInfo.mk)

/-! ## The forms of a URL -/

/-- The text of an address in a URL: it has no slash, and does not end like a
scheme. -/
structure Plain (address : List Char) : Prop where
  noSlash : '/' ∉ address
  noColon : address.getLast? ≠ some ':'

/-- What comes before the first slash. -/
theorem takeWhile_slash {text : List Char} (htext : '/' ∉ text) (rest : List Char)
    (hrest : ∀ c ∈ rest.head?, c = '/') : (text ++ rest).takeWhile (· != '/') = text := by
  rw [List.takeWhile_append_of_pos fun c hc => by
    simpa using fun hslash : c = '/' => htext (hslash ▸ hc)]
  cases rest with
  | nil => rw [List.takeWhile_nil, List.append_nil]
  | cons c rest =>
      have hc : c = '/' := hrest c rfl
      rw [hc, List.takeWhile_cons_of_neg (by simp), List.append_nil]

namespace Plain

variable {address : List Char}

/-- The slashes after an address do not make it a scheme: what comes before
them would be the address, and end in a colon. -/
theorem not_scheme (h : Plain address) (name : List Char) (hname : '/' ∉ name)
    (hcolon : name.getLast? = some ':') (slashes : Nat) :
    ¬(name ++ ['/', '/'] <+: address ++ List.replicate slashes '/') := by
  rintro ⟨rest, heq⟩
  have hleft := takeWhile_slash hname (['/', '/'] ++ rest) (by simp)
  have hright := takeWhile_slash h.noSlash (List.replicate slashes '/') fun c hc =>
    List.eq_of_mem_replicate (List.mem_of_mem_head? hc)
  rw [← List.append_assoc, heq, hright] at hleft
  exact h.noColon (hleft ▸ hcolon)

/-- The slashes after an address are dropped, and nothing of the address. -/
theorem rdropWhile (h : Plain address) (slashes : Nat) :
    (address ++ List.replicate slashes '/').rdropWhile (· == '/') = address := by
  rw [List.rdropWhile, List.reverse_append, List.dropWhile_append_of_pos, ← List.rdropWhile,
    List.rdropWhile_eq_self_iff]
  · intro hne hslash
    refine h.noSlash ?_
    rw [← beq_iff_eq.mp hslash]
    exact List.getLast_mem hne
  · intro c hc
    rw [List.reverse_replicate] at hc
    exact beq_iff_eq.mpr (List.eq_of_mem_replicate hc)

end Plain

theorem withoutScheme_append (scheme rest : List Char) :
    withoutScheme scheme (scheme ++ rest) = some rest := by
  rw [withoutScheme, if_pos (List.prefix_append _ _), List.drop_left]

/-- The two schemes that are taken off, and none. -/
def schemes : List String := ["", "http://", "https://"]

/-- A URL in one of its forms. -/
def urlOf (scheme address : String) (slashes : Nat) : String :=
  scheme ++ address ++ String.ofList (List.replicate slashes '/')

/-- With a scheme or without, and with any number of slashes. -/
theorem endpointText_urlOf {scheme address : String} (hscheme : scheme ∈ schemes)
    (h : Plain address.toList) (slashes : Nat) :
    endpointText (urlOf scheme address slashes).toList = address.toList := by
  simp only [urlOf, String.toList_append, String.toList_ofList, List.append_assoc]
  simp only [schemes, List.mem_cons, List.not_mem_nil, or_false] at hscheme
  rcases hscheme with rfl | rfl | rfl
  · have hhttp : ¬("http://".toList <+: address.toList ++ List.replicate slashes '/') :=
      h.not_scheme "http:".toList (by decide) (by decide) slashes
    have hhttps : ¬("https://".toList <+: address.toList ++ List.replicate slashes '/') :=
      h.not_scheme "https:".toList (by decide) (by decide) slashes
    rw [String.toList_empty, List.nil_append, endpointText, withoutScheme, withoutScheme,
      if_neg hhttp, if_neg hhttps, Option.or_none, Option.getD_none, h.rdropWhile]
  · rw [endpointText, withoutScheme_append, Option.some_or, Option.getD_some, h.rdropWhile]
  · have hhttp : withoutScheme "http://".toList
        ("https://".toList ++ (address.toList ++ List.replicate slashes '/')) = none :=
      if_neg (by simp [List.cons_prefix_cons])
    rw [endpointText, hhttp, withoutScheme_append, Option.none_or, Option.getD_some,
      h.rdropWhile]

/-- Every form of a URL leads to the address. -/
theorem parseEndpoint_urlOf {wire : Wire A} {scheme address : String} {addr : A}
    (hscheme : scheme ∈ schemes) (h : Plain address.toList)
    (hparse : wire.parseAddr address = .ok addr) (slashes : Nat) :
    parseEndpoint wire (urlOf scheme address slashes) = .ok addr := by
  rw [parseEndpoint, endpointText_urlOf hscheme h, if_neg h.noSlash, String.ofList_toList, hparse]
  rfl

/-! ## Answers -/

/-- The statuses that count as success. -/
def Accepted (answer : Framed) : Prop :=
  "HTTP/1.1 200".toList <+: answer.head ∨ "HTTP/1.1 201".toList <+: answer.head

instance (answer : Framed) : Decidable (Accepted answer) := inferInstanceAs (Decidable (_ ∨ _))

/-- What the client makes of an answer. -/
def answered (answer : Framed) : Except Failure String :=
  if Accepted answer then .ok (String.ofList answer.body)
  else .error (.message ("gateway returned error: " ++ String.ofList answer.body))

theorem get_of_answer (profile : Profile) {wire : Wire A} {url path : String} {addr : A}
    (hurl : parseEndpoint wire url = .ok addr) {reads later : List Read}
    (hanswers : wire.Answers addr (getRequest path (wire.addrToString addr)) (reads ++ later))
    (answer : Framed) (hsent : Sent (Utf8.encode answer.text) reads) :
    get profile wire url path = some (answered answer) := by
  simp only [get, hurl, hanswers.send]
  exact answer.readHttpResponse_gateway profile hsent later

/-- **What a gateway tells a node.**  Every form of its URL leads to the same
query.  A framed answer with status 200 or 201 whose body lists peers gives
these peers, in whatever pieces it arrives and whatever is sent after it, and
one with another status gives its body as the error and no peers. -/
theorem gateway_peers_learned {A : Type} (profile : Profile) (wire : Wire A) (json : Json)
    (params : ChainParams) {scheme address : String} {addr : A} (hscheme : scheme ∈ schemes)
    (haddress : Plain address.toList) (hparse : wire.parseAddr address = .ok addr)
    (slashes limit : Nat) (exclude : Option A) {reads later : List Read} (answer : Framed)
    (hanswers : wire.Answers addr
      (getRequest (peersPath params limit (exclude.map wire.addrToString))
        (wire.addrToString addr)) (reads ++ later))
    (hsent : Sent (Utf8.encode answer.text) reads) :
    (∀ peers, Accepted answer → json.peers (String.ofList answer.body) = .ok peers →
      requestGatewayPeers profile wire json params (urlOf scheme address slashes) limit exclude =
        some (.ok (peers.map PeerInfo.mk))) ∧
    (¬Accepted answer →
      requestGatewayPeers profile wire json params (urlOf scheme address slashes) limit exclude =
        some (.error (.message
          ("gateway returned error: " ++ String.ofList answer.body)))) := by
  have hget := get_of_answer profile (parseEndpoint_urlOf hscheme haddress hparse slashes)
    hanswers answer hsent
  constructor
  · intro peers haccepted hpeers
    rw [requestGatewayPeers, hget, answered, if_pos haccepted, Option.map_some]
    simp only [bind, Except.bind, hpeers]
  · intro hrefused
    rw [requestGatewayPeers, hget, answered, if_neg hrefused, Option.map_some]
    rfl

end Gateway

namespace Reference

open Http Network

/-- A gateway's answer with one peer. -/
def peersAnswer : Framed where
  lines := ["HTTP/1.1 200 OK".toList, "content-length: 39".toList]
  body := "\x7b\"peers\":[\x7b\"address\":\"10.0.0.1:7777\"\x7d]\x7d".toList
  nonempty := List.cons_ne_nil _ _
  plain := by simp [PlainLine]
  declared := by decide +kernel
  fits := by decide +kernel

def peersReads : List Read := [.bytes (Utf8.encode peersAnswer.text) (by decide +kernel)]

theorem peersReads_sent : Sent (Utf8.encode peersAnswer.text) peersReads :=
  .single _ (by decide +kernel)

/-- A gateway that always gives that answer. -/
def gatewayWire : Wire Unit where
  parseAddr text :=
    if text = "127.0.0.1:8080" then .ok () else .error "invalid socket address syntax"
  addrToString _ := "127.0.0.1:8080"
  connect _ := .ok ()
  configure _ := .ok ()
  exchange _ _ := .ok peersReads

theorem gatewayWire_answers (request : String) :
    gatewayWire.Answers () request (peersReads ++ []) := ⟨rfl, rfl, rfl⟩

/-- A parser that knows that answer. -/
def gatewayJson : Gateway.Json where
  register _ := .ok ""
  heartbeat _ := .ok ""
  peers body :=
    if body = String.ofList peersAnswer.body then .ok ["10.0.0.1:7777"]
    else .error "expected value"

theorem gatewayJson_peers :
    gatewayJson.peers (String.ofList peersAnswer.body) = .ok ["10.0.0.1:7777"] := by
  simp [gatewayJson]

def gatewayParams : ChainParams where
  protocolVersion := 1
  chainId := 1
  chainName := "paqus"
  protocolStage := "testnet"
  networkMagic := ⟨#[1, 2, 3, 4], rfl⟩

end Reference

/-- A URL with a scheme and two slashes. -/
theorem Gateway.gateway_peers_learned_of_https :
    Gateway.requestGatewayPeers .release Reference.gatewayWire Reference.gatewayJson
        Reference.gatewayParams (Gateway.urlOf "https://" "127.0.0.1:8080" 2) 32 none =
      some (.ok [⟨"10.0.0.1:7777"⟩]) := by
  have hurl : "https://" ∈ Gateway.schemes := by decide
  have hplain : Gateway.Plain "127.0.0.1:8080".toList := ⟨by decide, by decide⟩
  have hparse : Reference.gatewayWire.parseAddr "127.0.0.1:8080" = .ok () := rfl
  have hlearned := Gateway.gateway_peers_learned .release Reference.gatewayWire
    Reference.gatewayJson Reference.gatewayParams hurl hplain hparse 2 32 none
    Reference.peersAnswer (Reference.gatewayWire_answers _) Reference.peersReads_sent
  exact hlearned.1 ["10.0.0.1:7777"] (by decide +kernel) Reference.gatewayJson_peers

end PaqusNode
