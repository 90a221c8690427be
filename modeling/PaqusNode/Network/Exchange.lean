import PaqusNode.Network.Http

/-!
# PaqusNode.Network.Exchange

Whole exchanges of the two HTTP clients (`network.rs`, `gateway.rs`): the text
of a request, the address it goes to, and the answer.  Requests and answers
are framed alike, by lines that end in a carriage return and a line feed, an
empty line, and a body of the length that one of the lines declares in bytes.
A message framed like that is read to its end and no further, in whatever
pieces it arrives.
-/

namespace PaqusNode

namespace Http

open Str (First)

/-! ## Framing -/

/-- Lines, an empty line, and a body; over characters or bytes. -/
def framed {α : Type} (cr lf : α) (lines : List (List α)) (body : List α) : List α :=
  lines.flatMap (· ++ [cr, lf]) ++ cr :: lf :: body

/-- The lines without the end of the last. -/
def header {α : Type} (cr lf : α) : List (List α) → List α
  | [] => []
  | [line] => line
  | line :: rest => line ++ cr :: lf :: header cr lf rest

section Framed

variable {α : Type} [DecidableEq α] {cr lf : α}

/-- Text before the first carriage return is not part of the pattern. -/
theorem splitOnce_append {line : List α} (hline : cr ∉ line) (pattern text : List α) :
    Str.splitOnce (cr :: pattern) (line ++ text) =
      (Str.splitOnce (cr :: pattern) text).map fun found => (line ++ found.1, found.2) := by
  induction line with
  | nil => simp
  | cons c line ih =>
      obtain ⟨hc, hline⟩ := List.ne_and_not_mem_of_not_mem_cons hline
      have hhead : ¬(cr :: pattern <+: c :: (line ++ text)) := fun h =>
        hc (List.cons_prefix_cons.mp h).1
      rw [List.cons_append, Str.splitOnce, if_neg hhead, ih hline, Option.map_map]
      rfl

/-- The end of a line is not the end of the header if a line follows. -/
theorem splitOnce_lineEnd (hne : cr ≠ lf) {line : List α} (hline : cr ∉ line) (hfull : line ≠ [])
    (text : List α) :
    Str.splitOnce [cr, lf, cr, lf] (cr :: lf :: (line ++ text)) =
      (Str.splitOnce [cr, lf, cr, lf] (line ++ text)).map fun found =>
        (cr :: lf :: found.1, found.2) := by
  obtain ⟨c, rest, rfl⟩ := List.exists_cons_of_ne_nil hfull
  have hc : cr ≠ c := fun h => hline (h ▸ List.mem_cons_self)
  have hend : ¬([cr, lf, cr, lf] <+: cr :: lf :: (c :: rest ++ text)) := by
    simp [List.cons_prefix_cons, hc]
  have hlf : ¬([cr, lf, cr, lf] <+: lf :: (c :: rest ++ text)) := by
    simp [List.cons_prefix_cons, hne]
  rw [Str.splitOnce, if_neg hend, Str.splitOnce, if_neg hlf, Option.map_map]
  rfl

/-- **The header of a framed message ends at its empty line.** -/
theorem splitOnce_framed (hne : cr ≠ lf) {lines : List (List α)} (hlines : lines ≠ [])
    (hplain : ∀ line ∈ lines, line ≠ [] ∧ cr ∉ line) (body : List α) :
    Str.splitOnce [cr, lf, cr, lf] (framed cr lf lines body) =
      some (header cr lf lines, body) := by
  induction lines with
  | nil => exact absurd rfl hlines
  | cons line rest ih =>
      obtain ⟨-, hline⟩ := hplain line List.mem_cons_self
      have hframed : framed cr lf (line :: rest) body =
          line ++ cr :: lf :: framed cr lf rest body := by
        simp [framed]
      rw [hframed, splitOnce_append hline]
      cases rest with
      | nil => simp [framed, Str.splitOnce, header, List.cons_prefix_cons]
      | cons next rest =>
          obtain ⟨hnext, hnextcr⟩ := hplain next (by simp)
          have hnextframed : framed cr lf (next :: rest) body =
              next ++ cr :: lf :: framed cr lf rest body := by
            simp [framed]
          have hrest := ih (by simp) fun l hl => hplain l (List.mem_cons_of_mem _ hl)
          rw [hnextframed] at hrest
          rw [hnextframed, splitOnce_lineEnd hne hnextcr hnext, hrest]
          rfl

end Framed

/-! ## Framed texts -/

/-- A line of a header. -/
def PlainLine (line : List Char) : Prop := line ≠ [] ∧ '\r' ∉ line ∧ '\n' ∉ line

/-- No byte of another character is a carriage return. -/
theorem not_mem_encode {text : List Char} (h : '\r' ∉ text) : (13 : UInt8) ∉ Utf8.encode text := by
  intro hmem
  obtain ⟨char, hchar, hbyte⟩ := List.mem_flatMap.mp hmem
  have hcontinues : ¬Utf8.Continues (13 : UInt8).toNat := by
    rintro ⟨hlow, -⟩
    exact absurd hlow (by decide)
  have hsequence := Utf8.sequence_encode char
  generalize String.utf8EncodeChar char = bytes at hbyte hsequence
  cases hsequence with
  | one ha =>
      rw [List.mem_singleton] at hbyte
      subst hbyte
      exact h hchar
  | two ha hb =>
      simp only [List.mem_cons, List.not_mem_nil, or_false] at hbyte
      rcases hbyte with rfl | rfl
      · exact absurd ha.1 (by decide)
      · exact hcontinues hb.1
  | three ha hb hc =>
      simp only [List.mem_cons, List.not_mem_nil, or_false] at hbyte
      rcases hbyte with rfl | rfl | rfl
      · exact absurd ha.1 (by decide)
      · exact hcontinues hb.1
      · exact hcontinues hc
  | four ha hb hc hd =>
      simp only [List.mem_cons, List.not_mem_nil, or_false] at hbyte
      rcases hbyte with rfl | rfl | rfl | rfl
      · exact absurd ha.1 (by decide)
      · exact hcontinues hb.1
      · exact hcontinues hc
      · exact hcontinues hd

theorem encode_append (text more : List Char) :
    Utf8.encode (text ++ more) = Utf8.encode text ++ Utf8.encode more := List.flatMap_append

theorem encode_lineEnd (text : List Char) :
    Utf8.encode ('\r' :: '\n' :: text) = 13 :: 10 :: Utf8.encode text := rfl

/-- Framing the encodings is encoding the frame. -/
theorem encode_framed (lines : List (List Char)) (body : List Char) :
    Utf8.encode (framed '\r' '\n' lines body) =
      framed 13 10 (lines.map Utf8.encode) (Utf8.encode body) := by
  induction lines with
  | nil => rfl
  | cons line rest ih =>
      simp only [framed, List.flatMap_cons, List.append_assoc, List.map_cons, List.cons_append,
        List.nil_append, encode_append, encode_lineEnd] at ih ⊢
      rw [ih]

/-- The same for the header alone. -/
theorem encode_header (lines : List (List Char)) :
    Utf8.encode (header '\r' '\n' lines) = header 13 10 (lines.map Utf8.encode) := by
  fun_induction header '\r' '\n' lines with
  | case1 => rfl
  | case2 line => rfl
  | case3 line rest hrest ih =>
      obtain ⟨next, rest, rfl⟩ := List.exists_cons_of_ne_nil hrest
      rw [encode_append, encode_lineEnd, ih]
      rfl

/-- The lines of the header are the lines. -/
theorem lines_header {lines : List (List Char)} (hplain : ∀ line ∈ lines, PlainLine line) :
    Str.lines (header '\r' '\n' lines) = lines := by
  rw [Str.lines_eq_iff]
  fun_induction header '\r' '\n' lines with
  | case1 => exact .nil
  | case2 line =>
      obtain ⟨hfull, -, hlf⟩ := hplain line List.mem_cons_self
      exact .last hlf hfull
  | case3 line rest hrest ih =>
      obtain ⟨-, -, hlf⟩ := hplain line List.mem_cons_self
      exact .crlf hlf (ih fun l hl => hplain l (List.mem_cons_of_mem _ hl))

/-! ## Reading a framed text -/

/-- A text that is framed, declares the length of its body in bytes, and is no
longer than a slice can be. -/
structure Framed where
  lines : List (List Char)
  body : List Char
  nonempty : lines ≠ []
  plain : ∀ line ∈ lines, PlainLine line
  declared : lines.findSome? contentLength = some (Utf8.encode body).length
  fits : (Utf8.encode (framed '\r' '\n' lines body)).length ≤ isizeMax

namespace Framed

def text (message : Framed) : List Char := framed '\r' '\n' message.lines message.body

/-- What comes before the empty line. -/
def head (message : Framed) : List Char := header '\r' '\n' message.lines

def slice (message : Framed) : Slice := ⟨Utf8.encode message.text, message.fits⟩

theorem split (message : Framed) :
    Str.splitOnce "\r\n\r\n".toList message.text = some (message.head, message.body) :=
  splitOnce_framed (by decide) message.nonempty
    (fun line hline => ⟨(message.plain line hline).1, (message.plain line hline).2.1⟩) _

/-- The empty line ends the header. -/
theorem first (message : Framed) :
    First crlfcrlf message.slice.bytes (Utf8.encode message.head) (Utf8.encode message.body) := by
  have hsplit : Str.splitOnce [13, 10, 13, 10] (framed 13 10 (message.lines.map Utf8.encode)
      (Utf8.encode message.body)) = some (header 13 10 (message.lines.map Utf8.encode),
        Utf8.encode message.body) := by
    refine splitOnce_framed (by decide) (by simpa using message.nonempty) ?_ _
    intro bytes hbytes
    obtain ⟨line, hline, rfl⟩ := List.mem_map.mp hbytes
    obtain ⟨hfull, hcr, -⟩ := message.plain line hline
    refine ⟨fun hempty => hfull ?_, not_mem_encode hcr⟩
    have hdecode := Utf8.fromUtf8_eq_ok.mpr hempty.symm
    rw [Utf8.fromUtf8, Utf8.decodeFrom] at hdecode
    cases hdecode
    rfl
  rw [← encode_framed, ← encode_header] at hsplit
  exact Str.splitOnce_eq_some.mp hsplit

theorem declares (message : Framed) :
    Declares (Utf8.encode message.head) (Utf8.encode message.body).length :=
  declares_iff.mpr ⟨message.head, Utf8.fromUtf8_eq_ok.mpr rfl, by
    rw [head, lines_header message.plain, message.declared]⟩

/-- In whatever pieces it arrives, and whatever comes after it. -/
theorem receive (message : Framed) (client : Client) (profile : Profile) {reads : List Read}
    (hsent : Sent (Utf8.encode message.text) reads) (later : List Read) :
    client.receive profile .empty (reads ++ later) = some (.ok message.slice) := by
  refine receive_sent message.first message.declares hsent rfl ?_ later
  intro hempty
  have hlength : (Utf8.encode message.text).length = _ := message.first.length_eq
  rw [hempty, List.length_nil, show crlfcrlf.length = 4 from rfl] at hlength
  omega

theorem decode (message : Framed) (client : Client) :
    client.decode message.slice = .ok message.text := by
  have htext : Utf8.fromUtf8 message.slice.bytes = .ok message.text :=
    Utf8.fromUtf8_eq_ok.mpr rfl
  simp only [Client.decode, htext]

end Framed

/-- The client of `network.rs` takes the body. -/
theorem Framed.readHttpResponse_network (message : Framed) (profile : Profile)
    {reads : List Read} (hsent : Sent (Utf8.encode message.text) reads) (later : List Read) :
    Network.readHttpResponse profile (reads ++ later) =
      some (.ok (String.ofList message.body)) := by
  rw [Network.readHttpResponse, message.receive network profile hsent later, Option.map_some]
  simp only [bind, Except.bind, message.decode, message.split]

/-- The client of `gateway.rs` takes it if the status is 200 or 201. -/
theorem Framed.readHttpResponse_gateway (message : Framed) (profile : Profile)
    {reads : List Read} (hsent : Sent (Utf8.encode message.text) reads) (later : List Read) :
    Gateway.readHttpResponse profile (reads ++ later) =
      some (if "HTTP/1.1 200".toList <+: message.head ∨ "HTTP/1.1 201".toList <+: message.head then
          .ok (String.ofList message.body)
        else .error (.message ("gateway returned error: " ++ String.ofList message.body))) := by
  rw [Gateway.readHttpResponse, message.receive gateway profile hsent later, Option.map_some]
  simp only [bind, Except.bind, message.decode, message.split, ← List.isPrefixOf_iff_prefix]
  cases "HTTP/1.1 200".toList.isPrefixOf message.head <;>
    cases "HTTP/1.1 201".toList.isPrefixOf message.head <;> rfl

/-- Bytes that arrive in one piece. -/
theorem Sent.single {bytes : List UInt8} (h : bytes.length ≤ 4096) (hne : bytes ≠ []) :
    Sent bytes [.bytes bytes h] := by
  have hsent := Sent.cons h hne .nil
  rwa [List.append_nil] at hsent

/-! ## Requests -/

/-- The request of a POST, which is the same text in both files. -/
def postRequest (path host body : String) : String :=
  s!"POST {path} HTTP/1.1\r\nhost: {host}\r\ncontent-type: application/json\r\n" ++
    s!"content-length: {(Utf8.encode body.toList).length}\r\nconnection: close\r\n\r\n{body}"

/-- The request of a GET. -/
def getRequest (path host : String) : String :=
  s!"GET {path} HTTP/1.1\r\nhost: {host}\r\nconnection: close\r\n\r\n"

/-- A line that starts differently does not give a length. -/
theorem contentLength_of_head {c : Char} (hc : c.toLower ≠ 'c') (line : List Char) :
    contentLength (c :: line) = none := by
  rw [contentLength_eq_none]
  rintro n ⟨name, value, hfirst, hname, -⟩
  cases name with
  | nil => cases hname
  | cons d name =>
      have heq := hfirst.eq
      rw [List.cons_append, List.cons_append] at heq
      rw [← (List.cons.inj heq).1] at hname
      exact hc (List.cons.inj hname).1

/-- The decimal digits of a number are a numeral. -/
theorem numeral_toDigits {max n : Nat} (h : n ≤ max) :
    Str.Numeral max (Nat.toDigits 10 n) n := by
  refine ⟨_, .inl rfl, Nat.toDigits_ne_nil,
    fun c hc => Nat.isDigit_of_mem_toDigits (by decide) (by decide) hc, ?_, h⟩
  calc Str.decimalFrom 0 (Nat.toDigits 10 n)
      = Nat.ofDigitChars 10 (Nat.toDigits 10 n) 0 := by
        simp only [Str.decimalFrom, Nat.ofDigitChars, Nat.mul_comm]
    _ = n := Nat.ofDigitChars_toDigits (by decide) (by decide)

theorem contentLength_toDigits {n : Nat} (h : n ≤ usizeMax) :
    contentLength ("content-length".toList ++ ':' :: ' ' :: Nat.toDigits 10 n) = some n := by
  rw [contentLength_eq_some]
  refine ⟨"content-length".toList, ' ' :: Nat.toDigits 10 n, ?_, by decide, [' '],
    Nat.toDigits 10 n, [], by simp, by simp [Str.isWhitespace], nofun, numeral_toDigits h⟩
  rw [← Str.splitOnce_eq_some, splitOnce_append (by decide)]
  simp [Str.splitOnce, List.cons_prefix_cons]

/-- The lines of a POST. -/
def postLines (path host : List Char) (n : Nat) : List (List Char) :=
  ["POST ".toList ++ path ++ " HTTP/1.1".toList, "host: ".toList ++ host,
    "content-type: application/json".toList,
    "content-length".toList ++ ':' :: ' ' :: Nat.toDigits 10 n, "connection: close".toList]

theorem toList_postRequest (path host body : String) :
    (postRequest path host body).toList = framed '\r' '\n'
      (postLines path.toList host.toList (Utf8.encode body.toList).length) body.toList := by
  have htext : ∀ text : String, toString text = text := fun _ => rfl
  simp [postRequest, postLines, framed, htext]

/-- A request declares the length that it is given. -/
theorem findSome?_postLines (path host : List Char) {n : Nat} (h : n ≤ usizeMax) :
    (postLines path host n).findSome? contentLength = some n := by
  have htype : contentLength "content-type: application/json".toList = none := by decide
  have hpost : contentLength ("POST ".toList ++ path ++ " HTTP/1.1".toList) = none :=
    contentLength_of_head (by decide) _
  have hhost : contentLength ("host: ".toList ++ host) = none :=
    contentLength_of_head (by decide) _
  simp only [postLines, List.findSome?_cons, hpost, hhost, htype, contentLength_toDigits h]

/-- Text that can stand in a line. -/
def PlainText (text : String) : Prop := '\r' ∉ text.toList ∧ '\n' ∉ text.toList

instance (text : String) : Decidable (PlainText text) := inferInstanceAs (Decidable (_ ∧ _))

/-- The header lines of a request have no line ends in them. -/
theorem plain_postLines {path host : String} (hpath : PlainText path) (hhost : PlainText host)
    (n : Nat) : ∀ line ∈ postLines path.toList host.toList n, PlainLine line := by
  have hdigits : ∀ c, ¬c.isDigit → c ∉ Nat.toDigits 10 n := fun c hc hmem =>
    hc (Nat.isDigit_of_mem_toDigits (by decide) (by decide) hmem)
  have hcr := hdigits '\r' (by decide)
  have hlf := hdigits '\n' (by decide)
  obtain ⟨hpathcr, hpathlf⟩ := hpath
  obtain ⟨hhostcr, hhostlf⟩ := hhost
  intro line hline
  simp only [postLines, List.mem_cons, List.not_mem_nil, or_false] at hline
  rcases hline with rfl | rfl | rfl | rfl | rfl
  all_goals simp [PlainLine, hcr, hlf, hpathcr, hpathlf, hhostcr, hhostlf]

/-- The length of the body fits, since the request does. -/
theorem length_body_le {path host body : String}
    (hfits : (Utf8.encode (postRequest path host body).toList).length ≤ isizeMax) :
    (Utf8.encode body.toList).length ≤ usizeMax := by
  rw [toList_postRequest, framed, encode_append, List.length_append, encode_lineEnd,
    List.length_cons, List.length_cons] at hfits
  simp only [isizeMax, usizeMax] at hfits ⊢
  omega

theorem length_postFramed_le {path host body : String}
    (hfits : (Utf8.encode (postRequest path host body).toList).length ≤ isizeMax) :
    (Utf8.encode (framed '\r' '\n'
      (postLines path.toList host.toList (Utf8.encode body.toList).length)
      body.toList)).length ≤ isizeMax := by
  rwa [← toList_postRequest]

/-- A POST is framed. -/
def postFramed {path host body : String} (hpath : PlainText path) (hhost : PlainText host)
    (hfits : (Utf8.encode (postRequest path host body).toList).length ≤ isizeMax) : Framed where
  lines := postLines path.toList host.toList (Utf8.encode body.toList).length
  body := body.toList
  nonempty := List.cons_ne_nil _ _
  plain := plain_postLines hpath hhost _
  declared := findSome?_postLines _ _ (length_body_le hfits)
  fits := length_postFramed_le hfits

/-! ## The clients -/

/-- What the clients run on: socket addresses, and for each of them how it ends
to connect, to set the timeouts and to write a request, the last with the
reads that follow. -/
structure Wire (A : Type) where
  parseAddr : String → Except String A
  addrToString : A → String
  connect : A → Except String Unit
  configure : A → Except String Unit
  exchange : A → String → Except String (List Read)

/-- Connecting and writing the request. -/
def Client.send {A : Type} (client : Client) (wire : Wire A) (addr : A) (request : String) :
    Except Failure (List Read) := do
  (wire.connect addr).mapError fun error =>
    .message ("failed to connect " ++ client.name ++ ": " ++ error)
  (wire.configure addr).mapError .message
  (wire.exchange addr request).mapError fun error =>
    .message ("failed to write " ++ client.name ++ " request: " ++ error)

/-- The address can be reached and these reads follow the request. -/
structure Wire.Answers {A : Type} (wire : Wire A) (addr : A) (request : String)
    (reads : List Read) : Prop where
  connect : wire.connect addr = .ok ()
  configure : wire.configure addr = .ok ()
  exchange : wire.exchange addr request = .ok reads

theorem Wire.Answers.send {A : Type} {wire : Wire A} {addr : A} {request : String}
    {reads : List Read} (h : wire.Answers addr request reads) (client : Client) :
    client.send wire addr request = .ok reads := by
  rw [Client.send, h.connect, h.configure, h.exchange]
  rfl

end Http

open Http

section Network

variable {A : Type}

/-- The two functions below, `text` being the request to an address. -/
def Network.httpRequest (profile : Profile) (wire : Wire A) (addr : String)
    (text : String → String) : Option (Except Failure String) :=
  match wire.parseAddr addr with
  | .error error => some (.error (.message ("invalid rpc address: " ++ error)))
  | .ok addr =>
      match network.send wire addr (text (wire.addrToString addr)) with
      | .error failure => some (.error failure)
      | .ok reads => Network.readHttpResponse profile reads

/-- `http_post_json`. -/
def Network.httpPostJson (profile : Profile) (wire : Wire A) (addr path body : String) :
    Option (Except Failure String) :=
  Network.httpRequest profile wire addr fun host => postRequest path host body

/-- `http_get`. -/
def Network.httpGet (profile : Profile) (wire : Wire A) (addr path : String) :
    Option (Except Failure String) :=
  Network.httpRequest profile wire addr fun host => getRequest path host

/-- A request that is answered returns the body of the answer. -/
theorem Network.httpRequest_of_answer {profile : Profile} {wire : Wire A} {address : String}
    {addr : A} (hparse : wire.parseAddr address = .ok addr) {text : String → String}
    {reads later : List Read}
    (hanswers : wire.Answers addr (text (wire.addrToString addr)) (reads ++ later))
    (answer : Framed) (hsent : Sent (Utf8.encode answer.text) reads) :
    Network.httpRequest profile wire address text = some (.ok (String.ofList answer.body)) := by
  simp only [Network.httpRequest, hparse, hanswers.send]
  exact answer.readHttpResponse_network profile hsent later

/-- **An exchange with the node.**  If the answer to a POST is framed, its body
is what `http_post_json` returns, in whatever pieces it arrives and whatever
is sent after it; and the request is framed itself: who reads it by the rules
by which the clients read answers gets the body back, byte for byte, also
where a character takes more than one byte. -/
theorem Network.http_post_exact {A : Type} (profile : Profile) (wire : Wire A)
    (address path body : String) {addr : A} (hparse : wire.parseAddr address = .ok addr) :
    (∀ {reads later : List Read} (answer : Framed),
      wire.Answers addr (postRequest path (wire.addrToString addr) body) (reads ++ later) →
      Sent (Utf8.encode answer.text) reads →
      Network.httpPostJson profile wire address path body =
        some (.ok (String.ofList answer.body))) ∧
    (PlainText path → PlainText (wire.addrToString addr) →
      (Utf8.encode (postRequest path (wire.addrToString addr) body).toList).length ≤ isizeMax →
      ∀ reads later : List Read,
        Sent (Utf8.encode (postRequest path (wire.addrToString addr) body).toList) reads →
        Network.readHttpResponse profile (reads ++ later) = some (.ok body)) := by
  constructor
  · exact fun answer hanswers hsent =>
      Network.httpRequest_of_answer hparse hanswers answer hsent
  · intro hpath hhost hfits reads later hsent
    rw [toList_postRequest] at hsent
    have hread := (postFramed hpath hhost hfits).readHttpResponse_network profile hsent later
    rw [hread, postFramed, String.ofList_toList]

end Network

namespace Reference

/-- An answer with an empty list. -/
def okAnswer : Framed where
  lines := ["HTTP/1.1 200 OK".toList, "Content-Length: 2".toList]
  body := "[]".toList
  nonempty := List.cons_ne_nil _ _
  plain := by simp [PlainLine]
  declared := by decide +kernel
  fits := by decide +kernel

/-- It arrives in two pieces, cut within the second line. -/
def okReads : List Read :=
  [.bytes ((Utf8.encode okAnswer.text).take 20) (by decide +kernel),
    .bytes ((Utf8.encode okAnswer.text).drop 20) (by decide +kernel)]

theorem okReads_sent : Sent (Utf8.encode okAnswer.text) okReads := by
  have hpieces : Utf8.encode okAnswer.text = (Utf8.encode okAnswer.text).take 20 ++
      ((Utf8.encode okAnswer.text).drop 20 ++ []) := by
    rw [List.append_nil, List.take_append_drop]
  rw [hpieces]
  exact .cons _ (by decide +kernel) (.cons _ (by decide +kernel) .nil)

/-- A node that always gives that answer. -/
def nodeWire : Wire Unit where
  parseAddr text :=
    if text = "127.0.0.1:6666" then .ok () else .error "invalid socket address syntax"
  addrToString _ := "127.0.0.1:6666"
  connect _ := .ok ()
  configure _ := .ok ()
  exchange _ _ := .ok okReads

theorem nodeWire_answers (request : String) : nodeWire.Answers () request (okReads ++ []) :=
  ⟨rfl, rfl, rfl⟩

/-- A request whose body has fewer characters than bytes. -/
def accentRequest : String := postRequest "/tx" "127.0.0.1:6666" "[\"é\"]"

end Reference

/-- The answer is `[]`; the request is read back with its accent. -/
theorem Network.http_post_exact_of_accent :
    Network.httpPostJson .release Reference.nodeWire "127.0.0.1:6666" "/tx" "[\"é\"]" =
        some (.ok "[]") ∧
      ∀ h, Network.readHttpResponse .release
        [Read.bytes (Utf8.encode Reference.accentRequest.toList) h] = some (.ok "[\"é\"]") := by
  have hexact := Network.http_post_exact .release Reference.nodeWire "127.0.0.1:6666" "/tx"
    "[\"é\"]" rfl
  refine ⟨hexact.1 Reference.okAnswer (Reference.nodeWire_answers _) Reference.okReads_sent, ?_⟩
  intro h
  exact hexact.2 (by decide +kernel) (by decide +kernel) (by decide +kernel) [.bytes _ h] []
    (.single h (by decide +kernel))

end PaqusNode
