import PaqusNode.Base.Saturating
import PaqusNode.Base.Str
import PaqusNode.Base.Utf8

/-!
# PaqusNode.Network.Http

The HTTP clients of `network.rs` and `gateway.rs`: reading a response off the
connection, piece by piece, until `response_body_complete` says that it is
all there.  The two files have a copy each of the same functions; they differ
in the texts of their errors, and in what they make of the response once it
is read.
-/

namespace PaqusNode

open Str (First Lines Numeral)

namespace Http

/-! ## The completion check -/

/-- `isize::MAX`, which no slice is longer than. -/
def isizeMax : Nat := 2 ^ 63 - 1

/-- A byte slice. -/
structure Slice where
  bytes : List UInt8
  length_le : bytes.length ≤ isizeMax

/-- What an addition that overflows does: a `debug` build panics, a `release`
build wraps. -/
inductive Profile where
  | debug
  | release
deriving DecidableEq, Repr

/-- A call that does not return a value. -/
inductive Failure where
  | message (text : String)
  | panicked
deriving DecidableEq, Repr

/-- `+` on `usize`. -/
def Profile.add (profile : Profile) (a b : Nat) : Except Failure Nat :=
  if a + b ≤ usizeMax then .ok (a + b)
  else
    match profile with
    | .debug => .error .panicked
    | .release => .ok ((a + b) % (usizeMax + 1))

/-- `b"\r\n\r\n"`. -/
def crlfcrlf : List UInt8 := [13, 10, 13, 10]

/-- `content_length`. -/
def contentLength (line : List Char) : Option Nat := do
  let (name, value) ← Str.splitOnce [':'] line
  if Str.eqIgnoreAsciiCase name "content-length".toList then
    Str.parse usizeMax (Str.trim value)
  else none

/-- The texts in which the two clients differ. -/
structure Client where
  name : String
  timedOut : String

def Client.headersError (client : Client) (error : Utf8.Error) : String :=
  "failed to decode " ++ client.name ++ " response headers: " ++ error.display

/-- `response_body_complete`. -/
def Client.responseBodyComplete (client : Client) (profile : Profile) (response : Slice) :
    Except Failure Bool :=
  match (Str.windows 4 response.bytes).findIdx? (· == crlfcrlf) with
  | none => .ok false
  | some headerEnd =>
      match Utf8.fromUtf8 (response.bytes.take headerEnd) with
      | .error error => .error (.message (client.headersError error))
      | .ok headers =>
          match (Str.lines headers).findSome? contentLength with
          | none => .ok false
          | some contentLength => do
              let bodyStart ← profile.add headerEnd 4
              let bodyEnd ← profile.add bodyStart contentLength
              return decide (bodyEnd ≤ response.bytes.length)

def network : Client := ⟨"rpc", "timed out waiting for node response"⟩

def gateway : Client := ⟨"gateway", "timed out waiting for response"⟩

end Http

/-- `response_body_complete` of `network.rs`. -/
def Network.responseBodyComplete (profile : Http.Profile) (response : Http.Slice) :
    Except Http.Failure Bool :=
  Http.network.responseBodyComplete profile response

/-- `response_body_complete` of `gateway.rs`. -/
def Gateway.responseBodyComplete (profile : Http.Profile) (response : Http.Slice) :
    Except Http.Failure Bool :=
  Http.gateway.responseBodyComplete profile response

namespace Http

/-! ## What a complete response is -/

/-- A header line that gives the length `n`: the name before the first colon,
in any case, and after it a numeral between blanks. -/
def ContentLength (line : List Char) (n : Nat) : Prop :=
  ∃ name value, First [':'] line name value ∧
    name.map Char.toLower = "content-length".toList ∧
    ∃ left numeral right, value = left ++ numeral ++ right ∧
      (∀ c ∈ left, Str.isWhitespace c) ∧ (∀ c ∈ right, Str.isWhitespace c) ∧
      Numeral usizeMax numeral n

/-- The header is UTF-8 and `n` is what the first of its lines that gives a
length gives. -/
def Declares (header : List UInt8) (n : Nat) : Prop :=
  ∃ text before line after, header = Utf8.encode text ∧ Lines text (before ++ line :: after) ∧
    (∀ earlier ∈ before, ∀ m, ¬ContentLength earlier m) ∧ ContentLength line n

/-- The response has a header, ended by the first empty line, that declares a
length, and at least as many bytes after it. -/
def Complete (response : List UInt8) : Prop :=
  ∃ header body n, First crlfcrlf response header body ∧ Declares header n ∧ n ≤ body.length

/-- The end of the body, as the header declares it, is no `usize`. -/
def Overflows (response : List UInt8) : Prop :=
  ∃ header body n, First crlfcrlf response header body ∧ Declares header n ∧
    usizeMax < header.length + 4 + n

theorem contentLength_eq_some {line : List Char} {n : Nat} :
    contentLength line = some n ↔ ContentLength line n := by
  have hname : "content-length".toList.map Char.toLower = "content-length".toList := by decide
  simp only [contentLength, Option.bind_eq_bind, Option.bind_eq_some_iff, Prod.exists,
    Str.splitOnce_eq_some, Option.ite_none_right_eq_some, Str.eqIgnoreAsciiCase, beq_iff_eq, hname,
    Str.parse_trim_eq_some]
  rfl

theorem contentLength_eq_none {line : List Char} :
    contentLength line = none ↔ ∀ n, ¬ContentLength line n := by
  simp only [← contentLength_eq_some, Option.eq_none_iff_forall_ne_some, ne_eq]

/-- A header declares what the first line with a length says. -/
theorem declares_iff {header : List UInt8} {n : Nat} : Declares header n ↔
    ∃ text, Utf8.fromUtf8 header = .ok text ∧
      (Str.lines text).findSome? contentLength = some n := by
  simp only [Utf8.fromUtf8_eq_ok, List.findSome?_eq_some_iff, contentLength_eq_some,
    contentLength_eq_none, Str.lines_eq_iff]
  constructor
  · rintro ⟨text, before, line, after, htext, hlines, hbefore, hline⟩
    exact ⟨text, htext, before, line, after, hlines, hline, hbefore⟩
  · rintro ⟨text, htext, before, line, after, hlines, hline, hbefore⟩
    exact ⟨text, before, line, after, htext, hlines, hbefore, hline⟩

theorem Declares.unique {header : List UInt8} {n m : Nat} (hn : Declares header n)
    (hm : Declares header m) : n = m := by
  obtain ⟨text, htext, hn⟩ := declares_iff.mp hn
  obtain ⟨text', htext', hm⟩ := declares_iff.mp hm
  cases htext.symm.trans htext'
  exact Option.some.inj (hn.symm.trans hm)

theorem ContentLength.le {line : List Char} {n : Nat} (h : ContentLength line n) :
    n ≤ usizeMax := by
  obtain ⟨name, value, -, -, left, numeral, right, -, -, -, hnumeral⟩ := h
  exact Numeral.le hnumeral

theorem Declares.le {header : List UInt8} {n : Nat} (h : Declares header n) : n ≤ usizeMax := by
  obtain ⟨text, before, line, after, -, -, -, hline⟩ := h
  exact hline.le

section Check

variable {client : Client} {profile : Profile} {response : Slice} {header body : List UInt8}
  {n : Nat}

theorem Profile.add_eq_ok {a b : Nat} (h : a + b ≤ usizeMax) : profile.add a b = .ok (a + b) :=
  if_pos h

theorem Profile.add_of_lt {a b : Nat} (h : usizeMax < a + b) : profile.add a b =
    match profile with
    | .debug => .error .panicked
    | .release => .ok ((a + b) % (usizeMax + 1)) :=
  if_neg (Nat.not_le.mpr h)

/-- An addition has no message. -/
theorem Profile.map_add_ne_message {β : Type} {a b : Nat} {f : Nat → β} (text : String) :
    (profile.add a b).map f ≠ .error (.message text) := by
  by_cases h : a + b ≤ usizeMax
  · rw [Profile.add_eq_ok h]
    nofun
  · rw [Profile.add_of_lt (by omega)]
    cases profile <;> nofun

theorem take_header (hfirst : First crlfcrlf response.bytes header body) :
    response.bytes.take header.length = header := by
  rw [hfirst.eq, List.append_assoc, List.take_left]

/-- The check of a response whose header declares a length. -/
theorem responseBodyComplete_of_declares (hfirst : First crlfcrlf response.bytes header body)
    (hn : Declares header n) :
    client.responseBodyComplete profile response =
      (profile.add (header.length + 4) n).map fun bodyEnd =>
        decide (bodyEnd ≤ response.bytes.length) := by
  obtain ⟨text, htext, hlines⟩ := declares_iff.mp hn
  have hposition : (Str.windows 4 response.bytes).findIdx? (· == crlfcrlf) = some header.length :=
    Str.windows_position.mpr ⟨header, body, hfirst, rfl⟩
  -- the first of the two additions stays within the slice
  have hstart : profile.add header.length 4 = .ok (header.length + 4) := by
    refine Profile.add_eq_ok ?_
    have := response.length_le
    rw [hfirst.length_eq] at this
    simp only [isizeMax, crlfcrlf, List.length_cons, usizeMax] at this ⊢
    omega
  simp only [Client.responseBodyComplete, hposition, take_header hfirst, htext, hlines, hstart,
    bind, Except.bind]
  cases profile.add (header.length + 4) n <;> rfl

/-- The check of a response without one: no client finds anything wrong but
with the encoding of the header. -/
theorem responseBodyComplete_of_not_declares (profile : Profile)
    (h : ¬∃ header body n, First crlfcrlf response.bytes header body ∧ Declares header n) :
    (∀ client : Client, client.responseBodyComplete profile response = .ok false) ∨
      ∃ error, ∀ client : Client, client.responseBodyComplete profile response =
        .error (.message (client.headersError error)) := by
  cases hposition : (Str.windows 4 response.bytes).findIdx? (· == crlfcrlf) with
  | none =>
      left
      intro client
      simp only [Client.responseBodyComplete, hposition]
  | some headerEnd =>
      obtain ⟨header, body, hfirst, rfl⟩ := Str.windows_position.mp hposition
      cases htext : Utf8.fromUtf8 header with
      | error error =>
          right
          refine ⟨error, fun client => ?_⟩
          simp only [Client.responseBodyComplete, hposition, take_header hfirst, htext]
      | ok text =>
          cases hlines : (Str.lines text).findSome? contentLength with
          | none =>
              left
              intro client
              simp only [Client.responseBodyComplete, hposition, take_header hfirst, htext,
                hlines]
          | some n =>
              exact absurd ⟨header, body, n, hfirst, declares_iff.mpr ⟨text, htext, hlines⟩⟩ h

/-- As long as the end of the body is a `usize`, the check compares the
lengths. -/
theorem responseBodyComplete_of_fits (hfirst : First crlfcrlf response.bytes header body)
    (hn : Declares header n) (hfits : header.length + 4 + n ≤ usizeMax) :
    client.responseBodyComplete profile response = .ok (decide (n ≤ body.length)) := by
  have hlength : response.bytes.length = header.length + 4 + body.length := hfirst.length_eq
  have hiff : header.length + 4 + n ≤ response.bytes.length ↔ n ≤ body.length := by omega
  rw [responseBodyComplete_of_declares hfirst hn, Profile.add_eq_ok hfits, Except.map,
    decide_eq_decide.mpr hiff]

/-- Otherwise it panics, or the wrapped end lies within the header and the
check passes. -/
theorem responseBodyComplete_of_overflow (hfirst : First crlfcrlf response.bytes header body)
    (hn : Declares header n) (hover : usizeMax < header.length + 4 + n) :
    client.responseBodyComplete profile response =
      match profile with
      | .debug => .error .panicked
      | .release => .ok true := by
  rw [responseBodyComplete_of_declares hfirst hn, Profile.add_of_lt hover]
  cases profile with
  | debug => rfl
  | release =>
      have hlength : response.bytes.length = header.length + 4 + body.length := hfirst.length_eq
      have hwrapped : (header.length + 4 + n) % (usizeMax + 1) ≤ response.bytes.length := by
        have hle := hn.le
        have := response.length_le
        rw [Nat.mod_eq_sub_mod (by omega)]
        refine Nat.le_trans (Nat.mod_le _ _) ?_
        omega
      exact congrArg Except.ok (decide_eq_true hwrapped)

/-- A response is not complete if its length cannot be counted. -/
theorem Overflows.not_complete (h : Overflows response.bytes) : ¬Complete response.bytes := by
  rintro ⟨header, body, n, hfirst, hn, hle⟩
  obtain ⟨header', body', n', hfirst', hn', hover⟩ := h
  obtain ⟨rfl, rfl⟩ := hfirst.unique hfirst'
  cases hn.unique hn'
  have hlength : response.bytes.length = header.length + 4 + body.length := hfirst.length_eq
  have := response.length_le
  simp only [isizeMax, usizeMax] at this hover
  omega

/-- What one copy of the check answers. -/
theorem responseBodyComplete_iff : ¬Overflows response.bytes ↔
    (client.responseBodyComplete profile response = .ok true ↔ Complete response.bytes) ∧
      client.responseBodyComplete profile response ≠ .error .panicked := by
  by_cases hdeclares : ∃ header body n, First crlfcrlf response.bytes header body ∧
      Declares header n
  · obtain ⟨header, body, n, hfirst, hn⟩ := hdeclares
    by_cases hfits : header.length + 4 + n ≤ usizeMax
    · have hnot : ¬Overflows response.bytes := by
        rintro ⟨header', body', n', hfirst', hn', hover⟩
        obtain ⟨rfl, rfl⟩ := hfirst.unique hfirst'
        cases hn.unique hn'
        omega
      have hcomplete : Complete response.bytes ↔ n ≤ body.length := by
        constructor
        · rintro ⟨header', body', n', hfirst', hn', hle⟩
          obtain ⟨rfl, rfl⟩ := hfirst.unique hfirst'
          cases hn.unique hn'
          exact hle
        · exact fun hle => ⟨header, body, n, hfirst, hn, hle⟩
      rw [responseBodyComplete_of_fits hfirst hn hfits, hcomplete]
      simp [hnot]
    · have hover : Overflows response.bytes := ⟨header, body, n, hfirst, hn, by omega⟩
      have hnot := hover.not_complete
      rw [responseBodyComplete_of_overflow hfirst hn (by omega)]
      cases profile <;> simp [hover, hnot]
  · have hnot : ¬Overflows response.bytes := fun ⟨header, body, n, hfirst, hn, _⟩ =>
      hdeclares ⟨header, body, n, hfirst, hn⟩
    have hincomplete : ¬Complete response.bytes := fun ⟨header, body, n, hfirst, hn, _⟩ =>
      hdeclares ⟨header, body, n, hfirst, hn⟩
    rcases responseBodyComplete_of_not_declares profile hdeclares with h | ⟨error, h⟩
    all_goals
      rw [h client]
      simp [hnot, hincomplete]

theorem headersError_inj {error error' : Utf8.Error} :
    client.headersError error = client.headersError error' ↔ error.display = error'.display := by
  unfold Client.headersError
  exact String.append_right_inj _

/-- Two clients answer alike, and their errors differ in the client's name. -/
theorem responseBodyComplete_congr (client client' : Client) (profile : Profile)
    (response : Slice) :
    (∀ answer, client.responseBodyComplete profile response = .ok answer ↔
      client'.responseBodyComplete profile response = .ok answer) ∧
    (client.responseBodyComplete profile response = .error .panicked ↔
      client'.responseBodyComplete profile response = .error .panicked) ∧
    ∀ error, client.responseBodyComplete profile response =
        .error (.message (client.headersError error)) ↔
      client'.responseBodyComplete profile response =
        .error (.message (client'.headersError error)) := by
  by_cases hdeclares : ∃ header body n, First crlfcrlf response.bytes header body ∧
      Declares header n
  · obtain ⟨header, body, n, hfirst, hn⟩ := hdeclares
    rw [responseBodyComplete_of_declares hfirst hn, responseBodyComplete_of_declares hfirst hn]
    refine ⟨fun _ => Iff.rfl, Iff.rfl, fun error => ?_⟩
    exact iff_of_false (Profile.map_add_ne_message _) (Profile.map_add_ne_message _)
  · rcases responseBodyComplete_of_not_declares profile hdeclares with h | ⟨error, h⟩
    all_goals rw [h client, h client']
    · exact ⟨fun _ => Iff.rfl, Iff.rfl, fun _ => iff_of_false nofun nofun⟩
    · refine ⟨fun _ => iff_of_false nofun nofun, iff_of_false nofun nofun, fun error' => ?_⟩
      simp only [Except.error.injEq, Failure.message.injEq, headersError_inj]

end Check

end Http

/-- **The completion check.**  The two copies answer alike, and what they
answer is whether the response is complete, exactly if the end of the body
that the header declares is a `usize`. -/
theorem Http.response_body_complete_iff (profile : Http.Profile) (response : Http.Slice) :
    (¬Http.Overflows response.bytes ↔
      (Network.responseBodyComplete profile response = .ok true ↔
        Http.Complete response.bytes) ∧
      (Gateway.responseBodyComplete profile response = .ok true ↔
        Http.Complete response.bytes) ∧
      Network.responseBodyComplete profile response ≠ .error .panicked ∧
      Gateway.responseBodyComplete profile response ≠ .error .panicked) ∧
    (∀ answer, Network.responseBodyComplete profile response = .ok answer ↔
      Gateway.responseBodyComplete profile response = .ok answer) ∧
    (Network.responseBodyComplete profile response = .error .panicked ↔
      Gateway.responseBodyComplete profile response = .error .panicked) ∧
    ∀ error, Network.responseBodyComplete profile response =
        .error (.message (Http.network.headersError error)) ↔
      Gateway.responseBodyComplete profile response =
        .error (.message (Http.gateway.headersError error)) := by
  refine ⟨?_, Http.responseBodyComplete_congr Http.network Http.gateway profile response⟩
  have hnetwork := @Http.responseBodyComplete_iff Http.network profile response
  have hgateway := @Http.responseBodyComplete_iff Http.gateway profile response
  constructor
  · intro h
    obtain ⟨hn, hnpanic⟩ := hnetwork.mp h
    obtain ⟨hg, hgpanic⟩ := hgateway.mp h
    exact ⟨hn, hg, hnpanic, hgpanic⟩
  · rintro ⟨hn, -, hnpanic, -⟩
    exact hnetwork.mpr ⟨hn, hnpanic⟩

/-- The longest body that a header can declare, none of which is there. -/
def Http.hugeResponse : Http.Slice where
  bytes := Utf8.encode "Content-Length: 18446744073709551615\r\n\r\n".toList
  length_le := by decide +kernel

/-- The end of that body wraps around, and the response counts as complete. -/
theorem Http.huge_response_complete :
    Network.responseBodyComplete .release Http.hugeResponse = .ok true ∧
    Gateway.responseBodyComplete .release Http.hugeResponse = .ok true ∧
    Network.responseBodyComplete .debug Http.hugeResponse = .error .panicked ∧
    Gateway.responseBodyComplete .debug Http.hugeResponse = .error .panicked ∧
    ¬Http.Complete Http.hugeResponse.bytes := by
  refine ⟨by decide +kernel, by decide +kernel, by decide +kernel, by decide +kernel, ?_⟩
  refine Http.Overflows.not_complete ⟨Utf8.encode "Content-Length: 18446744073709551615".toList, [],
    usizeMax, Str.splitOnce_eq_some.mp (by decide +kernel), Http.declares_iff.mpr ⟨_,
    Utf8.fromUtf8_eq_ok.mpr rfl, by decide +kernel⟩, by decide +kernel⟩

namespace Http

/-! ## Reading a response -/

/-- What a `read` into the buffer of 4096 bytes gives: no bytes at all once
the peer has closed the connection; `timedOut` is `WouldBlock` or `TimedOut`. -/
inductive Read where
  | bytes (chunk : List UInt8) (h : chunk.length ≤ 4096)
  | timedOut
  | failed (error : String)

/-- `Vec::new`. -/
def Slice.empty : Slice := ⟨[], Nat.zero_le _⟩

/-- `extend_from_slice`, which panics where the capacity would overflow. -/
def Slice.extend (response : Slice) (chunk : List UInt8) : Except Failure Slice :=
  if h : (response.bytes ++ chunk).length ≤ isizeMax then .ok ⟨response.bytes ++ chunk, h⟩
  else .error .panicked

def Client.readError (client : Client) (error : String) : String :=
  "failed to read " ++ client.name ++ " response: " ++ error

/-- The loop of `read_http_response`; `none` where it waits for a read after
the given ones. -/
def Client.receive (client : Client) (profile : Profile) :
    Slice → List Read → Option (Except Failure Slice)
  | _, [] => none
  | response, .bytes chunk _ :: reads =>
      if chunk = [] then some (.ok response)
      else
        match response.extend chunk with
        | .error failure => some (.error failure)
        | .ok response =>
            match client.responseBodyComplete profile response with
            | .error failure => some (.error failure)
            | .ok true => some (.ok response)
            | .ok false => client.receive profile response reads
  | response, .timedOut :: _ =>
      match client.responseBodyComplete profile response with
      | .error failure => some (.error failure)
      | .ok true => some (.ok response)
      | .ok false => some (.error (.message (client.readError client.timedOut)))
  | _, .failed error :: _ => some (.error (.message (client.readError error)))

/-- `String::from_utf8` of what was read. -/
def Client.decode (client : Client) (response : Slice) : Except Failure (List Char) :=
  match Utf8.fromUtf8 response.bytes with
  | .error error =>
      .error (.message ("failed to decode " ++ client.name ++ " response: " ++ error.display))
  | .ok text => .ok text

end Http

open Http in
/-- `read_http_response` of `network.rs`: the body, or everything if there is
no header. -/
def Network.readHttpResponse (profile : Profile) (reads : List Read) :
    Option (Except Failure String) :=
  (network.receive profile .empty reads).map fun received => do
    let response ← received
    let text ← network.decode response
    match Str.splitOnce "\r\n\r\n".toList text with
    | some (_, body) => .ok (String.ofList body)
    | none => .ok (String.ofList text)

open Http in
/-- `read_http_response` of `gateway.rs`: the body of a response with the
status 200 or 201. -/
def Gateway.readHttpResponse (profile : Profile) (reads : List Read) :
    Option (Except Failure String) :=
  (gateway.receive profile .empty reads).map fun received => do
    let response ← received
    let text ← gateway.decode response
    match Str.splitOnce "\r\n\r\n".toList text with
    | none => .error (.message ("invalid gateway response: " ++ String.ofList text))
    | some (head, body) =>
        if !"HTTP/1.1 200".toList.isPrefixOf head && !"HTTP/1.1 201".toList.isPrefixOf head then
          .error (.message ("gateway returned error: " ++ String.ofList body))
        else .ok (String.ofList body)

namespace Http

section Receive

variable {client : Client} {profile : Profile} {header body : List UInt8}

/-- No response is complete before its header has ended. -/
theorem responseBodyComplete_of_not_first {response : Slice}
    (h : ¬∃ header body, First crlfcrlf response.bytes header body) :
    client.responseBodyComplete profile response = .ok false := by
  have hposition : (Str.windows 4 response.bytes).findIdx? (· == crlfcrlf) = none := by
    rw [Option.eq_none_iff_forall_ne_some]
    intro headerEnd hposition
    obtain ⟨header, body, hfirst, -⟩ := Str.windows_position.mp hposition
    exact h ⟨header, body, hfirst⟩
  simp only [Client.responseBodyComplete, hposition]

/-- A response that declares just the bytes it has is not taken for complete
before its last byte. -/
theorem responseBodyComplete_of_cut {total response : Slice} {more : List UInt8}
    (hfirst : First crlfcrlf total.bytes header body) (hn : Declares header body.length)
    (htotal : total.bytes = response.bytes ++ more) :
    client.responseBodyComplete profile response = .ok (decide (more = [])) := by
  have hfits : header.length + 4 + body.length ≤ usizeMax := by
    have hlength : total.bytes.length = header.length + 4 + body.length := hfirst.length_eq
    have := total.length_le
    simp only [isizeMax, usizeMax] at this ⊢
    omega
  by_cases hended : ∃ header body, First crlfcrlf response.bytes header body
  · obtain ⟨header', body', hfirst'⟩ := hended
    obtain ⟨rfl, rfl⟩ := (htotal ▸ hfirst).unique (hfirst'.append more)
    have hiff : (body' ++ more).length ≤ body'.length ↔ more = [] := by
      rw [List.length_append, ← List.length_eq_zero_iff]
      omega
    rw [responseBodyComplete_of_fits hfirst' hn hfits, decide_eq_decide.mpr hiff]
  · have hmore : more ≠ [] := by
      rintro rfl
      rw [List.append_nil] at htotal
      exact hended ⟨header, body, htotal ▸ hfirst⟩
    rw [responseBodyComplete_of_not_first hended, decide_eq_false hmore]

/-- The reads of a peer that sends `bytes`, in pieces of any size. -/
inductive Sent : List UInt8 → List Read → Prop
  | nil : Sent [] []
  | cons {chunk bytes : List UInt8} {reads : List Read} (hchunk : chunk.length ≤ 4096)
      (hne : chunk ≠ []) (h : Sent bytes reads) :
      Sent (chunk ++ bytes) (.bytes chunk hchunk :: reads)

/-- A response grows as long as it can be a slice. -/
theorem Slice.extend_eq_ok {response : Slice} {chunk : List UInt8} {response' : Slice} :
    response.extend chunk = .ok response' ↔ response'.bytes = response.bytes ++ chunk := by
  unfold Slice.extend
  constructor
  · intro h
    split at h
    · cases h
      rfl
    · cases h
  · intro h
    have hle := response'.length_le
    rw [h] at hle
    rw [dif_pos hle]
    congr
    exact h.symm

/-- **However a response is cut into pieces, it is read to its last byte and
no further**: what the loop returns is the response. -/
theorem receive_sent {total : Slice} (hfirst : First crlfcrlf total.bytes header body)
    (hn : Declares header body.length) {start : Slice} {bytes : List UInt8} {reads : List Read}
    (hsent : Sent bytes reads) (htotal : total.bytes = start.bytes ++ bytes) (hne : bytes ≠ [])
    (later : List Read) :
    client.receive profile start (reads ++ later) = some (.ok total) := by
  induction hsent generalizing start with
  | nil => exact absurd rfl hne
  | @cons chunk bytes reads hchunk hchunkne hsent ih =>
      have hcut : total.bytes = start.bytes ++ chunk ++ bytes := by
        rw [htotal, List.append_assoc]
      have hle : (start.bytes ++ chunk).length ≤ isizeMax := by
        have := total.length_le
        rw [hcut, List.length_append] at this
        omega
      have hextend : start.extend chunk = .ok ⟨start.bytes ++ chunk, hle⟩ :=
        Slice.extend_eq_ok.mpr rfl
      have hcheck := @responseBodyComplete_of_cut client profile header body total
        ⟨start.bytes ++ chunk, hle⟩ bytes hfirst hn hcut
      rw [List.cons_append, Client.receive, if_neg hchunkne, hextend]
      by_cases hlast : bytes = []
      · subst hlast
        simp only [hcheck, decide_true]
        rw [List.append_nil] at hcut
        cases total
        cases hcut
        rfl
      · simp only [hcheck, decide_eq_false hlast]
        exact ih hcut hlast

/-- What the loop returns was read, and it is complete unless the peer closed
the connection or declared a length past the last `usize`. -/
theorem receive_eq_ok {start response : Slice} {reads : List Read}
    (h : client.receive profile start reads = some (.ok response)) :
    ∃ bytes taken later, reads = taken ++ later ∧ Sent bytes taken ∧
      response.bytes = start.bytes ++ bytes ∧
      (Complete response.bytes ∨ Overflows response.bytes ∨
        ∃ rest, later = .bytes [] (Nat.zero_le _) :: rest) := by
  have hcheck : ∀ {response : Slice}, client.responseBodyComplete profile response = .ok true →
      Complete response.bytes ∨ Overflows response.bytes := by
    intro response htrue
    by_cases hover : Overflows response.bytes
    · exact .inr hover
    · exact .inl ((responseBodyComplete_iff.mp hover).1.mp htrue)
  induction reads generalizing start with
  | nil => cases h
  | cons read reads ih =>
      cases read with
      | failed error => cases h
      | timedOut =>
          simp only [Client.receive] at h
          split at h
          · cases h
          · next htrue =>
              cases h
              exact ⟨[], [], .timedOut :: reads, rfl, .nil, (List.append_nil _).symm,
                (hcheck htrue).elim .inl (.inr ∘ .inl)⟩
          · cases h
      | bytes chunk hchunk =>
          simp only [Client.receive] at h
          split at h
          · next hempty =>
              subst hempty
              cases h
              exact ⟨[], [], _, rfl, .nil, (List.append_nil _).symm, .inr (.inr ⟨reads, rfl⟩)⟩
          next hne =>
          split at h
          · cases h
          next response' hextend =>
          have hresponse := Slice.extend_eq_ok.mp hextend
          split at h
          · cases h
          · next htrue =>
              cases h
              refine ⟨chunk ++ [], [.bytes chunk hchunk], reads, rfl, .cons hchunk hne .nil, ?_,
                (hcheck htrue).elim .inl (.inr ∘ .inl)⟩
              rw [hresponse, List.append_nil]
          · obtain ⟨bytes, taken, later, rfl, hsent, hbytes, hend⟩ := ih h
            refine ⟨chunk ++ bytes, .bytes chunk hchunk :: taken, later, rfl,
              .cons hchunk hne hsent, ?_, hend⟩
            rw [hbytes, hresponse, List.append_assoc]

end Receive

end Http

end PaqusNode
