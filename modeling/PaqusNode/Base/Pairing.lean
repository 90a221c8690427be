import Mathlib.Data.List.Nodup
import PaqusNode.Base.Guarded

/-!
# PaqusNode.Base.Pairing

Requests and replies on one connection without numbers on either.  The client
writes a request and takes the next message that arrives for its answer; the
server handles what it receives in order and may stay silent; other messages
may be put on the way to the client at any time.  The connection keeps a
record of which request each reply was produced for and which request each
answer was taken for.  The two agree on every run in which nothing else is on
the way to a client that still uses the connection.
-/

namespace PaqusNode

namespace Pairing

/-- The two sides of a connection, in a world of their own state `σ`. -/
structure Sides (W σ Req Msg E : Type) where
  /-- What the server does with a message, and its reply; an error ends it. -/
  serve : W → σ → Req → σ × Except E (Option Msg)
  /-- The messages the client sends without waiting for an answer. -/
  isPush : Req → Bool
  /-- The requests whose failure does not make the client drop the connection. -/
  keeps : Req → Bool
  /-- What may be sent to the client besides replies. -/
  isBroadcast : Msg → Bool
  push_silent : ∀ w s req, isPush req → ∀ m, (serve w s req).2 ≠ .ok (some m)

inductive Client (Req : Type) where
  | idle
  | waiting (request : Req)
  | closed
deriving DecidableEq, Repr

structure Connection (σ Req Msg : Type) where
  server : σ
  /-- Whether the server still handles messages. -/
  serving : Bool
  /-- What the server has not handled yet; requests with their number. -/
  inbox : List (Option Nat × Req)
  /-- What is on the way to the client. -/
  outbox : List Msg
  client : Client Req
  /-- The number of requests so far. -/
  requests : Nat
  replies : List (Nat × Msg)
  answers : List (Nat × Msg)

inductive Event (W σ Req Msg : Type) where
  | request (req : Req)
  | push (req : Req)
  | serve (w : W)
  /-- Whatever else happens to the state of the server. -/
  | change (server : σ)
  | hangUp
  | broadcast (message : Msg)
  | receive
  | fail
  | drop

variable {W σ Req Msg E : Type}

namespace Connection

/-- A new connection to a server in state `s`. -/
def opened (s : σ) : Connection σ Req Msg := ⟨s, true, [], [], .idle, 0, [], []⟩

/-- The server handles a message. -/
def handle (sides : Sides W σ Req Msg E) (c : Connection σ Req Msg) (w : W)
    (tag : Option Nat) (req : Req) (rest : List (Option Nat × Req)) : Connection σ Req Msg :=
  let (server, result) := sides.serve w c.server req
  match result with
  | .error _ => { c with server := server, inbox := rest, serving := false }
  | .ok none => { c with server := server, inbox := rest }
  | .ok (some m) =>
      { c with
        server := server
        inbox := rest
        outbox := c.outbox ++ [m]
        replies := c.replies ++ tag.toList.map fun i => (i, m) }

/-- The client writes a request. -/
def ask (c : Connection σ Req Msg) (req : Req) : Connection σ Req Msg :=
  { c with
    inbox := c.inbox ++ [(some c.requests, req)]
    client := .waiting req
    requests := c.requests + 1 }

/-- The client takes `m` for the answer to its last request. -/
def take (c : Connection σ Req Msg) (m : Msg) (rest : List Msg) : Connection σ Req Msg :=
  { c with
    outbox := rest
    client := .idle
    answers := c.answers ++ [(c.requests - 1, m)] }

/-- One event, if it can happen. -/
def step (sides : Sides W σ Req Msg E) (c : Connection σ Req Msg) :
    Event W σ Req Msg → Option (Connection σ Req Msg)
  | .request req =>
      match c.client with
      | .idle => some (c.ask req)
      | _ => none
  | .push req =>
      match c.client with
      | .idle =>
          if sides.isPush req then some { c with inbox := c.inbox ++ [(none, req)] } else none
      | _ => none
  | .serve w =>
      match c.serving, c.inbox with
      | true, (tag, req) :: rest => some (c.handle sides w tag req rest)
      | _, _ => none
  | .change server => some { c with server := server }
  | .hangUp => some { c with serving := false }
  | .broadcast m =>
      if sides.isBroadcast m then some { c with outbox := c.outbox ++ [m] } else none
  | .receive =>
      match c.client, c.outbox with
      | .waiting _, m :: rest => some (c.take m rest)
      | _, _ => none
  | .fail =>
      match c.client with
      | .waiting req => some { c with client := if sides.keeps req then .idle else .closed }
      | _ => none
  | .drop => some { c with client := .closed }

/-- Several events. -/
def run (sides : Sides W σ Req Msg E) (c : Connection σ Req Msg)
    (events : List (Event W σ Req Msg)) : Option (Connection σ Req Msg) :=
  events.foldlM (step sides) c

/-- The numbers of the requests that the server has not handled yet. -/
def pending (c : Connection σ Req Msg) : List Nat := c.inbox.filterMap Prod.fst

/-- Every answer is the reply to the same request. -/
def Paired (c : Connection σ Req Msg) : Prop :=
  ∀ i m, (i, m) ∈ c.answers → ∀ r, (i, r) ∈ c.replies ↔ r = m

/-! ## Orderly runs -/

/-- Nothing is on the way to the client, and nothing that the server still has
to handle will put anything there. -/
def Quiet (c : Connection σ Req Msg) : Prop :=
  c.outbox = [] ∧ (c.serving = true → c.pending = [])

/-- The event leaves nothing behind that a later request could take for its
answer. -/
def Orderly (sides : Sides W σ Req Msg E) (c : Connection σ Req Msg) :
    Event W σ Req Msg → Prop
  | .broadcast _ => c.client = .closed
  | .fail => ∀ req, c.client = .waiting req → sides.keeps req = true → c.Quiet
  | _ => True

/-- Every event of the run is orderly in the state it happens in. -/
def OrderlyRun (sides : Sides W σ Req Msg E) (c : Connection σ Req Msg)
    (events : List (Event W σ Req Msg)) : Prop :=
  Guarded (step sides) (Orderly sides) c events

/-! ## The invariant -/

/-- The numbers of the requests replied to, then of those not handled yet. -/
def numbers (c : Connection σ Req Msg) : List Nat := c.replies.map Prod.fst ++ c.pending

/-- Where the last request is, in the eyes of the client. -/
def Current (c : Connection σ Req Msg) : Prop :=
  match c.client with
  | .idle => c.Quiet
  | .waiting _ =>
      (c.outbox = [] ∧ (c.serving = true → c.pending = [] ∨ c.pending = [c.requests - 1])) ∨
        ∃ m, c.outbox = [m] ∧ (c.requests - 1, m) ∈ c.replies ∧
          (c.serving = true → c.pending = [])
  | .closed => True

/-- What an orderly run keeps. -/
structure Matched (sides : Sides W σ Req Msg E) (c : Connection σ Req Msg) : Prop where
  increasing : c.numbers.Pairwise (· < ·)
  below : ∀ i ∈ c.numbers, i < c.requests
  pushes : ∀ req, (none, req) ∈ c.inbox → sides.isPush req = true
  agree : ∀ answer ∈ c.answers, answer ∈ c.replies
  current : c.Current

variable {sides : Sides W σ Req Msg E} {c c' : Connection σ Req Msg}

theorem pending_cons {tag : Option Nat} {req : Req} {rest : List (Option Nat × Req)}
    (h : c.inbox = (tag, req) :: rest) :
    c.pending = tag.toList ++ rest.filterMap Prod.fst := by
  cases tag <;> simp [pending, h]

namespace Matched

theorem opened (s : σ) : (Connection.opened s : Connection σ Req Msg).Matched sides where
  increasing := List.Pairwise.nil
  below _ hi := absurd hi List.not_mem_nil
  pushes _ h := absurd h List.not_mem_nil
  agree _ h := absurd h List.not_mem_nil
  current := ⟨rfl, fun _ => rfl⟩

/-- A reply is the only one to its request. -/
theorem reply_unique (h : c.Matched sides) {i : Nat} {m r : Msg} (hm : (i, m) ∈ c.replies)
    (hr : (i, r) ∈ c.replies) : r = m := by
  have hnodup : (c.replies.map Prod.fst).Nodup :=
    (h.increasing.sublist (List.sublist_append_left _ _)).imp Nat.ne_of_lt
  exact (Prod.mk.inj (List.inj_on_of_nodup_map hnodup hr hm rfl)).2

theorem paired (h : c.Matched sides) : c.Paired := by
  intro i m hanswer r
  have hm := h.agree _ hanswer
  constructor
  · exact h.reply_unique hm
  · rintro rfl
    exact hm

/-- Only the client's view of the connection changes. -/
theorem of_client (h : c.Matched sides) (server : σ) {client : Client Req}
    (hcurrent : ({ c with server := server, client := client } : Connection σ Req Msg).Current) :
    ({ c with server := server, client := client } : Connection σ Req Msg).Matched sides where
  increasing := h.increasing
  below := h.below
  pushes := h.pushes
  agree := h.agree
  current := hcurrent

/-- A request of an idle client. -/
theorem ask (h : c.Matched sides) (hclient : c.client = .idle) (req : Req) :
    (c.ask req).Matched sides := by
  have hcurrent : c.Quiet := by
    have := h.current
    rwa [Current, hclient] at this
  have hpending : (c.ask req).pending = c.pending ++ [c.requests] := by
    simp [Connection.ask, pending]
  have hnumbers : (c.ask req).numbers = c.numbers ++ [c.requests] := by
    rw [numbers, hpending, ← List.append_assoc]
    rfl
  refine ⟨?_, fun i hi => ?_, fun req' hreq' => ?_, h.agree,
    Or.inl ⟨hcurrent.1, fun hserving => ?_⟩⟩
  · rw [hnumbers, List.pairwise_append]
    refine ⟨h.increasing, List.pairwise_singleton _ _, fun i hi j hj => ?_⟩
    rw [List.mem_singleton.mp hj]
    exact h.below i hi
  · rw [hnumbers, List.mem_append, List.mem_singleton] at hi
    rcases hi with hi | rfl
    · exact Nat.lt_succ_of_lt (h.below i hi)
    · exact Nat.lt_succ_self _
  · refine h.pushes req' ?_
    simpa [Connection.ask] using hreq'
  · right
    rw [hpending, hcurrent.2 hserving]
    rfl

/-- A message that is not answered may come at any time. -/
theorem push (h : c.Matched sides) {req : Req} (hpush : sides.isPush req = true) :
    ({ c with inbox := c.inbox ++ [(none, req)] } : Connection σ Req Msg).Matched sides := by
  have hpending : ({ c with inbox := c.inbox ++ [(none, req)] } : Connection σ Req Msg).pending =
      c.pending := by
    simp [pending]
  have hcurrent := h.current
  refine ⟨?_, ?_, fun req' hreq' => ?_, h.agree, ?_⟩
  · rw [numbers, hpending]
    exact h.increasing
  · rw [numbers, hpending]
    exact h.below
  · rcases List.mem_append.mp hreq' with hmem | hmem
    · exact h.pushes req' hmem
    · cases List.mem_singleton.mp hmem
      exact hpush
  · unfold Current Quiet at hcurrent ⊢
    rw [hpending]
    exact hcurrent

/-- The server may close its side at any time. -/
theorem hangUp (h : c.Matched sides) :
    ({ c with serving := false } : Connection σ Req Msg).Matched sides := by
  refine ⟨h.increasing, h.below, h.pushes, h.agree, ?_⟩
  have hcurrent := h.current
  unfold Current Quiet at hcurrent ⊢
  cases hclient : c.client with
  | idle =>
      rw [hclient] at hcurrent
      exact ⟨hcurrent.1, nofun⟩
  | waiting req =>
      rw [hclient] at hcurrent
      exact hcurrent.imp (fun hnone => ⟨hnone.1, nofun⟩)
        fun ⟨m, houtbox, hm, _⟩ => ⟨m, houtbox, hm, nofun⟩
  | closed => exact trivial

variable {w : W} {tag : Option Nat} {req : Req} {rest : List (Option Nat × Req)}

/-- The server handles a message without a reply. -/
theorem skip (h : c.Matched sides) (hserving : c.serving = true)
    (hinbox : c.inbox = (tag, req) :: rest) (server : σ) :
    ({ c with server := server, inbox := rest } : Connection σ Req Msg).Matched sides := by
  have hpending := pending_cons hinbox
  have hsub : ({ c with server := server, inbox := rest } : Connection σ Req Msg).numbers.Sublist
      c.numbers := by
    rw [numbers, numbers, hpending]
    exact (List.Sublist.refl _).append (List.sublist_append_right _ _)
  refine ⟨h.increasing.sublist hsub, fun i hi => h.below i (hsub.subset hi), fun req' hreq' => ?_,
    h.agree, ?_⟩
  · refine h.pushes req' ?_
    rw [hinbox]
    exact List.mem_cons_of_mem _ hreq'
  · have hcurrent := h.current
    unfold Current Quiet at hcurrent ⊢
    simp only [hserving, forall_const, hpending] at hcurrent ⊢
    cases hclient : c.client with
    | idle =>
        rw [hclient] at hcurrent
        exact ⟨hcurrent.1, (List.append_eq_nil_iff.mp hcurrent.2).2⟩
    | waiting req' =>
        rw [hclient] at hcurrent
        rcases hcurrent with ⟨houtbox, hnil | hone⟩ | ⟨m, houtbox, hm, hnil⟩
        · exact Or.inl ⟨houtbox, Or.inl (List.append_eq_nil_iff.mp hnil).2⟩
        · refine Or.inl ⟨houtbox, ?_⟩
          rcases List.append_eq_singleton_iff.mp hone with ⟨-, hrest⟩ | ⟨-, hrest⟩
          · exact Or.inr hrest
          · exact Or.inl hrest
        · exact Or.inr ⟨m, houtbox, hm, (List.append_eq_nil_iff.mp hnil).2⟩
    | closed => exact trivial

/-- The server replies to a request. -/
theorem reply {i : Nat} (h : c.Matched sides) (hserving : c.serving = true)
    (hinbox : c.inbox = (some i, req) :: rest) (server : σ) (m : Msg) :
    ({ c with
      server := server
      inbox := rest
      outbox := c.outbox ++ [m]
      replies := c.replies ++ [(i, m)] } : Connection σ Req Msg).Matched sides := by
  have hpending := pending_cons hinbox
  have hnumbers : ({ c with
      server := server
      inbox := rest
      outbox := c.outbox ++ [m]
      replies := c.replies ++ [(i, m)] } : Connection σ Req Msg).numbers = c.numbers := by
    rw [numbers, numbers, hpending, List.map_append, List.append_assoc]
    rfl
  refine ⟨hnumbers ▸ h.increasing, hnumbers ▸ h.below, (h.skip hserving hinbox server).pushes,
    fun answer hanswer => List.mem_append_left _ (h.agree answer hanswer), ?_⟩
  have hcurrent := h.current
  unfold Current Quiet at hcurrent ⊢
  simp only [hserving, forall_const, hpending, Option.toList_some, List.singleton_append,
    List.cons.injEq, reduceCtorEq, and_false, false_or] at hcurrent ⊢
  cases hclient : c.client with
  | idle =>
      rw [hclient] at hcurrent
      exact hcurrent.elim
  | waiting req' =>
      -- the reply is to the request the client waits for, and the only message on the way
      rw [hclient] at hcurrent
      obtain ⟨houtbox, rfl, hrest⟩ | ⟨-, hfalse⟩ := hcurrent
      swap
      · exact hfalse.elim
      exact Or.inr ⟨m, by rw [houtbox]; rfl, by simp, hrest⟩
  | closed => exact trivial

/-- The server handles what is first in its inbox. -/
theorem handle (h : c.Matched sides) (hserving : c.serving = true)
    (hinbox : c.inbox = (tag, req) :: rest) :
    (c.handle sides w tag req rest).Matched sides := by
  rcases hserve : sides.serve w c.server req with ⟨server, _ | _ | m⟩
  · simp only [Connection.handle, hserve]
    exact (h.skip hserving hinbox server).hangUp
  · simp only [Connection.handle, hserve]
    exact h.skip hserving hinbox server
  · simp only [Connection.handle, hserve]
    cases tag with
    | none =>
        have hpush : sides.isPush req = true := h.pushes req (by simp [hinbox])
        exact absurd (congrArg Prod.snd hserve) (sides.push_silent w c.server req hpush m)
    | some i => exact h.reply hserving hinbox server m

/-- The client takes the reply for its answer. -/
theorem take (h : c.Matched sides) (hclient : c.client = .waiting req) {m : Msg}
    {later : List Msg} (houtbox : c.outbox = m :: later) : (c.take m later).Matched sides := by
  have hcurrent := h.current
  rw [Current, hclient] at hcurrent
  rcases hcurrent with ⟨hnil, -⟩ | ⟨m', hone, hm, hpending⟩
  · rw [houtbox] at hnil
    cases hnil
  · rw [houtbox, List.cons.injEq] at hone
    obtain ⟨rfl, rfl⟩ := hone
    refine ⟨h.increasing, h.below, h.pushes, fun answer hanswer => ?_, rfl, hpending⟩
    rcases List.mem_append.mp hanswer with hmem | hmem
    · exact h.agree answer hmem
    · rwa [List.mem_singleton.mp hmem]

/-- Every orderly event keeps answers and requests matched. -/
theorem step (h : c.Matched sides) {event : Event W σ Req Msg} (horderly : c.Orderly sides event)
    (hstep : c.step sides event = some c') : c'.Matched sides := by
  cases event with
  | request req =>
      simp only [Connection.step] at hstep
      split at hstep
      · next hclient =>
          cases hstep
          exact h.ask hclient req
      · cases hstep
  | push req =>
      simp only [Connection.step] at hstep
      split at hstep
      · split at hstep
        · next hpush =>
            cases hstep
            exact h.push hpush
        · cases hstep
      · cases hstep
  | serve w =>
      simp only [Connection.step] at hstep
      split at hstep
      · next hserving hinbox =>
          cases hstep
          exact h.handle hserving hinbox
      · cases hstep
  | change server =>
      cases hstep
      exact h.of_client server h.current
  | hangUp =>
      cases hstep
      exact h.hangUp
  | broadcast m =>
      simp only [Connection.step] at hstep
      split at hstep
      · cases hstep
        refine ⟨h.increasing, h.below, h.pushes, h.agree, ?_⟩
        have hclosed : c.client = .closed := horderly
        simp only [Current, hclosed]
      · cases hstep
  | receive =>
      simp only [Connection.step] at hstep
      split at hstep
      · next hclient houtbox =>
          cases hstep
          exact h.take hclient houtbox
      · cases hstep
  | fail =>
      simp only [Connection.step] at hstep
      split at hstep
      · next req hclient =>
          cases hstep
          refine h.of_client c.server ?_
          by_cases hkeeps : sides.keeps req = true
          · rw [if_pos hkeeps]
            exact horderly req hclient hkeeps
          · rw [if_neg hkeeps]
            exact trivial
      · cases hstep
  | drop =>
      cases hstep
      exact h.of_client c.server trivial

end Matched

/-- **Answers are replies** on every orderly run of a new connection. -/
theorem paired_of_orderlyRun {s : σ} {events : List (Event W σ Req Msg)}
    (horderly : (opened s).OrderlyRun sides events)
    (hrun : (opened s).run sides events = some c) : c.Paired := by
  have hmatched : c.Matched sides :=
    horderly.invariant (Matched sides) (fun _ _ _ hok hstep h => h.step hok hstep) hrun
      (Matched.opened s)
  exact hmatched.paired

end Connection

end Pairing

end PaqusNode
