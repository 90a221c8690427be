import PaqusNode.Service.Peers

/-!
# PaqusNode.Service.Broadcast

Sending a message to everybody (`main.rs`, `gossip.rs`).  The main loop does
it with a block it has mined, an RPC thread with a transaction it has
accepted, each with its own copy of the code.  A broadcast goes through the
peer table as it was at the start, over a connection it finds or makes, and
then through the other nodes that have connected themselves.  It holds the
lock of a table for one peer at a time, so that between two peers, and between
a failure and the removal of the connection that failed, the other threads
may have changed everything.
-/

namespace PaqusNode

namespace Service

variable {A C : Type} [Ord A] [Std.TransOrd A]

/-! ## The code -/

/-- `BroadcastReport`. -/
structure BroadcastReport where
  attempted : Nat
  sent : Nat
  failed : Nat
deriving DecidableEq, Repr

/-- The connections of the service: `peer_connections` and
`inbound_connections`. -/
structure Connections (A C : Type) [Ord A] where
  outbound : BTreeMap A C
  inbound : BTreeMap A C

/-- The places where a broadcast takes a lock. -/
inductive Lock (A : Type)
  /-- To send to a peer. -/
  | peer (addr : A)
  /-- To forget the connection to a peer. -/
  | forget (addr : A)
  /-- To list the inbound connections. -/
  | list
  /-- To send on an inbound connection. -/
  | inbound (addr : A)
  /-- To forget an inbound connection. -/
  | forgetInbound (addr : A)

/-- What a broadcast meets: what the other threads have done to the tables when
it gets a lock, whether a peer can be connected, whether a connection takes
the message, and the order in which a hash map lists its keys. -/
structure Traffic (A C : Type) [Ord A] where
  others : Lock A → Connections A C → Connections A C
  connect : A → Except String C
  send : A → C → Except String Unit
  order : List A → List A
  order_perm : ∀ addrs, (order addrs).Perm addrs

/-- Why an attempt has failed. -/
inductive Failure (C : Type)
  /-- No connection could be made. -/
  | refused (error : String)
  /-- The connection has not taken the message. -/
  | broken (connection : C) (error : String)
  /-- The connection was not there any more. -/
  | gone
deriving DecidableEq

/-- A broadcast on its way: the tables, the report, and the attempts so far,
each with the connection that has taken the message or with the reason why
none has. -/
structure Broadcasting (A C : Type) [Ord A] where
  tables : Connections A C
  report : BroadcastReport
  log : List (A × Except (Failure C) C)

namespace Broadcasting

/-- Where the message has been sent. -/
def delivered (b : Broadcasting A C) : List (A × C) :=
  b.log.filterMap fun attempt => attempt.2.toOption.map (attempt.1, ·)

variable (T : Traffic A C)

/-- The message has gone out. -/
def succeed (b : Broadcasting A C) (tables : Connections A C) (addr : A) (connection : C) :
    Broadcasting A C where
  tables := tables
  report := { b.report with sent := b.report.sent + 1 }
  log := b.log ++ [(addr, .ok connection)]

/-- It has not. -/
def fail (b : Broadcasting A C) (tables : Connections A C) (addr : A) (failure : Failure C) :
    Broadcasting A C where
  tables := tables
  report := { b.report with failed := b.report.failed + 1 }
  log := b.log ++ [(addr, .error failure)]

/-- The tables after a failed attempt to reach a peer, its connection removed. -/
def forgetPeer (tables : Connections A C) (peer : A) : Connections A C :=
  let tables := T.others (.forget peer) tables
  { tables with outbound := tables.outbound.erase peer }

/-- `connection.send(message.clone())` to a peer. -/
def sendOn (b : Broadcasting A C) (tables : Connections A C) (peer : A) (connection : C) :
    Broadcasting A C :=
  match T.send peer connection with
  | .ok () => b.succeed tables peer connection
  | .error error => b.fail (forgetPeer T tables peer) peer (.broken connection error)

/-- One peer of the table.  If it cannot be connected, the copy in `gossip.rs`
removes its connection all the same (`forgets`). -/
def sendToPeer (forgets : Bool) (b : Broadcasting A C) (peer : A) : Broadcasting A C :=
  let tables := T.others (.peer peer) b.tables
  match tables.outbound[peer]? with
  | some connection => b.sendOn T tables peer connection
  | none =>
      match T.connect peer with
      | .error error =>
          b.fail (if forgets then forgetPeer T tables peer else tables) peer (.refused error)
      | .ok connection =>
          b.sendOn T { tables with outbound := tables.outbound.insert peer connection } peer
            connection

/-- One inbound connection, unless it is that of a peer in the table. -/
def sendInbound [DecidableEq A] (known : List A) (b : Broadcasting A C) (addr : A) :
    Broadcasting A C :=
  if addr ∈ known then b
  else
    let b := { b with report := { b.report with attempted := b.report.attempted + 1 } }
    let tables := T.others (.inbound addr) b.tables
    let forget (tables : Connections A C) : Connections A C :=
      let tables := T.others (.forgetInbound addr) tables
      { tables with inbound := tables.inbound.erase addr }
    match tables.inbound[addr]? with
    | none => b.fail (forget tables) addr .gone
    | some connection =>
        match T.send addr connection with
        | .ok () => b.succeed tables addr connection
        | .error error => b.fail (forget tables) addr (.broken connection error)

/-- A broadcast to the peers `known` and to everybody else who has connected. -/
def run [DecidableEq A] (forgets : Bool) (known : List A) (tables : Connections A C) :
    Broadcasting A C :=
  let b := (T.order known).foldl (sendToPeer T forgets) ⟨tables, ⟨known.length, 0, 0⟩, []⟩
  let tables := T.others .list b.tables
  (T.order tables.inbound.keys).foldl (sendInbound T known) { b with tables := tables }

end Broadcasting

/-- `NodeService::broadcast`. -/
def broadcast [DecidableEq A] (T : Traffic A C) (peers : BTreeMap A (PeerState A))
    (tables : Connections A C) : Broadcasting A C :=
  Broadcasting.run T false peers.keys tables

/-- `broadcast_to_peers`. -/
def broadcastToPeers [DecidableEq A] (T : Traffic A C) (peers : BTreeMap A (PeerState A))
    (tables : Connections A C) : Broadcasting A C :=
  Broadcasting.run T true peers.keys tables

/-! ## One attempt each -/

namespace Traffic

/-- Another thread takes the inbound connection of `addr` out of the table. -/
def Drops (T : Traffic A C) (addr : A) : Prop :=
  ∃ lock tables, (tables.inbound[addr]?).isSome ∧ (T.others lock tables).inbound[addr]? = none

/-- An attempt can end like this: a connection takes the message or not, a peer
cannot be connected, and the connection of another node goes only if another
thread takes it away. -/
def Happens (T : Traffic A C) (known : List A) (addr : A) : Except (Failure C) C → Prop
  | .ok connection => T.send addr connection = .ok ()
  | .error (.broken connection error) => T.send addr connection = .error error
  | .error (.refused error) => T.connect addr = .error error
  | .error .gone => addr ∉ known ∧ T.Drops addr

theorem isSome_others {T : Traffic A C} {addr : A} (hstays : ¬T.Drops addr) (lock : Lock A)
    {tables : Connections A C} (h : (tables.inbound[addr]?).isSome) :
    ((T.others lock tables).inbound[addr]?).isSome :=
  Option.isSome_iff_ne_none.mpr fun hnone => hstays ⟨lock, tables, h, hnone⟩

end Traffic

namespace Broadcasting

variable {T : Traffic A C} {forgets : Bool} {known addrs : List A} {b b' : Broadcasting A C}

omit [Std.TransOrd A] in
theorem delivered_nil (tables : Connections A C) (report : BroadcastReport) :
    delivered ⟨tables, report, []⟩ = [] := rfl

omit [Std.TransOrd A] in
theorem length_delivered (b : Broadcasting A C) :
    b.delivered.length = b.log.countP (·.2.toBool) := by
  have hsome : ∀ attempt : A × Except (Failure C) C,
      (attempt.2.toOption.map (attempt.1, ·)).isSome = attempt.2.toBool := by
    rintro ⟨addr, _ | connection⟩ <;> rfl
  simp only [delivered, List.length_filterMap_eq_countP, hsome]

/-- What a part of a broadcast adds: one attempt for every address of `addrs`,
in their order, counted as sent where a connection has taken the message and
as failed otherwise. -/
structure Attempts (T : Traffic A C) (known : List A) (b b' : Broadcasting A C)
    (addrs : List A) : Prop where
  log : ∃ new, b'.log = b.log ++ new ∧ new.map Prod.fst = addrs ∧
    (∀ attempt ∈ new, T.Happens known attempt.1 attempt.2) ∧
    b'.report.sent = b.report.sent + new.countP (·.2.toBool) ∧
    b'.report.failed = b.report.failed + new.countP (!·.2.toBool)

theorem Attempts.refl (b : Broadcasting A C) : Attempts T known b b [] :=
  ⟨[], by simp⟩

/-- One stretch of attempts after the other. -/
theorem Attempts.trans {b'' : Broadcasting A C} {addrs' : List A}
    (h : Attempts T known b b' addrs) (h' : Attempts T known b' b'' addrs') :
    Attempts T known b b'' (addrs ++ addrs') := by
  obtain ⟨new, hnew, rfl, hhappen, hsent, hfailed⟩ := h.log
  obtain ⟨new', hnew', rfl, hhappen', hsent', hfailed'⟩ := h'.log
  refine ⟨new ++ new', ?_, List.map_append, ?_, ?_, ?_⟩
  · rw [hnew', hnew, List.append_assoc]
  · rw [List.forall_mem_append]
    exact ⟨hhappen, hhappen'⟩
  · rw [hsent', hsent, List.countP_append, Nat.add_assoc]
  · rw [hfailed', hfailed, List.countP_append, Nat.add_assoc]

/-- Counting an attempt beforehand does not matter. -/
theorem Attempts.counted {n : Nat}
    (h : Attempts T known { b with report := { b.report with attempted := n } } b' addrs) :
    Attempts T known b b' addrs :=
  ⟨h.log⟩

theorem succeed_attempts (b : Broadcasting A C) (tables : Connections A C) {addr : A}
    {connection : C} (h : T.send addr connection = .ok ()) :
    Attempts T known b (b.succeed tables addr connection) [addr] :=
  ⟨[(addr, .ok connection)], rfl, rfl, by simpa [Traffic.Happens] using h, rfl, rfl⟩

theorem fail_attempts (b : Broadcasting A C) (tables : Connections A C) {addr : A}
    {failure : Failure C} (h : T.Happens known addr (.error failure)) :
    Attempts T known b (b.fail tables addr failure) [addr] :=
  ⟨[(addr, .error failure)], rfl, rfl, by simpa using h, rfl, rfl⟩

/-- A message sent to a peer is one attempt. -/
theorem sendOn_attempts (T : Traffic A C) (known : List A) (b : Broadcasting A C)
    (tables : Connections A C) (peer : A) (connection : C) :
    Attempts T known b (b.sendOn T tables peer connection) [peer] ∧
      (b.sendOn T tables peer connection).report.attempted = b.report.attempted := by
  unfold sendOn
  split
  · next hsend => exact ⟨succeed_attempts b _ hsend, rfl⟩
  · next hsend => exact ⟨fail_attempts b _ hsend, rfl⟩

/-- A peer is one attempt, counted when the broadcast starts. -/
theorem sendToPeer_attempts (T : Traffic A C) (known : List A) (forgets : Bool)
    (b : Broadcasting A C) (peer : A) :
    Attempts T known b (b.sendToPeer T forgets peer) [peer] ∧
      (b.sendToPeer T forgets peer).report.attempted = b.report.attempted := by
  simp only [sendToPeer]
  split
  · exact sendOn_attempts T known b _ peer _
  · split
    · next hconnect => exact ⟨fail_attempts b _ hconnect, rfl⟩
    · exact sendOn_attempts T known b _ peer _

/-- The loop over the peers makes one attempt for each. -/
theorem foldl_sendToPeer_attempts (T : Traffic A C) (known : List A) (forgets : Bool)
    (peers : List A) (b : Broadcasting A C) :
    Attempts T known b (peers.foldl (sendToPeer T forgets) b) peers ∧
      (peers.foldl (sendToPeer T forgets) b).report.attempted = b.report.attempted := by
  induction peers generalizing b with
  | nil => exact ⟨.refl b, rfl⟩
  | cons peer rest ih =>
      obtain ⟨hone, hsame⟩ := sendToPeer_attempts T known forgets b peer
      obtain ⟨hrest, hsame'⟩ := ih (b.sendToPeer T forgets peer)
      exact ⟨hone.trans hrest, hsame'.trans hsame⟩

variable [DecidableEq A]

/-- An inbound connection is one attempt, unless it is a peer's. -/
theorem sendInbound_attempts (T : Traffic A C) (known : List A) (b : Broadcasting A C) {addr : A}
    (hlisted : T.Drops addr ∨ (b.tables.inbound[addr]?).isSome) :
    Attempts T known b (b.sendInbound T known addr) ([addr].filter (· ∉ known)) ∧
      (b.sendInbound T known addr).report.attempted =
        b.report.attempted + ([addr].filter (· ∉ known)).length := by
  unfold sendInbound
  split
  · next hknown => simp [hknown, Attempts.refl]
  · next hnew =>
      simp only [hnew, not_false_eq_true, decide_true, List.filter_cons_of_pos, List.filter_nil]
      split
      · next hnone =>
          have hdrops : T.Drops addr := hlisted.elim id fun hsome => ⟨_, _, hsome, hnone⟩
          exact ⟨.counted (fail_attempts _ _ ⟨hnew, hdrops⟩), rfl⟩
      · split
        · next hsend => exact ⟨.counted (succeed_attempts _ _ hsend), rfl⟩
        · next hsend => exact ⟨.counted (fail_attempts _ _ hsend), rfl⟩

variable [Std.LawfulEqOrd A]

/-- The inbound connection of another address goes only if another thread
takes it away. -/
theorem sendInbound_others (T : Traffic A C) (known : List A) (b : Broadcasting A C)
    {addr other : A} (hne : addr ≠ other)
    (hlisted : T.Drops other ∨ (b.tables.inbound[other]?).isSome) :
    T.Drops other ∨ ((b.sendInbound T known addr).tables.inbound[other]?).isSome := by
  refine or_iff_not_imp_left.mpr fun hstays => ?_
  have hsome := hlisted.resolve_left hstays
  have hforget : ∀ {tables : Connections A C}, (tables.inbound[other]?).isSome →
      (((T.others (.forgetInbound addr) tables).inbound.erase addr)[other]?).isSome := by
    intro tables htables
    rw [BTreeMap.getElem?_erase_eq, if_neg hne]
    exact Traffic.isSome_others hstays _ htables
  have hturn := Traffic.isSome_others hstays (.inbound addr) hsome
  unfold sendInbound
  split
  · exact hsome
  · dsimp only
    split
    · exact hforget hturn
    · split
      · exact hturn
      · exact hforget hturn

/-- The second half of a broadcast, `addrs` having been listed. -/
theorem foldl_sendInbound_attempts (T : Traffic A C) (known : List A) {addrs : List A}
    (hnodup : addrs.Nodup) {b : Broadcasting A C}
    (hlisted : ∀ addr ∈ addrs, T.Drops addr ∨ (b.tables.inbound[addr]?).isSome) :
    Attempts T known b (addrs.foldl (sendInbound T known) b) (addrs.filter (· ∉ known)) ∧
      (addrs.foldl (sendInbound T known) b).report.attempted =
        b.report.attempted + (addrs.filter (· ∉ known)).length := by
  induction addrs generalizing b with
  | nil => exact ⟨.refl b, rfl⟩
  | cons addr rest ih =>
      obtain ⟨hnew, hrest⟩ := List.nodup_cons.mp hnodup
      rw [List.forall_mem_cons] at hlisted
      obtain ⟨hone, hmore⟩ := sendInbound_attempts T known b hlisted.1
      obtain ⟨hlater, hmore'⟩ := ih hrest fun other hother =>
        sendInbound_others T known b (fun heq : addr = other => hnew (heq ▸ hother))
          (hlisted.2 other hother)
      rw [show addr :: rest = [addr] ++ rest from rfl, List.filter_append]
      refine ⟨hone.trans hlater, ?_⟩
      rw [List.foldl_append, List.foldl_cons, List.foldl_nil, hmore', hmore, List.length_append,
        Nat.add_assoc]

/-- The inbound connections that a broadcast lists. -/
def listed (T : Traffic A C) (forgets : Bool) (known : List A) (tables : Connections A C) :
    List A :=
  (T.others .list ((T.order known).foldl (sendToPeer T forgets)
    ⟨tables, ⟨known.length, 0, 0⟩, []⟩).tables).inbound.keys

/-- Everybody is tried once. -/
theorem run_attempts (T : Traffic A C) (forgets : Bool) (known : List A)
    (tables : Connections A C) :
    ∃ targets : List A,
      targets.Perm (known ++ (listed T forgets known tables).filter (· ∉ known)) ∧
      Attempts T known ⟨tables, ⟨known.length, 0, 0⟩, []⟩ (run T forgets known tables) targets ∧
      (run T forgets known tables).report.attempted = targets.length := by
  obtain ⟨hpeers, hsame⟩ := foldl_sendToPeer_attempts T known forgets (T.order known)
    ⟨tables, ⟨known.length, 0, 0⟩, []⟩
  have hnodup : (T.order (listed T forgets known tables)).Nodup :=
    (T.order_perm _).nodup_iff.mpr (BTreeMap.nodup_keys _)
  obtain ⟨hinbound, hmore⟩ := foldl_sendInbound_attempts T known hnodup
    (b := { (T.order known).foldl (sendToPeer T forgets) ⟨tables, ⟨known.length, 0, 0⟩, []⟩ with
      tables := T.others .list ((T.order known).foldl (sendToPeer T forgets)
        ⟨tables, ⟨known.length, 0, 0⟩, []⟩).tables })
    fun addr haddr => .inr (BTreeMap.mem_keys_iff.mp ((T.order_perm _).mem_iff.mp haddr))
  refine ⟨_, ((T.order_perm known).append ((T.order_perm _).filter _)),
    Attempts.trans hpeers ⟨hinbound.log⟩, ?_⟩
  refine hmore.trans ?_
  rw [List.length_append, (T.order_perm known).length_eq]
  exact congrArg (· + _) hsame

end Broadcasting

open Broadcasting in
/-- **A broadcast tries everybody once and accounts for it**, in either copy
and whatever the other threads do meanwhile: the addresses of the attempts are
those of the peers in the table and of the inbound connections of others, each
once; every attempt has ended the way the log says; and it counts as sent if a
connection has taken the message, and as failed otherwise. -/
theorem broadcast_tries_everybody_once [Std.LawfulEqOrd A] [DecidableEq A] (T : Traffic A C)
    (forgets : Bool) (peers : BTreeMap A (PeerState A)) (tables : Connections A C) :
    ((run T forgets peers.keys tables).log.map Prod.fst).Perm
        (peers.keys ++ (listed T forgets peers.keys tables).filter (· ∉ peers.keys)) ∧
      ((run T forgets peers.keys tables).log.map Prod.fst).Nodup ∧
      (∀ attempt ∈ (run T forgets peers.keys tables).log,
        T.Happens peers.keys attempt.1 attempt.2) ∧
      (run T forgets peers.keys tables).report =
        ⟨(run T forgets peers.keys tables).log.length,
          (run T forgets peers.keys tables).log.countP (·.2.toBool),
          (run T forgets peers.keys tables).log.countP (!·.2.toBool)⟩ ∧
      (run T forgets peers.keys tables).report.sent =
        (run T forgets peers.keys tables).delivered.length := by
  obtain ⟨targets, hperm, hattempts, hcount⟩ := run_attempts T forgets peers.keys tables
  obtain ⟨new, hnew, rfl, hhappen, hsent, hfailed⟩ := hattempts.log
  simp only [List.nil_append, Nat.zero_add] at hnew hsent hfailed
  subst hnew
  rw [List.length_map] at hcount
  refine ⟨hperm, ?_, hhappen, ?_, hsent.trans (length_delivered _).symm⟩
  · rw [hperm.nodup_iff, List.nodup_append']
    refine ⟨BTreeMap.nodup_keys _, (BTreeMap.nodup_keys _).filter _, ?_⟩
    intro addr hknown hother
    simpa [hknown] using List.of_mem_filter hother
  · rw [← hcount, ← hsent, ← hfailed]

/-! ## Alone -/

/-- No other thread touches the tables. -/
def Traffic.Alone (T : Traffic A C) : Prop := ∀ lock tables, T.others lock tables = tables

/-- The connection takes the message. -/
def Traffic.takes (T : Traffic A C) (addr : A) (connection : C) : Bool :=
  match T.send addr connection with
  | .ok () => true
  | .error _ => false

/-- The connection over which a peer gets the message, `old` being the one in
the table. -/
def Traffic.reach (T : Traffic A C) (peer : A) (old : Option C) : Option C :=
  (old.or (T.connect peer).toOption).filter (T.takes peer)

/-- How an attempt over a connection ends. -/
def Traffic.sending (T : Traffic A C) (addr : A) (connection : C) : Except (Failure C) C :=
  match T.send addr connection with
  | .ok () => .ok connection
  | .error error => .error (.broken connection error)

/-- How the attempt to reach a peer ends, `old` being its connection in the
table. -/
def Traffic.reaching (T : Traffic A C) (peer : A) : Option C → Except (Failure C) C
  | some connection => T.sending peer connection
  | none =>
      match T.connect peer with
      | .error error => .error (.refused error)
      | .ok connection => T.sending peer connection

omit [Std.TransOrd A] in
theorem Traffic.toOption_sending (T : Traffic A C) (addr : A) (connection : C) :
    (T.sending addr connection).toOption = (some connection).filter (T.takes addr) := by
  rw [sending, Option.filter_some, takes]
  cases T.send addr connection <;> rfl

omit [Std.TransOrd A] in
/-- Whether a peer is reached, without the reason. -/
theorem Traffic.toOption_reaching (T : Traffic A C) (peer : A) (old : Option C) :
    (T.reaching peer old).toOption = T.reach peer old := by
  cases old with
  | some connection => exact T.toOption_sending peer connection
  | none =>
      rw [reaching, reach]
      cases T.connect peer with
      | error error => rfl
      | ok connection => exact T.toOption_sending peer connection

namespace Broadcasting

variable {T : Traffic A C} {known : List A} {b : Broadcasting A C}

/-- The broadcast after an attempt. -/
def record (b : Broadcasting A C) (tables : Connections A C) (addr : A) :
    Except (Failure C) C → Broadcasting A C
  | .ok connection => b.succeed tables addr connection
  | .error failure => b.fail tables addr failure

omit [Std.TransOrd A] in
theorem record_fields (b : Broadcasting A C) (tables : Connections A C) (addr : A)
    (outcome : Except (Failure C) C) : (b.record tables addr outcome).tables = tables ∧
      (b.record tables addr outcome).delivered =
        b.delivered ++ outcome.toOption.toList.map (addr, ·) := by
  cases outcome <;> simp [record, succeed, fail, delivered, Except.toOption]

variable [DecidableEq A]

/-- The peers of the table are skipped. -/
theorem foldl_sendInbound_filter (addrs : List A) (b : Broadcasting A C) :
    addrs.foldl (sendInbound T known) b =
      (addrs.filter (· ∉ known)).foldl (sendInbound T known) b := by
  induction addrs generalizing b with
  | nil => rfl
  | cons addr rest ih =>
      by_cases hknown : addr ∈ known
      · rw [List.filter_cons_of_neg (by simpa using hknown), List.foldl_cons, sendInbound,
          if_pos hknown, ih]
      · rw [List.filter_cons_of_pos (by simpa using hknown), List.foldl_cons, List.foldl_cons, ih]

variable [Std.LawfulEqOrd A]

theorem alter_eq {m m' : BTreeMap A C} {addr : A} {f : Option C → Option C}
    (h : ∀ a : A, m'[a]? = if addr = a then f m[addr]? else m[a]?) : m.alter addr f = m' :=
  Std.ExtTreeMap.ext_getElem? fun a => by rw [BTreeMap.getElem?_alter_eq, h]

/-- **Alone, both copies do the same to a peer**: its connection is the one
that has taken the message, and there is none if none has. -/
theorem sendToPeer_alone (halone : T.Alone) (forgets : Bool) (b : Broadcasting A C) (peer : A) :
    b.sendToPeer T forgets peer = b.record { b.tables with
      outbound := b.tables.outbound.alter peer (T.reach peer) } peer
        (T.reaching peer b.tables.outbound[peer]?) := by
  have hsend : ∀ (tables : Connections A C) (connection : C),
      tables.outbound[peer]? = some connection →
      b.sendOn T tables peer connection = b.record { tables with
        outbound := tables.outbound.alter peer fun _ => (some connection).filter (T.takes peer) }
        peer (T.sending peer connection) := by
    intro tables connection hconnection
    cases hsent : T.send peer connection with
    | ok u =>
        have htakes : T.takes peer connection = true := by simp [Traffic.takes, hsent]
        have hsame : tables.outbound.alter peer (fun _ => some connection) = tables.outbound :=
          alter_eq fun a => by grind
        simp [sendOn, Traffic.sending, hsent, record, Option.filter, htakes, hsame]
    | error e =>
        have htakes : T.takes peer connection = false := by simp [Traffic.takes, hsent]
        have herase : tables.outbound.alter peer (fun _ => none) = tables.outbound.erase peer :=
          alter_eq fun a => BTreeMap.getElem?_erase_eq ..
        simp [sendOn, Traffic.sending, hsent, record, Option.filter, htakes, herase, forgetPeer,
          halone (.forget peer)]
  simp only [sendToPeer, halone (.peer peer)]
  cases hold : b.tables.outbound[peer]? with
  | some connection =>
      have hreach : T.reach peer (some connection) = (some connection).filter (T.takes peer) := rfl
      have htable : b.tables.outbound.alter peer (T.reach peer) = b.tables.outbound.alter peer
          fun _ => (some connection).filter (T.takes peer) :=
        alter_eq fun a => by rw [BTreeMap.getElem?_alter_eq, hold, hreach]
      rw [htable]
      exact hsend b.tables connection hold
  | none =>
      cases hconnect : T.connect peer with
      | error e =>
          have hreach : T.reach peer none = none := by
            simp [Traffic.reach, hconnect, Except.toOption]
          have htable : b.tables.outbound.alter peer (T.reach peer) = b.tables.outbound :=
            alter_eq fun a => by grind
          have hforget : forgetPeer T b.tables peer = b.tables := by
            have herase : b.tables.outbound.erase peer = b.tables.outbound :=
              Std.ExtTreeMap.ext_getElem? fun a => by rw [BTreeMap.getElem?_erase_eq]; grind
            simp only [forgetPeer, halone (.forget peer), herase]
          simp only [hforget, ite_self, htable, Traffic.reaching, hconnect, record]
      | ok connection =>
          have hreach : T.reach peer none = (some connection).filter (T.takes peer) := by
            simp [Traffic.reach, hconnect, Except.toOption]
          have htable : b.tables.outbound.alter peer (T.reach peer) =
              (b.tables.outbound.insert peer connection).alter peer
                fun _ => (some connection).filter (T.takes peer) :=
            alter_eq fun a => by
              rw [BTreeMap.getElem?_alter_eq, BTreeMap.getElem?_insert_eq, hold, hreach]
              grind
          rw [htable, Traffic.reaching, hconnect]
          exact hsend { b.tables with outbound := b.tables.outbound.insert peer connection }
            connection (by rw [BTreeMap.getElem?_insert_eq, if_pos rfl])

/-- An inbound connection stays if it has taken the message. -/
theorem sendInbound_alone (halone : T.Alone) (b : Broadcasting A C) {addr : A}
    (hnew : addr ∉ known) :
    (b.sendInbound T known addr).tables = { b.tables with
        inbound := b.tables.inbound.alter addr (·.filter (T.takes addr)) } ∧
      (b.sendInbound T known addr).delivered = b.delivered ++
        ((b.tables.inbound[addr]?).filter (T.takes addr)).toList.map (addr, ·) := by
  have hkeep : ∀ {connection : C}, b.tables.inbound[addr]? = some connection →
      T.takes addr connection = true →
      b.tables.inbound.alter addr (·.filter (T.takes addr)) = b.tables.inbound := by
    intro connection hold htakes
    exact alter_eq fun a => by grind
  have hdrop : (b.tables.inbound[addr]?).filter (T.takes addr) = none →
      b.tables.inbound.alter addr (·.filter (T.takes addr)) = b.tables.inbound.erase addr := by
    intro hnone
    exact alter_eq fun a => by rw [BTreeMap.getElem?_erase_eq, hnone]
  simp only [sendInbound, hnew, if_false, halone (.inbound addr), halone (.forgetInbound addr)]
  cases hold : b.tables.inbound[addr]? with
  | none => simp [delivered, fail, hdrop, hold, Except.toOption]
  | some connection =>
      cases hsent : T.send addr connection with
      | ok u =>
          have htakes : T.takes addr connection = true := by simp [Traffic.takes, hsent]
          simp [delivered, hsent, succeed, hkeep hold htakes, Option.filter_some, htakes,
            Except.toOption]
      | error e =>
          have htakes : T.takes addr connection = false := by simp [Traffic.takes, hsent]
          simp [delivered, hsent, fail, hdrop, hold, Option.filter_some, htakes, Except.toOption]

/-- Steps that each handle one address of a table, and none twice, and leave
the other table alone. -/
theorem foldl_each (step : Broadcasting A C → A → Broadcasting A C)
    (table other : Broadcasting A C → BTreeMap A C) (reach : A → Option C → Option C)
    {addrs : List A} (hnodup : addrs.Nodup)
    (hstep : ∀ b, ∀ a ∈ addrs, table (step b a) = (table b).alter a (reach a) ∧
      other (step b a) = other b ∧
      (step b a).delivered = b.delivered ++ (reach a (table b)[a]?).toList.map (a, ·))
    (b : Broadcasting A C) :
    (∀ a : A, (table (addrs.foldl step b))[a]? =
        if a ∈ addrs then reach a (table b)[a]? else (table b)[a]?) ∧
      other (addrs.foldl step b) = other b ∧
      ∀ a c, (a, c) ∈ (addrs.foldl step b).delivered ↔
        (a, c) ∈ b.delivered ∨ a ∈ addrs ∧ reach a (table b)[a]? = some c := by
  induction addrs generalizing b with
  | nil => simp
  | cons addr rest ih =>
      obtain ⟨hnew, hrest⟩ := List.nodup_cons.mp hnodup
      obtain ⟨htable, hother, hdelivered⟩ := hstep b addr List.mem_cons_self
      obtain ⟨hlater, hlaterOther, hlaterDelivered⟩ := ih hrest
        (fun b a ha => hstep b a (List.mem_cons_of_mem _ ha)) (step b addr)
      have hlookup : ∀ a : A, (table (step b addr))[a]? =
          if addr = a then reach addr (table b)[addr]? else (table b)[a]? := by
        intro a
        rw [htable, BTreeMap.getElem?_alter_eq]
      refine ⟨fun a => ?_, hlaterOther.trans hother, fun a c => ?_⟩
      · rw [List.foldl_cons, hlater, hlookup]
        grind
      · rw [List.foldl_cons, hlaterDelivered, hdelivered, hlookup]
        grind

/-- The first half of a broadcast, alone. -/
theorem foldl_sendToPeer_alone (halone : T.Alone) (forgets : Bool) {peers : List A}
    (hnodup : peers.Nodup) (b : Broadcasting A C) :
    (∀ a : A, (peers.foldl (sendToPeer T forgets) b).tables.outbound[a]? =
        if a ∈ peers then T.reach a b.tables.outbound[a]? else b.tables.outbound[a]?) ∧
      (peers.foldl (sendToPeer T forgets) b).tables.inbound = b.tables.inbound ∧
      ∀ a c, (a, c) ∈ (peers.foldl (sendToPeer T forgets) b).delivered ↔
        (a, c) ∈ b.delivered ∨ a ∈ peers ∧ T.reach a b.tables.outbound[a]? = some c := by
  refine foldl_each (sendToPeer T forgets) (fun b => b.tables.outbound)
    (fun b => b.tables.inbound) T.reach hnodup (fun b a _ => ?_) b
  rw [sendToPeer_alone halone, (record_fields ..).1, (record_fields ..).2, T.toOption_reaching]
  exact ⟨rfl, rfl, rfl⟩

/-- The second half, alone. -/
theorem foldl_sendInbound_alone (halone : T.Alone) {addrs : List A} (hnodup : addrs.Nodup)
    (b : Broadcasting A C) :
    (∀ a : A, (addrs.foldl (sendInbound T known) b).tables.inbound[a]? =
        if a ∈ addrs ∧ a ∉ known then (b.tables.inbound[a]?).filter (T.takes a)
        else b.tables.inbound[a]?) ∧
      (addrs.foldl (sendInbound T known) b).tables.outbound = b.tables.outbound ∧
      ∀ a c, (a, c) ∈ (addrs.foldl (sendInbound T known) b).delivered ↔
        (a, c) ∈ b.delivered ∨ (a ∈ addrs ∧ a ∉ known) ∧
          (b.tables.inbound[a]?).filter (T.takes a) = some c := by
  have hmem : ∀ {a}, a ∈ addrs.filter (· ∉ known) ↔ a ∈ addrs ∧ a ∉ known := by simp
  rw [foldl_sendInbound_filter]
  simp only [← hmem]
  refine foldl_each (sendInbound T known) (fun b => b.tables.inbound)
    (fun b => b.tables.outbound) (fun a => (·.filter (T.takes a))) (hnodup.filter _)
    (fun b a ha => ?_) b
  obtain ⟨htables, hdelivered⟩ := sendInbound_alone halone b (hmem.mp ha).2
  exact ⟨by rw [htables], by rw [htables], hdelivered⟩

/-- Without other threads, the tables and deliveries of a broadcast are determined. -/
theorem run_alone (halone : T.Alone) (forgets : Bool) (hnodup : known.Nodup)
    (tables : Connections A C) :
    (∀ a : A, (run T forgets known tables).tables.outbound[a]? =
        if a ∈ known then T.reach a tables.outbound[a]? else tables.outbound[a]?) ∧
      (∀ a : A, (run T forgets known tables).tables.inbound[a]? =
        if a ∈ known then tables.inbound[a]? else (tables.inbound[a]?).filter (T.takes a)) ∧
      ∀ a c, (a, c) ∈ (run T forgets known tables).delivered ↔
        if a ∈ known then T.reach a tables.outbound[a]? = some c
        else (tables.inbound[a]?).filter (T.takes a) = some c := by
  have horder : ∀ {addrs : List A}, addrs.Nodup → (T.order addrs).Nodup :=
    fun h => (T.order_perm _).nodup_iff.mpr h
  unfold run
  obtain ⟨houtbound, hinbound, hdelivered⟩ := foldl_sendToPeer_alone halone forgets
    (horder hnodup) ⟨tables, ⟨known.length, 0, 0⟩, []⟩
  simp only [halone .list]
  generalize (T.order known).foldl (sendToPeer T forgets)
    ⟨tables, ⟨known.length, 0, 0⟩, []⟩ = b at *
  obtain ⟨hinbound', houtbound', hdelivered'⟩ := foldl_sendInbound_alone (T := T) halone
    (horder (BTreeMap.nodup_keys b.tables.inbound)) b
  simp only [(T.order_perm _).mem_iff, delivered_nil, List.not_mem_nil, false_or]
    at houtbound hdelivered
  have hlisted : ∀ a, a ∈ T.order b.tables.inbound.keys ↔ (tables.inbound[a]?).isSome := by
    intro a
    rw [(T.order_perm _).mem_iff, BTreeMap.mem_keys_iff, hinbound]
  refine ⟨fun a => by rw [houtbound', houtbound], fun a => (hinbound' a).trans ?_,
    fun a c => (hdelivered' a c).trans ?_⟩
  · by_cases hknown : a ∈ known
    · rw [if_pos hknown, if_neg fun h => h.2 hknown, hinbound]
    · rw [if_neg hknown]
      split
      · rw [hinbound]
      · next hnot =>
          have hnone : tables.inbound[a]? = none := by simpa [hlisted, hknown] using hnot
          rw [hinbound, hnone]
          rfl
  · rw [hdelivered, hlisted, hinbound]
    cases tables.inbound[a]? <;> grind

/-- The copies agree. -/
theorem run_copies (halone : T.Alone) (known : List A) (tables : Connections A C) :
    run T true known tables = run T false known tables := by
  have hcopies : sendToPeer T true = sendToPeer T false := by
    funext b peer
    rw [sendToPeer_alone halone, sendToPeer_alone halone]
  simp only [run, hcopies]

end Broadcasting

/-- **Alone, a broadcast reaches whoever can be reached**, and the two copies
agree.  A peer of the table gets the message over its connection, or over a
new one if it has none; another node that has connected itself gets it over
its own; a connection that does not take the message is forgotten, and the
others stay. -/
theorem broadcast_alone [Std.LawfulEqOrd A] [DecidableEq A] {T : Traffic A C}
    (halone : T.Alone) (peers : BTreeMap A (PeerState A)) (tables : Connections A C) :
    broadcastToPeers T peers tables = broadcast T peers tables ∧
      (∀ a : A, (broadcast T peers tables).tables.outbound[a]? =
        if (peers[a]?).isSome then T.reach a tables.outbound[a]? else tables.outbound[a]?) ∧
      (∀ a : A, (broadcast T peers tables).tables.inbound[a]? =
        if (peers[a]?).isSome then tables.inbound[a]?
        else (tables.inbound[a]?).filter (T.takes a)) ∧
      ∀ a c, (a, c) ∈ (broadcast T peers tables).delivered ↔
        if (peers[a]?).isSome then T.reach a tables.outbound[a]? = some c
        else (tables.inbound[a]?).filter (T.takes a) = some c := by
  have hrun := Broadcasting.run_alone halone false (BTreeMap.nodup_keys peers) tables
  simp only [BTreeMap.mem_keys_iff] at hrun
  exact ⟨Broadcasting.run_copies halone peers.keys tables, hrun⟩

end Service

namespace Reference

/-- Two peers and two inbound connections, one of them of a peer; connections
are numbers, the odd ones are broken, and only peer 3 can be connected. -/
def brokenLines : Service.Traffic Nat Nat where
  others _ tables := tables
  connect addr := if addr = 3 then .ok 30 else .error "connect failed"
  send _ connection := if connection % 2 = 0 then .ok () else .error "send failed"
  order addrs := addrs
  order_perm _ := .refl _

def someTables : Service.Connections Nat Nat :=
  ⟨(∅ : BTreeMap Nat Nat).insert 2 20, ((∅ : BTreeMap Nat Nat).insert 2 22).insert 4 41⟩

def twoPeers : BTreeMap Nat (Service.PeerState Nat) :=
  ((∅ : BTreeMap Nat (Service.PeerState Nat)).insert 2 (.new 2 0)).insert 3 (.new 3 0)

end Reference

namespace Service

/-- Peers 2 and 3 get the message; the line of the other node is broken. -/
theorem broadcast_tries_everybody_once_of_brokenLines :
    (broadcast Reference.brokenLines Reference.twoPeers Reference.someTables).log =
        [(2, .ok 20), (3, .ok 30), (4, .error (.broken 41 "send failed"))] ∧
      ([2, 3, 4] : List Nat).Perm (Reference.twoPeers.keys ++
        (Broadcasting.listed Reference.brokenLines false Reference.twoPeers.keys
          Reference.someTables).filter (· ∉ Reference.twoPeers.keys)) ∧
      (broadcast Reference.brokenLines Reference.twoPeers Reference.someTables).report =
        ⟨3, 2, 1⟩ := by
  have hlog : (broadcast Reference.brokenLines Reference.twoPeers Reference.someTables).log =
      [(2, .ok 20), (3, .ok 30), (4, .error (.broken 41 "send failed"))] := by decide +kernel
  obtain ⟨hperm, -, -, hreport, -⟩ := broadcast_tries_everybody_once Reference.brokenLines
    false Reference.twoPeers Reference.someTables
  refine ⟨hlog, ?_, hreport.trans ?_⟩
  · have haddrs := congrArg (List.map Prod.fst) hlog
    exact (List.Perm.of_eq haddrs.symm).trans hperm
  · have hcounts := congrArg (fun log => (⟨log.length, log.countP (·.2.toBool),
      log.countP (!·.2.toBool)⟩ : BroadcastReport)) hlog
    exact hcounts

/-- The new connection to peer 3 stays, and the broken inbound one goes. -/
theorem broadcast_alone_of_brokenLines :
    (broadcast Reference.brokenLines Reference.twoPeers
        Reference.someTables).tables.outbound[(3 : Nat)]? = some 30 ∧
      (broadcast Reference.brokenLines Reference.twoPeers
        Reference.someTables).tables.inbound[(4 : Nat)]? = none := by
  obtain ⟨-, houtbound, hinbound, -⟩ := broadcast_alone (T := Reference.brokenLines)
    (fun _ _ => rfl) Reference.twoPeers Reference.someTables
  rw [houtbound, hinbound]
  decide +kernel

end Service

end PaqusNode
