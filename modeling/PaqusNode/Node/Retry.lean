import PaqusNode.Node.Requests

/-!
# PaqusNode.Node.Retry

The missing-parent queue over a whole history of queueing, draining and
retrying.  What the retry table holds for a hash is the earliest time asked
for since the hash was last handed out, so a drain hands out exactly the
hashes whose time has come.
-/

namespace PaqusNode

namespace Node

variable {P : Paqus}

/-! ## Histories -/

/-- A call on the queue. -/
inductive RequestCall where
  | queueAt (hash : BlockHash) (retryAt : UInt64)
  | drainAt (now : UInt64)
  | retry (hash : BlockHash)
deriving DecidableEq, Repr

/-- What a call leaves in the history. -/
inductive RequestEvent where
  | requested (hash : BlockHash) (retryAt : UInt64)
  | drained (ready : List BlockHash)
deriving DecidableEq, Repr

/-- Make a call; the history has the latest event first. -/
def requestStep (env : Env) (current : Node P × List RequestEvent) (call : RequestCall) :
    Node P × List RequestEvent :=
  let (s, history) := current
  match call with
  | .queueAt hash retryAt =>
      (s.queueMissingParentRequestAt hash retryAt, .requested hash retryAt :: history)
  | .drainAt now =>
      let (s, ready) := s.drainMissingParentRequestsAt now
      (s, .drained ready :: history)
  | .retry hash =>
      (s.retryMissingParentRequest env hash,
        .requested hash (satAdd (env.clock s.io) missingParentRetrySecs) :: history)

/-- Make the calls one after the other. -/
def runRequests (env : Env) (s : Node P) (calls : List RequestCall) :
    Node P × List RequestEvent :=
  calls.foldl (requestStep env) (s, [])

/-- The retry times asked for since the hash was last handed out. -/
def requestedSince (hash : BlockHash) : List RequestEvent → List UInt64
  | [] => []
  | .requested k retryAt :: earlier =>
      if k = hash then retryAt :: requestedSince hash earlier else requestedSince hash earlier
  | .drained ready :: earlier => if hash ∈ ready then [] else requestedSince hash earlier

/-- A node that has just been opened has nothing queued. -/
theorem initOrLoad_noRequests {env : Env} {io : Nat} {db db' : Storage P} {consensus : Consensus}
    {s : Node P} (h : initOrLoad env io db consensus = (db', .ok s)) : s.NoRequests := by
  obtain ⟨ledger, forkChoice, genesisAccounts, rfl⟩ := initOrLoad_eq h
  exact ⟨rfl, rfl, rfl⟩

/-! ## The table is the history -/

/-- The records agree with each other and with the history. -/
structure Recalls (s : Node P) (history : List RequestEvent) : Prop where
  tracked : s.RequestsTracked
  retryAt : ∀ hash : BlockHash, s.missingParentRetryAt[hash]? =
    if P.forkChoice.contains s.forkChoice hash then none
    else (requestedSince hash history).min?

theorem NoRequests.recalls {s : Node P} (h : s.NoRequests) : s.Recalls [] := by
  refine ⟨h.requestsTracked, fun hash => ?_⟩
  simp [h.missingParentRetryAt, requestedSince]

/-- The table keeps the earlier of two times. -/
theorem getElem?_alter_earliest (table : BTreeMap BlockHash UInt64) (hash k : BlockHash)
    (retryAt : UInt64) :
    (table.alter hash fun
      | some existing => some (min existing retryAt)
      | none => some retryAt)[k]? =
      if hash = k then some ((table[k]?).elim retryAt (min retryAt)) else table[k]? := by
  rw [BTreeMap.getElem?_alter_eq]
  split
  · next heq =>
      subst heq
      cases table[hash]? with
      | none => rfl
      | some existing => exact congrArg some (Std.Commutative.comm existing retryAt)
  · rfl

/-- Queueing merges the new time into the table, unless the hash is known. -/
theorem getElem?_queueMissingParentRequestAt (s : Node P) (hash k : BlockHash) (retryAt : UInt64) :
    (s.queueMissingParentRequestAt hash retryAt).missingParentRetryAt[k]? =
      if hash = k ∧ P.forkChoice.contains s.forkChoice hash = false then
        some ((s.missingParentRetryAt[k]?).elim retryAt (min retryAt))
      else s.missingParentRetryAt[k]? := by
  unfold queueMissingParentRequestAt
  split
  · next hknown => simp [hknown]
  · next hunknown =>
      rw [Bool.not_eq_true] at hunknown
      simp only [hunknown, and_true]
      split <;> exact getElem?_alter_earliest s.missingParentRetryAt hash k retryAt

theorem queueMissingParentRequestAt_forkChoice (s : Node P) (hash : BlockHash) (retryAt : UInt64) :
    (s.queueMissingParentRequestAt hash retryAt).forkChoice = s.forkChoice := by
  unfold queueMissingParentRequestAt
  split
  · rfl
  · simp only
    split <;> rfl

/-- A request is added to the history. -/
theorem Recalls.queueMissingParentRequestAt {s : Node P} {history : List RequestEvent}
    (h : s.Recalls history) (hash : BlockHash) (retryAt : UInt64) :
    (s.queueMissingParentRequestAt hash retryAt).Recalls (.requested hash retryAt :: history) := by
  refine ⟨h.tracked.queueMissingParentRequestAt hash retryAt, fun k => ?_⟩
  rw [getElem?_queueMissingParentRequestAt, queueMissingParentRequestAt_forkChoice, h.retryAt]
  by_cases heq : hash = k
  · subst heq
    cases hknown : P.forkChoice.contains s.forkChoice hash with
    | true => simp
    | false => simp [requestedSince, List.min?_cons]
  · simp [heq, requestedSince]

/-- So are the requests that were due. -/
theorem Recalls.drainMissingParentRequestsAt {s : Node P} {history : List RequestEvent}
    (h : s.Recalls history) (now : UInt64) :
    (s.drainMissingParentRequestsAt now).1.Recalls
      (.drained (s.drainMissingParentRequestsAt now).2 :: history) := by
  refine ⟨h.tracked.drainMissingParentRequestsAt now, fun k => ?_⟩
  have htable := (drainLoop_records now s.missingParentRequests s.missingParentRequestSet
    s.missingParentRetryAt k).2
  simp only [Node.drainMissingParentRequestsAt, requestedSince, htable, h.retryAt]
  by_cases hready : k ∈ (drainLoop now s.missingParentRequestSet s.missingParentRetryAt
      s.missingParentRequests).1
  · simp [hready]
  · simp [hready]

/-- **One call** keeps the records in agreement with the history. -/
theorem Recalls.step {s : Node P} {history : List RequestEvent} (h : s.Recalls history) (env : Env)
    (call : RequestCall) :
    (requestStep env (s, history) call).1.Recalls (requestStep env (s, history) call).2 := by
  cases call with
  | queueAt hash retryAt => exact h.queueMissingParentRequestAt hash retryAt
  | drainAt now => exact h.drainMissingParentRequestsAt now
  | retry hash =>
      have htick : s.tick.Recalls history := ⟨h.tracked.congr rfl rfl rfl, h.retryAt⟩
      exact htick.queueMissingParentRequestAt hash _

/-- **Every history** is recalled. -/
theorem Recalls.run {s : Node P} {history : List RequestEvent} (h : s.Recalls history) (env : Env)
    (calls : List RequestCall) :
    (calls.foldl (requestStep env) (s, history)).1.Recalls
      (calls.foldl (requestStep env) (s, history)).2 := by
  induction calls generalizing s history with
  | nil => exact h
  | cons call calls ih => exact ih (h.step env call)

/-! ## Draining -/

/-- The earliest time asked for since the hash was last handed out has come. -/
def dueAt (now : UInt64) (history : List RequestEvent) (hash : BlockHash) : Bool :=
  (requestedSince hash history).min?.any fun earliest => earliest ≤ now

/-- What the loop looks at is the history. -/
theorem Recalls.due_eq {s : Node P} {history : List RequestEvent} (h : s.Recalls history)
    (now : UInt64) {hash : BlockHash} (hqueued : hash ∈ s.missingParentRequests) :
    decide ((s.missingParentRetryAt[hash]?).getD 0 ≤ now) = dueAt now history hash := by
  have hsome := (h.tracked.retryAt hash).mpr hqueued
  have hretry := h.retryAt hash
  split at hretry
  · rw [hretry] at hsome
    cases hsome
  · obtain ⟨retryAt, hretryAt⟩ := Option.isSome_iff_exists.mp hsome
    rw [dueAt, ← hretry, hretryAt]
    rfl

/-- **The queue is coherent after every history of calls**: its three records
have the same hashes, none twice, and a drain hands out, in queue order, the
hashes that are due and keeps the others in order. -/
theorem missingParentRequests_coherent (env : Env) {s₀ : Node P} (hnone : s₀.NoRequests)
    (calls : List RequestCall) :
    (runRequests env s₀ calls).1.RequestsTracked ∧
      ∀ now, ((runRequests env s₀ calls).1.drainMissingParentRequestsAt now).2 =
          (runRequests env s₀ calls).1.missingParentRequests.filter
            (dueAt now (runRequests env s₀ calls).2) ∧
        ((runRequests env s₀ calls).1.drainMissingParentRequestsAt now).1.missingParentRequests =
          (runRequests env s₀ calls).1.missingParentRequests.filter
            (fun hash => !dueAt now (runRequests env s₀ calls).2 hash) := by
  have hrecalls : (runRequests env s₀ calls).1.Recalls (runRequests env s₀ calls).2 :=
    hnone.recalls.run env calls
  refine ⟨hrecalls.tracked, fun now => ?_⟩
  obtain ⟨hready, hpending⟩ := drainLoop_queue now hrecalls.tracked.nodup
    (runRequests env s₀ calls).1.missingParentRequestSet
    (runRequests env s₀ calls).1.missingParentRetryAt
  constructor
  · refine hready.trans (List.filter_congr fun hash hhash => ?_)
    exact hrecalls.due_eq now hhash
  · refine hpending.trans (List.filter_congr fun hash hhash => ?_)
    rw [hrecalls.due_eq now hhash]

end Node

namespace Reference

/-- Hash 8 is handed out and then asked for again, to be retried after the
cooldown; hash 9 is asked for twice, first for later; hash 1 is known. -/
def retriedCalls : List Node.RequestCall :=
  [.queueAt 8 0, .queueAt 9 7, .queueAt 1 0, .drainAt 0, .retry 8, .queueAt 9 3]

end Reference

/-- At 3 hash 9 is due and hash 8 is kept. -/
theorem Node.missingParentRequests_coherent_of_retried :
    ((Node.runRequests Reference.calm Reference.genesisNode
        Reference.retriedCalls).1.drainMissingParentRequestsAt 3).2 = [9] ∧
      ((Node.runRequests Reference.calm Reference.genesisNode
        Reference.retriedCalls).1.drainMissingParentRequestsAt 3).1.missingParentRequests =
          [8] := by
  obtain ⟨hready, hpending⟩ := (Node.missingParentRequests_coherent Reference.calm
    (Node.initOrLoad_noRequests (Reference.opened_eq_some Reference.opened_calm))
    Reference.retriedCalls).2 3
  rw [hready, hpending]
  decide +kernel

end PaqusNode
