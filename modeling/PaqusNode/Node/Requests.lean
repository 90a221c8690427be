import PaqusNode.Node.Orphans
import PaqusNode.Node.Restart

/-!
# PaqusNode.Node.Requests

The queue of missing-parent requests.  Its three records (the queue, the set
of queued hashes and the table of retry times) always agree.  A request is
worth making while an orphan waits for the hash; the queue is not told when
that orphan leaves the pool or when the hash is connected, so a request
stays fresh only as long as neither happens to it.
-/

namespace PaqusNode

namespace Node

variable {P : Paqus}

variable {env : Env} {s s' : Node P} {r k : BlockHash} {block : P.Block} {orphan : OrphanBlock P}

/-! ## The three records of the queue -/

/-- The queue, its set and its retry table have the same hashes. -/
structure RequestsTracked (s : Node P) : Prop where
  nodup : s.missingParentRequests.Nodup
  set : ∀ hash, s.missingParentRequestSet.contains hash = true ↔ hash ∈ s.missingParentRequests
  retryAt : ∀ hash : BlockHash,
    (s.missingParentRetryAt[hash]?).isSome ↔ hash ∈ s.missingParentRequests

/-- Being tracked is about the queue, its set and the retry times. -/
theorem RequestsTracked.congr (h : s.RequestsTracked)
    (hqueue : s'.missingParentRequests = s.missingParentRequests)
    (hset : s'.missingParentRequestSet = s.missingParentRequestSet)
    (hretry : s'.missingParentRetryAt = s.missingParentRetryAt) : s'.RequestsTracked := by
  constructor
  · rw [hqueue]
    exact h.nodup
  · rw [hqueue, hset]
    exact h.set
  · rw [hqueue, hretry]
    exact h.retryAt

/-- Nothing is queued. -/
structure NoRequests (s : Node P) : Prop where
  missingParentRequests : s.missingParentRequests = []
  missingParentRequestSet : s.missingParentRequestSet = ∅
  missingParentRetryAt : s.missingParentRetryAt = ∅

theorem NoRequests.requestsTracked (h : s.NoRequests) : s.RequestsTracked := by
  constructor
  · rw [h.missingParentRequests]
    exact List.nodup_nil
  · simp [h.missingParentRequests, h.missingParentRequestSet]
  · simp [h.missingParentRequests, h.missingParentRetryAt]

theorem Idle.requestsTracked (h : s.Idle) : s.RequestsTracked :=
  NoRequests.requestsTracked
    ⟨h.missingParentRequests, h.missingParentRequestSet, h.missingParentRetryAt⟩

/-- Queueing adds the hash, unless it is known or queued already. -/
theorem mem_queueMissingParentRequestAt (h : s.RequestsTracked) (hash k : BlockHash)
    (retryAt : UInt64) :
    k ∈ (s.queueMissingParentRequestAt hash retryAt).missingParentRequests ↔
      k ∈ s.missingParentRequests ∨
        (k = hash ∧ P.forkChoice.contains s.forkChoice hash = false) := by
  unfold queueMissingParentRequestAt
  split
  · next hknown => simp [hknown]
  next hunknown =>
  simp only
  split
  · next hqueued =>
      constructor
      · exact .inl
      · rintro (hmem | ⟨rfl, -⟩)
        · exact hmem
        · exact (h.set k).mp hqueued
  · simp [hunknown]

/-- A request is queued and entered together. -/
theorem RequestsTracked.queueMissingParentRequestAt (h : s.RequestsTracked) (hash : BlockHash)
    (retryAt : UInt64) : (s.queueMissingParentRequestAt hash retryAt).RequestsTracked := by
  unfold Node.queueMissingParentRequestAt
  split
  · exact h
  simp only
  split
  · next hqueued =>
      refine ⟨h.nodup, h.set, ?_⟩
      intro k
      refine (BTreeMap.isSome_alter_iff _ _ _ (by rintro (_ | _) <;> rfl)).trans ?_
      rw [h.retryAt k]
      constructor
      · rintro (rfl | hmem)
        · exact (h.set k).mp hqueued
        · exact hmem
      · exact .inr
  · next hfresh =>
      rw [h.set hash] at hfresh
      refine ⟨?_, ?_, ?_⟩
      · exact List.nodup_append.mpr ⟨h.nodup, List.nodup_singleton _, by
          rintro a ha b hb rfl
          exact hfresh (List.mem_singleton.mp hb ▸ ha)⟩
      · intro k
        simp only [Std.ExtTreeSet.contains_insert, Bool.or_eq_true, beq_iff_eq, h.set k,
          Std.compare_eq_iff_eq, List.mem_append, List.mem_singleton]
        constructor
        · rintro (rfl | hmem)
          · exact .inr rfl
          · exact .inl hmem
        · rintro (hmem | rfl)
          · exact .inr hmem
          · exact .inl rfl
      · intro k
        refine (BTreeMap.isSome_alter_iff _ _ _ (by rintro (_ | _) <;> rfl)).trans ?_
        rw [h.retryAt k, List.mem_append, List.mem_singleton, or_comm]

theorem RequestsTracked.queueMissingParentRequest (h : s.RequestsTracked) (env : Env)
    (hash : BlockHash) : (s.queueMissingParentRequest env hash).RequestsTracked := by
  unfold Node.queueMissingParentRequest
  split
  · exact h
  · exact RequestsTracked.queueMissingParentRequestAt (s := s.tick) (h.congr rfl rfl rfl) _ _

/-- What is queued after a request. -/
theorem mem_queueMissingParentRequest (h : s.RequestsTracked) (env : Env) (hash k : BlockHash) :
    k ∈ (s.queueMissingParentRequest env hash).missingParentRequests ↔
      k ∈ s.missingParentRequests ∨
        (k = hash ∧ P.forkChoice.contains s.forkChoice hash = false) := by
  unfold Node.queueMissingParentRequest
  split
  · next hknown => simp [hknown]
  · exact mem_queueMissingParentRequestAt (s := s.tick) (h.congr rfl rfl rfl) _ _ _

/-! ## Draining -/

/-- The loop takes the hashes that are due out of the set and the table. -/
theorem drainLoop_records (now : UInt64) (queue : List BlockHash) (set : BTreeSet BlockHash)
    (retryAt : BTreeMap BlockHash UInt64) (k : BlockHash) :
    ((drainLoop now set retryAt queue).2.2.1.contains k = true ↔
        set.contains k = true ∧ k ∉ (drainLoop now set retryAt queue).1) ∧
      (drainLoop now set retryAt queue).2.2.2[k]? =
        if k ∈ (drainLoop now set retryAt queue).1 then none else retryAt[k]? := by
  induction queue generalizing set retryAt with
  | nil => simp [drainLoop]
  | cons hash rest ih =>
      unfold drainLoop
      split
      · obtain ⟨hset, hretry⟩ := ih (set.erase hash) (retryAt.erase hash)
        simp only [List.mem_cons, not_or]
        constructor
        · rw [hset, Std.ExtTreeSet.contains_erase]
          simp only [Bool.and_eq_true, bne_iff_ne, ne_eq, Std.compare_eq_iff_eq]
          constructor
          · rintro ⟨⟨hne, hk⟩, hready⟩
            exact ⟨hk, fun heq => hne heq.symm, hready⟩
          · rintro ⟨hk, hne, hready⟩
            exact ⟨⟨fun heq => hne heq.symm, hk⟩, hready⟩
        · rw [hretry, BTreeMap.getElem?_erase_eq]
          by_cases hk : k = hash
          · simp [hk]
          · simp [hk, Ne.symm hk]
      · exact ih set retryAt

/-- The loop splits the queue. -/
theorem drainLoop_queue (now : UInt64) {queue : List BlockHash} (hnodup : queue.Nodup)
    (set : BTreeSet BlockHash) (retryAt : BTreeMap BlockHash UInt64) :
    (drainLoop now set retryAt queue).1 =
        queue.filter (fun hash => decide ((retryAt[hash]?).getD 0 ≤ now)) ∧
      (drainLoop now set retryAt queue).2.1 =
        queue.filter (fun hash => !decide ((retryAt[hash]?).getD 0 ≤ now)) := by
  induction queue generalizing set retryAt with
  | nil => exact ⟨rfl, rfl⟩
  | cons hash rest ih =>
      obtain ⟨hnotin, hrest⟩ := List.nodup_cons.mp hnodup
      unfold drainLoop
      split
      · next hdue =>
          obtain ⟨hready, hpending⟩ := ih hrest (set.erase hash) (retryAt.erase hash)
          -- the entry that was taken out is not looked up again
          have hlookup : ∀ k ∈ rest, (retryAt.erase hash)[k]? = retryAt[k]? := by
            intro k hk
            rw [BTreeMap.getElem?_erase_eq, if_neg]
            rintro rfl
            exact hnotin hk
          simp only [hready, hpending, List.filter_cons, hdue, decide_true, if_true,
            Bool.not_true, Bool.false_eq_true, if_false]
          refine ⟨congrArg _ (List.filter_congr fun k hk => ?_),
            List.filter_congr fun k hk => ?_⟩
          · rw [hlookup k hk]
          · rw [hlookup k hk]
      · next hlater =>
          obtain ⟨hready, hpending⟩ := ih hrest set retryAt
          simp only [hready, hpending, List.filter_cons, hlater, decide_false, Bool.false_eq_true,
            if_false, Bool.not_false, if_true, and_self]

/-- A hash stays queued exactly if it is not handed out. -/
theorem mem_drainMissingParentRequestsAt (h : s.RequestsTracked) (now : UInt64) (k : BlockHash) :
    k ∈ (s.drainMissingParentRequestsAt now).1.missingParentRequests ↔
      k ∈ s.missingParentRequests ∧ k ∉ (s.drainMissingParentRequestsAt now).2 := by
  obtain ⟨hready, hpending⟩ := drainLoop_queue now h.nodup s.missingParentRequestSet
    s.missingParentRetryAt
  simp only [drainMissingParentRequestsAt, hready, hpending, List.mem_filter]
  constructor
  · rintro ⟨hk, hlater⟩
    refine ⟨hk, fun hdue => ?_⟩
    rw [hdue.2] at hlater
    cases hlater
  · rintro ⟨hk, hnot⟩
    exact ⟨hk, by simpa [hk] using hnot⟩

/-- Requests that are due leave queue and set together. -/
theorem RequestsTracked.drainMissingParentRequestsAt (h : s.RequestsTracked) (now : UInt64) :
    (s.drainMissingParentRequestsAt now).1.RequestsTracked := by
  have hmem := mem_drainMissingParentRequestsAt h now
  obtain ⟨-, hpending⟩ := drainLoop_queue now h.nodup s.missingParentRequestSet
    s.missingParentRetryAt
  refine ⟨?_, ?_, ?_⟩
  · simp only [Node.drainMissingParentRequestsAt, hpending]
    exact h.nodup.filter _
  · intro k
    rw [hmem k, ← h.set k]
    exact (drainLoop_records now s.missingParentRequests _ _ k).1
  · intro k
    rw [hmem k, ← h.retryAt k]
    have hretry := (drainLoop_records now s.missingParentRequests s.missingParentRequestSet
      s.missingParentRetryAt k).2
    simp only [Node.drainMissingParentRequestsAt, hretry]
    split
    · next hready => simp [hready]
    · next hready => simp [hready]

/-! ## How far one call reaches -/

/-- The transactions of the active chain. -/
def activeTransactions (s : Node P) : Nat :=
  (s.ledger.chain.blocks.valuesList.flatMap P.block.transactions).length

theorem length_disconnectedTransactions_le (blocks : List P.Block) (hashes : List BlockHash) :
    (disconnectedTransactions blocks hashes).length ≤
      (blocks.flatMap P.block.transactions).length := by
  unfold disconnectedTransactions
  rw [List.length_flatMap, List.length_flatMap]
  exact (List.filter_sublist.map _).sum_le_sum (fun _ _ => Nat.zero_le _)

/-- Connecting a block takes one reading, one write, and in a reorg one
reading for each disconnected transaction. -/
theorem applyKnownParentBlock_io_le (env : Env) (s : Node P) (block : P.Block) :
    (s.applyKnownParentBlock env block).1.io ≤ s.io + 2 + s.activeTransactions := by
  rcases applyKnownParentBlock_cases env s block with ⟨e, h⟩ | ⟨hash, fc, -, -, -, h⟩
  · rw [h]
    simp only [tick_io]
    omega
  rw [h]
  have hends := connect_connectsTo env { s.tick with forkChoice := fc } block hash
  generalize (connect env { s.tick with forkChoice := fc } block hash).1 = s' at hends ⊢
  cases hends with
  | @reorged _ ledger offered _ _ hoffered storage durable =>
      have hlength := hoffered.length_le.trans (length_disconnectedTransactions_le _ _)
      obtain ⟨mempool, hfold⟩ := foldl_reinsert env offered
        { tick { s.tick with forkChoice := fc } with
          ledger := ledger, cache := CoreCache.fromLedger ledger
          storage := storage, durable := durable }
      rw [hfold]
      unfold activeTransactions
      simp only [tick] at hlength ⊢
      omega
  | _ =>
      simp only [tick]
      omega

/-- The tip stays where it is or moves to the height of the block. -/
theorem tipHeight_applyKnownParentBlock (hfc : ForkChoiceLaws P) (hchain : ChainLaws P) (env : Env)
    (hs : Synced s r) (block : P.Block) :
    P.ledger.tipHeight (s.applyKnownParentBlock env block).1.ledger =
        P.ledger.tipHeight s.ledger ∨
      P.ledger.tipHeight (s.applyKnownParentBlock env block).1.ledger =
        some (P.block.height block) := by
  rcases applyKnownParentBlock_connected hfc hchain env hs block with
    ⟨e, h⟩ | ⟨fc, parent, child, -, -, hacc, hconn⟩
  · rw [h]
    exact .inl rfl
  obtain ⟨-, -, -, -, ⟨hledger, -⟩ | ⟨hledger, -⟩⟩ := hconn.fields
  · rw [hledger]
    exact .inl rfl
  · rw [hledger]
    exact .inr (applyBlock_tip hchain hacc.apply).2

/-! ## Fresh requests -/

/-- An orphan in the pool waits for `hash`. -/
def Awaited (s : Node P) (hash : BlockHash) : Prop :=
  ∃ orphan ∈ s.orphanBlocks.valuesList, P.block.previousHash orphan.block = hash

instance (s : Node P) (hash : BlockHash) : Decidable (s.Awaited hash) :=
  inferInstanceAs (Decidable (∃ orphan ∈ s.orphanBlocks.valuesList, _))

/-- Every queued hash is the parent of an orphan and not in the index. -/
def RequestsFresh (s : Node P) : Prop :=
  ∀ hash ∈ s.missingParentRequests,
    s.Awaited hash ∧ P.forkChoice.contains s.forkChoice hash = false

instance (s : Node P) : Decidable s.RequestsFresh :=
  inferInstanceAs (Decidable (∀ hash ∈ s.missingParentRequests, _ ∧ _))

/-- The orphan is in the pool and stays there while `block` is applied: it
does not expire at a reading the call can make, and is not too far ahead of
the tip, nor of the block if that can become the tip. -/
structure Stays (env : Env) (s : Node P) (block : P.Block) (orphan : OrphanBlock P) : Prop where
  pooled : orphan ∈ s.orphanBlocks.valuesList
  young : ∀ i, s.io ≤ i → i ≤ s.io + 3 + s.activeTransactions →
    satSub (env.clock i) orphan.receivedAt ≤ orphanBlockTtlSecs
  near : s.orphanIsTooFarAhead orphan.block = false
  nearBlock : P.forkChoice.contains s.forkChoice (P.block.previousHash block) = true →
    P.block.height orphan.block ≤ satAdd (P.block.height block) maxOrphanHeightDistance

/-- Applying `block` does not make a request for `hash` stale: an orphan that
waits for it stays; a block with a known parent is not the one requested, and
neither is any cached orphan; a block without goes to a pool with room. -/
structure Undisturbed (env : Env) (s : Node P) (block : P.Block) (hash : BlockHash) : Prop where
  waiting : ∃ orphan, s.Stays env block orphan ∧ P.block.previousHash orphan.block = hash
  known : P.forkChoice.contains s.forkChoice (P.block.previousHash block) = true →
    P.block.hash block ≠ hash ∧ s.orphanBlocks.contains hash = false
  unknown : P.forkChoice.contains s.forkChoice (P.block.previousHash block) = false →
    s.orphanBlocks.size < maxOrphanBlocks

theorem orphanIsTooFarAhead_congr (hledger : s'.ledger = s.ledger) (block : P.Block) :
    s'.orphanIsTooFarAhead block = s.orphanIsTooFarAhead block := by
  unfold orphanIsTooFarAhead
  rw [hledger]

theorem orphanExpired_eq_false {now : UInt64}
    (hyoung : satSub now orphan.receivedAt ≤ orphanBlockTtlSecs)
    (hnear : s.orphanIsTooFarAhead orphan.block = false) : s.orphanExpired now orphan = false := by
  unfold orphanExpired
  rw [hnear, Bool.or_false, decide_eq_false_iff_not]
  exact UInt64.not_lt.mpr hyoung

/-- An orphan that has not expired survives pruning. -/
theorem getElem?_pruneOrphansNow_of_young (env : Env) (horphan : s.orphanBlocks[k]? = some orphan)
    (hyoung : satSub (env.clock s.io) orphan.receivedAt ≤ orphanBlockTtlSecs)
    (hnear : s.orphanIsTooFarAhead orphan.block = false) :
    (s.pruneOrphansNow env).orphanBlocks[k]? = some orphan := by
  have hexpired : s.tick.orphanExpired (env.clock s.io) orphan = false :=
    orphanExpired_eq_false hyoung hnear
  unfold pruneOrphansNow
  rw [getElem?_pruneExpiredOrphans, Option.filter_eq_some_iff]
  exact ⟨horphan, by rw [hexpired]; rfl⟩

/-- Removing orphans leaves the requests alone. -/
theorem foldl_removeOrphan_requests (hashes : List BlockHash) (s : Node P) :
    (hashes.foldl removeOrphan s).missingParentRequests = s.missingParentRequests ∧
      (hashes.foldl removeOrphan s).missingParentRequestSet = s.missingParentRequestSet ∧
      (hashes.foldl removeOrphan s).missingParentRetryAt = s.missingParentRetryAt ∧
      (hashes.foldl removeOrphan s).io = s.io := by
  induction hashes generalizing s with
  | nil => exact ⟨rfl, rfl, rfl, rfl⟩
  | cons hash rest ih => exact ih (s.removeOrphan hash)

theorem pruneOrphansNow_requests (env : Env) (s : Node P) :
    (s.pruneOrphansNow env).missingParentRequests = s.missingParentRequests ∧
      (s.pruneOrphansNow env).missingParentRequestSet = s.missingParentRequestSet ∧
      (s.pruneOrphansNow env).missingParentRetryAt = s.missingParentRetryAt ∧
      (s.pruneOrphansNow env).io = s.io + 1 :=
  foldl_removeOrphan_requests _ _

theorem getElem?_of_pruneOrphansNow (h : (s.pruneOrphansNow env).orphanBlocks[k]? = some orphan) :
    s.orphanBlocks[k]? = some orphan := by
  unfold pruneOrphansNow at h
  rw [getElem?_pruneExpiredOrphans, Option.filter_eq_some_iff] at h
  exact h.1

/-! ## The records agree along a run -/

theorem RequestsTracked.pruneOrphansNow (h : s.RequestsTracked) (env : Env) :
    (s.pruneOrphansNow env).RequestsTracked := by
  obtain ⟨hqueue, hset, hretry, -⟩ := pruneOrphansNow_requests env s
  exact h.congr hqueue hset hretry

theorem RequestsTracked.connect (h : s.RequestsTracked) (hframe : OnlyChain s s') :
    s'.RequestsTracked :=
  h.congr hframe.missingParentRequests hframe.missingParentRequestSet hframe.missingParentRetryAt

/-- An eviction leaves the requests alone. -/
theorem evictOrphan_requests (s : Node P) :
    s.evictOrphan.missingParentRequests = s.missingParentRequests ∧
      s.evictOrphan.missingParentRequestSet = s.missingParentRequestSet ∧
      s.evictOrphan.missingParentRetryAt = s.missingParentRetryAt :=
  evictOrphan_invariant
    (fun s' => s'.missingParentRequests = s.missingParentRequests ∧
      s'.missingParentRequestSet = s.missingParentRequestSet ∧
      s'.missingParentRetryAt = s.missingParentRetryAt)
    (fun _ h => h) ⟨rfl, rfl, rfl⟩

/-- Caching an orphan queues the request for its parent like any other. -/
theorem RequestsTracked.cacheOrphanBlock (h : s.RequestsTracked) (env : Env) (block : P.Block) :
    (s.cacheOrphanBlock env block).RequestsTracked := by
  have hprune := h.pruneOrphansNow env
  unfold Node.cacheOrphanBlock
  simp only
  split
  · exact hprune
  split
  · exact hprune
  split
  · exact hprune
  · obtain ⟨hqueue, hset, hretry⟩ := evictOrphan_requests (s.pruneOrphansNow env)
    exact ((hprune.congr hqueue hset hretry).queueMissingParentRequest env _).congr rfl rfl rfl

/-- A step of the worklist keeps the requests tracked. -/
theorem Worklist.Move.tracked {w w' : Worklist P} (h : w.node.RequestsTracked)
    (hmove : Worklist.Move env w w') : w'.node.RequestsTracked := by
  have htry : ∀ {s s' : Node P} {child : BlockHash} {orphan : OrphanBlock P}
      {result : Except NodeError Unit}, s.RequestsTracked →
      applyKnownParentBlock env { s with orphanBlocks := s.orphanBlocks.erase child }
        orphan.block = (s', result) → s'.RequestsTracked := by
    intro s s' child orphan result h hconnect
    have hframe := applyKnownParentBlock_onlyChain env
      { s with orphanBlocks := s.orphanBlocks.erase child } orphan.block
    rw [hconnect] at hframe
    exact h.congr hframe.missingParentRequests hframe.missingParentRequestSet
      hframe.missingParentRetryAt
  cases hmove with
  | leaf _ => exact h
  | visit _ => exact h.congr rfl rfl rfl
  | gone _ => exact h
  | connected _ hconnect => exact htry h hconnect
  | cached _ hconnect => exact (htry h hconnect).cacheOrphanBlock env _
  | dropped _ hconnect => exact htry h hconnect

/-- **`apply_block` keeps the records of the queue in agreement.** -/
theorem RequestsTracked.applyBlock (h : s.RequestsTracked) (env : Env) (block : P.Block) :
    (s.applyBlock env block).1.RequestsTracked := by
  have hconnect := (h.pruneOrphansNow env).connect
    (applyKnownParentBlock_onlyChain env (s.pruneOrphansNow env) block)
  unfold Node.applyBlock
  split
  · next s' hs =>
      rw [hs] at hconnect
      exact (processParents_moves env _ _).invariant (fun w => w.node.RequestsTracked)
        (fun h hmove => hmove.tracked h) (hconnect.pruneOrphansNow env)
  · next s' hs =>
      rw [hs] at hconnect
      exact hconnect.cacheOrphanBlock env block
  all_goals
    next hs =>
      rw [hs] at hconnect
      exact hconnect

/-- The orphan pool and the request queue are in order. -/
structure Bookkept (s : Node P) : Prop where
  pool : s.PoolIndexed []
  tracked : s.RequestsTracked

theorem Idle.bookkept (h : s.Idle) : s.Bookkept :=
  ⟨h.poolIndexed, h.requestsTracked⟩

theorem Bookkept.congr (h : s.Bookkept) (hblocks : s'.orphanBlocks = s.orphanBlocks)
    (hchildren : s'.orphanChildrenByParent = s.orphanChildrenByParent)
    (hqueue : s'.missingParentRequests = s.missingParentRequests)
    (hset : s'.missingParentRequestSet = s.missingParentRequestSet)
    (hretry : s'.missingParentRetryAt = s.missingParentRetryAt) : s'.Bookkept :=
  ⟨h.pool.congr hblocks hchildren, h.tracked.congr hqueue hset hretry⟩

theorem Bookkept.applyBlock (hfc : ForkChoiceLaws P) (h : s.Bookkept) (env : Env)
    (block : P.Block) : (s.applyBlock env block).1.Bookkept :=
  ⟨h.pool.applyBlock hfc env block, h.tracked.applyBlock env block⟩

theorem Bookkept.saveLedger (h : s.Bookkept) (env : Env) : (s.saveLedger env).1.Bookkept := by
  obtain ⟨storage, durable, hsave⟩ := saveLedger_fst env s
  rw [hsave]
  exact h.congr rfl rfl rfl rfl rfl

theorem Bookkept.drainMissingParentRequests (h : s.Bookkept) (env : Env) :
    (s.drainMissingParentRequests env).1.Bookkept :=
  ⟨h.pool.congr rfl rfl,
    RequestsTracked.drainMissingParentRequestsAt (s := s.tick) (h.tracked.congr rfl rfl rfl) _⟩

theorem Bookkept.retryMissingParentRequest (h : s.Bookkept) (env : Env) (hash : BlockHash) :
    (s.retryMissingParentRequest env hash).Bookkept :=
  ⟨h.pool.congr (queueMissingParentRequestAt_orphanBlocks _ _ _)
      (queueMissingParentRequestAt_children _ _ _),
    RequestsTracked.queueMissingParentRequestAt (s := s.tick) (h.tracked.congr rfl rfl rfl) _ _⟩

/-- **Every operation keeps the books.** -/
theorem Bookkept.run (hfc : ForkChoiceLaws P) (h : s.Bookkept) (env : Env)
    (operation : Operation P) : (operation.run env s).Bookkept := by
  cases operation with
  | applyBlock block => exact h.applyBlock hfc env block
  | mineBlock minerAddress timestamp maxAttempts transactionLimit =>
      have hprune : Bookkept { s with mempool := s.mempool.pruneExpired timestamp } :=
        h.congr rfl rfl rfl rfl rfl
      unfold Operation.run Node.mineBlock
      simp only
      split
      · exact hprune
      split
      · exact hprune
      · exact hprune
      next result _ =>
      have happly := hprune.applyBlock hfc env result.block
      split
      · next s' e hs =>
          rw [hs] at happly
          exact happly
      · next s' hs =>
          rw [hs] at happly
          exact happly
  | flushToStorage => exact h.saveLedger env
  | submitTransaction transaction => exact h.congr rfl rfl rfl rfl rfl
  | drainMissingParentRequests => exact h.drainMissingParentRequests env
  | retryMissingParentRequest hash => exact h.retryMissingParentRequest env hash

theorem Bookkept.runAll (hfc : ForkChoiceLaws P) (h : s.Bookkept) (env : Env)
    (operations : List (Operation P)) : (s.runAll env operations).Bookkept := by
  induction operations generalizing s with
  | nil => exact h
  | cons operation rest ih => exact ih (h.run hfc env operation)

section Laws

variable (hfc : ForkChoiceLaws P) (hchain : ChainLaws P)

/-- What the worklist leaves alone: an orphan whose parent `hash` is neither
in the index nor in the pool. -/
structure Worklist.Untouched (w : Worklist P) (k hash : BlockHash) (orphan : OrphanBlock P) :
    Prop where
  consistent : w.Consistent
  waiting : w.node.orphanBlocks[k]? = some orphan
  unknown : P.forkChoice.get w.node.forkChoice hash = none
  unpooled : w.node.orphanBlocks[hash]? = none

include hfc in
/-- A step of the worklist leaves the orphans of other parents alone. -/
theorem Worklist.Move.untouched {w w' : Worklist P} {hash : BlockHash}
    (hparent : P.block.previousHash orphan.block = hash) (h : w.Untouched k hash orphan)
    (hmove : Worklist.Move env w w') : w'.Untouched k hash orphan := by
  have hconsistent := hmove.consistent hfc h.consistent
  have htry : ∀ {s s' : Node P} {parents rest : List BlockHash} {child : BlockHash}
      {taken : OrphanBlock P} {result : Except NodeError Unit},
      Worklist.Untouched ⟨s, parents, child :: rest⟩ k hash orphan →
      s.orphanBlocks[child]? = some taken →
      applyKnownParentBlock env { s with orphanBlocks := s.orphanBlocks.erase child }
        taken.block = (s', result) →
      s'.orphanBlocks[k]? = some orphan ∧ P.forkChoice.get s'.forkChoice hash = none ∧
        s'.orphanBlocks[hash]? = none := by
    intro s s' parents rest child taken result h hsome hconnect
    have hframe := applyKnownParentBlock_onlyChain env
      { s with orphanBlocks := s.orphanBlocks.erase child } taken.block
    have hget := applyKnownParentBlock_get hfc env
      { s with orphanBlocks := s.orphanBlocks.erase child } taken.block hash
    rw [hconnect] at hframe hget
    have hblocks : s'.orphanBlocks = s.orphanBlocks.erase child := hframe.orphanBlocks
    have hunknown : P.forkChoice.get s.forkChoice hash = none := h.unknown
    have hunpooled : s.orphanBlocks[hash]? = none := h.unpooled
    refine ⟨?_, ?_, ?_⟩
    · rw [hblocks, BTreeMap.getElem?_erase_eq, if_neg]
      · exact h.waiting
      · -- the orphan taken out has its parent in the index
        rintro rfl
        have hknown := h.consistent.children child List.mem_cons_self taken hsome
        have hsame := h.waiting
        simp only [hsome, Option.some.injEq] at hsame
        rw [hsame, hparent, hunknown] at hknown
        cases hknown
    · rcases hget with hsame | ⟨heq, -, -⟩
      · exact hsame.trans hunknown
      · rw [heq, (h.consistent.pool.keyed hsome).1, hsome] at hunpooled
        cases hunpooled
    · rw [hblocks, BTreeMap.getElem?_erase_eq, hunpooled, ite_self]
  cases hmove with
  | leaf _ => exact ⟨hconsistent, h.waiting, h.unknown, h.unpooled⟩
  | visit _ => exact ⟨hconsistent, h.waiting, h.unknown, h.unpooled⟩
  | gone _ => exact ⟨hconsistent, h.waiting, h.unknown, h.unpooled⟩
  | connected hsome hconnect =>
      obtain ⟨hwaiting, hunknown, hunpooled⟩ := htry h hsome hconnect
      exact ⟨hconsistent, hwaiting, hunknown, hunpooled⟩
  | cached hsome hconnect =>
      exact absurd (by rw [hconnect]) (h.consistent.ne_missing hfc hsome)
  | dropped hsome hconnect =>
      obtain ⟨hwaiting, hunknown, hunpooled⟩ := htry h hsome hconnect
      exact ⟨hconsistent, hwaiting, hunknown, hunpooled⟩

include hfc in
/-- A consistent worklist makes no requests. -/
theorem Worklist.Move.requests {w w' : Worklist P} (h : w.Consistent)
    (hmove : Worklist.Move env w w') :
    w'.node.missingParentRequests = w.node.missingParentRequests := by
  cases hmove with
  | leaf _ => rfl
  | visit _ => rfl
  | gone _ => rfl
  | @connected s s' parents child rest orphan _ hconnect =>
      have hframe := applyKnownParentBlock_onlyChain env
        { s with orphanBlocks := s.orphanBlocks.erase child } orphan.block
      rw [hconnect] at hframe
      exact hframe.missingParentRequests
  | cached hsome hconnect =>
      exact absurd (by rw [hconnect]) (h.ne_missing hfc hsome)
  | @dropped s s' parents child rest orphan e _ hconnect =>
      have hframe := applyKnownParentBlock_onlyChain env
        { s with orphanBlocks := s.orphanBlocks.erase child } orphan.block
      rw [hconnect] at hframe
      exact hframe.missingParentRequests

include hfc hchain

/-- A block that enters the index has its parent there. -/
theorem contains_of_indexed (env : Env) (hs : Synced s r)
    (hunknown : P.forkChoice.get s.forkChoice k = none)
    (hknown : (P.forkChoice.get (s.applyKnownParentBlock env block).1.forkChoice k).isSome) :
    k = P.block.hash block ∧
      P.forkChoice.contains s.forkChoice (P.block.previousHash block) = true := by
  rcases applyKnownParentBlock_get hfc env s block k with heq | ⟨heq, -, -⟩
  · rw [heq, hunknown] at hknown
    cases hknown
  refine ⟨heq, ?_⟩
  rcases applyKnownParentBlock_connected hfc hchain env hs block with
    ⟨e, h⟩ | ⟨fc, parent, child, -, hinsert, hacc, -⟩
  · rw [h] at hknown
    simp only [tick, hunknown] at hknown
    cases hknown
  · rw [hfc.contains_eq]
    exact (hfc.insert_ok hinsert).2.2.1 (not_parentless hacc.height_ne)

omit hfc hchain in
/-- The orphan that waits for the request survives the first pruning. -/
theorem Undisturbed.kept {hash : BlockHash} (hund : s.Undisturbed env block hash) :
    ∃ (k : BlockHash) (orphan : OrphanBlock P), s.Stays env block orphan ∧
      P.block.previousHash orphan.block = hash ∧
      (s.pruneOrphansNow env).orphanBlocks[k]? = some orphan := by
  obtain ⟨orphan, hstays, hparent⟩ := hund.waiting
  obtain ⟨k, hk⟩ := BTreeMap.mem_valuesList.mp hstays.pooled
  exact ⟨k, orphan, hstays, hparent, getElem?_pruneOrphansNow_of_young env hk
    (hstays.young s.io (Nat.le_refl _) (by omega)) hstays.near⟩

section Block

variable {env : Env} {s : Node P} {r : BlockHash} (hs : Synced s r) {block : P.Block}
  {hash : BlockHash} (hunknown : P.forkChoice.get s.forkChoice hash = none)
  (hund : s.Undisturbed env block hash)

include hs hunknown hund

/-- The block that is tried first is not the one requested. -/
theorem Undisturbed.unknown_after :
    P.forkChoice.get ((s.pruneOrphansNow env).applyKnownParentBlock env block).1.forkChoice
      hash = none := by
  have hsync := pruneOrphansNow_onlySync env s
  have hs' := hs.congr hsync.ledger hsync.forkChoice hsync.genesisAccounts
  rw [← hsync.forkChoice] at hunknown
  cases hget : P.forkChoice.get
      ((s.pruneOrphansNow env).applyKnownParentBlock env block).1.forkChoice hash with
  | none => rfl
  | some entry =>
      obtain ⟨heq, hparent⟩ := contains_of_indexed hfc hchain env hs' hunknown (by rw [hget]; rfl)
      rw [hsync.forkChoice] at hparent
      exact absurd heq.symm (hund.known hparent).1

/-- With a known parent, the request is still fresh when the worklist is
done. -/
theorem Undisturbed.processed (hpool : s.PoolIndexed [])
    (hok : ((s.pruneOrphansNow env).applyKnownParentBlock env block).2 = .ok ()) :
    Awaited (processOrphansForParent env
        ((s.pruneOrphansNow env).applyKnownParentBlock env block).1 (P.block.hash block)) hash ∧
      P.forkChoice.get (processOrphansForParent env
        ((s.pruneOrphansNow env).applyKnownParentBlock env block).1
          (P.block.hash block)).forkChoice hash = none := by
  have hsync := pruneOrphansNow_onlySync env s
  have hs' := hs.congr hsync.ledger hsync.forkChoice hsync.genesisAccounts
  have hafter := hund.unknown_after hfc hchain hs hunknown
  have hself := applyKnownParentBlock_known_self hfc env hok
  obtain ⟨k, orphan, hstays, hparent, hfirst⟩ := hund.kept
  have hframe := applyKnownParentBlock_onlyChain env (s.pruneOrphansNow env) block
  have hio := applyKnownParentBlock_io_le env (s.pruneOrphansNow env) block
  have htip := tipHeight_applyKnownParentBlock hfc hchain env hs' block
  have hknown : P.forkChoice.contains s.forkChoice (P.block.previousHash block) = true := by
    rcases applyKnownParentBlock_connected hfc hchain env hs' block with
      ⟨e, h⟩ | ⟨fc, parent, child, -, hinsert, hacc, -⟩
    · rw [h] at hok
      cases hok
    · rw [← hsync.forkChoice, hfc.contains_eq]
      exact (hfc.insert_ok hinsert).2.2.1 (not_parentless hacc.height_ne)
  have hactive : (s.pruneOrphansNow env).activeTransactions = s.activeTransactions := by
    unfold activeTransactions
    rw [hsync.ledger]
  rw [(pruneOrphansNow_requests env s).2.2.2, hactive] at hio
  rw [hsync.ledger] at htip
  generalize (s.pruneOrphansNow env).applyKnownParentBlock env block = result at *
  have hnear : result.1.orphanIsTooFarAhead orphan.block = false := by
    have hold := hstays.near
    unfold orphanIsTooFarAhead at hold ⊢
    rcases htip with htip | htip
    · rw [htip]
      exact hold
    · rw [htip, Option.getD_some, decide_eq_false_iff_not]
      exact UInt64.not_lt.mpr (hstays.nearBlock hknown)
  have hsecond := getElem?_pruneOrphansNow_of_young env (s := result.1)
    (by rw [hframe.orphanBlocks]; exact hfirst)
    (hstays.young result.1.io (by have := hframe.io; have := hsync.io; omega) (by omega)) hnear
  have hunpooled : (result.1.pruneOrphansNow env).orphanBlocks[hash]? = none := by
    cases hget : (result.1.pruneOrphansNow env).orphanBlocks[hash]? with
    | none => rfl
    | some other =>
        have hin := getElem?_of_pruneOrphansNow hget
        rw [hframe.orphanBlocks] at hin
        have hcontains := (hund.known hknown).2
        rw [BTreeMap.contains_eq_isSome, getElem?_of_pruneOrphansNow hin] at hcontains
        cases hcontains
  have hsync' := pruneOrphansNow_onlySync env result.1
  have hstart : Worklist.Untouched ⟨result.1.pruneOrphansNow env, [P.block.hash block], []⟩
      k hash orphan := by
    refine ⟨?_, hsecond, by rw [hsync'.forkChoice]; exact hafter, hunpooled⟩
    refine PoolIndexed.consistent ?_ (by rw [hsync'.forkChoice]; exact hself)
    exact (((hpool.pruneOrphansNow env).congr hframe.orphanBlocks
      hframe.orphanChildrenByParent)).pruneOrphansNow env
  have hend := (processParents_moves env _ _).invariant
    (fun w => w.Untouched k hash orphan) (fun h hmove => hmove.untouched hfc hparent h) hstart
  exact ⟨⟨orphan, BTreeMap.mem_valuesList.mpr ⟨k, hend.waiting⟩, hparent⟩, hend.unknown⟩

end Block

omit hfc hchain in
/-- A stored orphan waits for the parent it asks for. -/
theorem RequestsFresh.storeOrphan (hfresh : s.RequestsFresh) (htracked : s.RequestsTracked)
    (env : Env) (now : UInt64) (hnew : s.orphanBlocks[P.block.hash block]? = none) :
    (s.storeOrphan env block now).RequestsFresh := by
  intro hash hhash
  rw [(storeOrphan_onlySync env s block now).forkChoice]
  rcases (mem_queueMissingParentRequest htracked env (P.block.previousHash block) hash).mp hhash
    with hold | ⟨rfl, hunknown⟩
  · obtain ⟨⟨orphan, horphan, hparent⟩, hunknown⟩ := hfresh hash hold
    obtain ⟨k, hk⟩ := BTreeMap.mem_valuesList.mp horphan
    have hkept := getElem?_storeOrphan_of_old env now hnew hk
    exact ⟨⟨orphan, BTreeMap.mem_valuesList.mpr ⟨k, hkept⟩, hparent⟩, hunknown⟩
  · refine ⟨⟨⟨block, now⟩, BTreeMap.mem_valuesList.mpr ⟨P.block.hash block, ?_⟩, rfl⟩, hunknown⟩
    rw [getElem?_storeOrphan, if_pos rfl]

omit hfc hchain in
/-- Caching an orphan asks for its parent, and keeps the other requests fresh
when nothing expires or is evicted. -/
theorem cacheOrphanBlock_fresh (env : Env) (block : P.Block) (htracked : s.RequestsTracked)
    (hfresh : ∀ hash ∈ s.missingParentRequests, s.orphanBlocks.size < maxOrphanBlocks ∧
      (∃ (k : BlockHash) (orphan : OrphanBlock P), s.orphanBlocks[k]? = some orphan ∧
        P.block.previousHash orphan.block = hash ∧
        satSub (env.clock s.io) orphan.receivedAt ≤ orphanBlockTtlSecs ∧
        s.orphanIsTooFarAhead orphan.block = false) ∧
      P.forkChoice.contains s.forkChoice hash = false) :
    (s.cacheOrphanBlock env block).RequestsFresh := by
  have hsync := pruneOrphansNow_onlySync env s
  have hqueue := (pruneOrphansNow_requests env s).1
  have hpruned : (s.pruneOrphansNow env).RequestsFresh := by
    intro hash hhash
    rw [hqueue] at hhash
    obtain ⟨-, ⟨k, orphan, hk, hparent, hyoung, hnear⟩, hunknown⟩ := hfresh hash hhash
    have hkept := getElem?_pruneOrphansNow_of_young env hk hyoung hnear
    exact ⟨⟨orphan, BTreeMap.mem_valuesList.mpr ⟨k, hkept⟩, hparent⟩, by rwa [hsync.forkChoice]⟩
  unfold cacheOrphanBlock
  simp only
  split
  · exact hpruned
  split
  · exact hpruned
  split
  · exact hpruned
  next hnew =>
  rw [Bool.or_eq_true, not_or, BTreeMap.contains_eq_isSome, Option.not_isSome_iff_eq_none] at hnew
  obtain ⟨hqueue', hset, hretry⟩ := evictOrphan_requests (s.pruneOrphansNow env)
  have hevicted : (s.pruneOrphansNow env).evictOrphan.RequestsFresh := by
    intro hash hhash
    rw [hqueue'] at hhash
    -- there is a request, so there is room, and nothing is evicted
    have hroom := (hfresh hash (hqueue ▸ hhash)).1
    have hsize : (s.pruneOrphansNow env).orphanBlocks.size ≤ s.orphanBlocks.size :=
      foldl_removeOrphan_size_le _ _
    rw [evictOrphan_of_room (Nat.lt_of_le_of_lt hsize hroom)]
    exact hpruned hash hhash
  refine hevicted.storeOrphan ((htracked.pruneOrphansNow env).congr hqueue' hset hretry) env _ ?_
  refine evictOrphan_invariant (fun s => s.orphanBlocks[P.block.hash block]? = none) ?_ hnew.2
  intro s hash hnone
  rw [getElem?_removeOrphan]
  split
  · rfl
  · exact hnone

omit hchain in
/-- Connecting a block, its orphans included, makes no request. -/
theorem applyBlock_requests (hpool : s.PoolIndexed [])
    (hok : ((s.pruneOrphansNow env).applyKnownParentBlock env block).2 = .ok ()) :
    (s.applyBlock env block).1.missingParentRequests = s.missingParentRequests := by
  have hframe := applyKnownParentBlock_onlyChain env (s.pruneOrphansNow env) block
  have hself := applyKnownParentBlock_known_self hfc env hok
  unfold Node.applyBlock
  rcases hconnect : (s.pruneOrphansNow env).applyKnownParentBlock env block with ⟨s', e | u⟩
  · rw [hconnect] at hok
    cases hok
  rw [hconnect] at hself hframe
  have hstart : Worklist.Consistent ⟨s'.pruneOrphansNow env, [P.block.hash block], []⟩ := by
    refine PoolIndexed.consistent ?_ ?_
    · exact (((hpool.pruneOrphansNow env).congr hframe.orphanBlocks
        hframe.orphanChildrenByParent)).pruneOrphansNow env
    · rw [(pruneOrphansNow_onlySync env s').forkChoice]
      exact hself
  refine ((processParents_moves env _ _).invariant
    (fun w => w.Consistent ∧ w.node.missingParentRequests = s.missingParentRequests)
    (fun h hmove => ⟨hmove.consistent hfc h.1, (hmove.requests hfc h.1).trans h.2⟩)
    ⟨hstart, ?_⟩).2
  rw [(pruneOrphansNow_requests env s').1, hframe.missingParentRequests,
    (pruneOrphansNow_requests env s).1]

/-- A block that is neither connected nor cached leaves the requests fresh. -/
theorem RequestsFresh.rejected (hs : Synced s r) (hfresh : s.RequestsFresh)
    (hund : ∀ hash ∈ s.missingParentRequests, s.Undisturbed env block hash) :
    RequestsFresh ((s.pruneOrphansNow env).applyKnownParentBlock env block).1 := by
  have hframe := applyKnownParentBlock_onlyChain env (s.pruneOrphansNow env) block
  intro hash hhash
  rw [hframe.missingParentRequests, (pruneOrphansNow_requests env s).1] at hhash
  obtain ⟨k, orphan, -, hparent, hk⟩ := (hund hash hhash).kept
  refine ⟨⟨orphan, BTreeMap.mem_valuesList.mpr ⟨k, ?_⟩, hparent⟩, ?_⟩
  · rw [hframe.orphanBlocks]
    exact hk
  · rw [hfc.contains_eq_false]
    exact (hund hash hhash).unknown_after hfc hchain hs
      (hfc.contains_eq_false.mp (hfresh hash hhash).2)

omit hfc hchain in
/-- A block without its parent in the index is cached, and its parent is
requested beside the requests there are. -/
theorem RequestsFresh.cached (htracked : s.RequestsTracked) (hfresh : s.RequestsFresh)
    (hmissing : P.forkChoice.contains s.forkChoice (P.block.previousHash block) = false)
    (hund : ∀ hash ∈ s.missingParentRequests, s.Undisturbed env block hash) :
    ((s.pruneOrphansNow env).tick.cacheOrphanBlock env block).RequestsFresh := by
  have hsync := pruneOrphansNow_onlySync env s
  obtain ⟨hqueue, -, -, hio⟩ := pruneOrphansNow_requests env s
  refine cacheOrphanBlock_fresh env block ((htracked.pruneOrphansNow env).congr rfl rfl rfl) ?_
  intro hash hhash
  have hhash' : hash ∈ s.missingParentRequests := by
    rw [← hqueue]
    exact hhash
  obtain ⟨k, orphan, hstays, hparent, hk⟩ := (hund hash hhash').kept
  have hroom := (hund hash hhash').unknown hmissing
  have hsize : (s.pruneOrphansNow env).orphanBlocks.size ≤ s.orphanBlocks.size :=
    foldl_removeOrphan_size_le _ _
  have hnear : (s.pruneOrphansNow env).tick.orphanIsTooFarAhead orphan.block = false :=
    (orphanIsTooFarAhead_congr hsync.ledger orphan.block).trans hstays.near
  refine ⟨Nat.lt_of_le_of_lt hsize hroom, ⟨k, orphan, hk, hparent, ?_, hnear⟩, ?_⟩
  · rw [tick_io, hio]
    exact hstays.young _ (by omega) (by omega)
  · simp only [tick]
    rw [hsync.forkChoice]
    exact (hfresh hash hhash').2

/-- **A block that disturbs no request leaves all requests fresh.** -/
theorem RequestsFresh.applyBlock (hs : Synced s r) (hpool : s.PoolIndexed [])
    (htracked : s.RequestsTracked) (hfresh : s.RequestsFresh)
    (hund : ∀ hash ∈ s.missingParentRequests, s.Undisturbed env block hash) :
    (s.applyBlock env block).1.RequestsFresh := by
  have hrejected := hfresh.rejected hfc hchain hs hund
  unfold Node.applyBlock
  split
  · next s' hconnect =>
      intro hash hhash
      have hsame := applyBlock_requests hfc hpool (show
        ((s.pruneOrphansNow env).applyKnownParentBlock env block).2 = .ok () by rw [hconnect])
      have hprocessed := fun h => (hund hash h).processed hfc hchain hs
        (hfc.contains_eq_false.mp (hfresh hash h).2) hpool (by rw [hconnect])
      unfold Node.applyBlock at hsame
      rw [hconnect] at hprocessed hsame
      have hhash' : hash ∈ s.missingParentRequests := by
        rw [← hsame]
        exact hhash
      obtain ⟨hawaited, hunknown⟩ := hprocessed hhash'
      exact ⟨hawaited, hfc.contains_eq_false.mpr hunknown⟩
  · next s' hconnect =>
      obtain ⟨rfl, hmissing⟩ := applyKnownParentBlock_missing hfc hconnect
      rw [(pruneOrphansNow_onlySync env s).forkChoice] at hmissing
      exact hfresh.cached htracked (hfc.contains_eq_false.mpr hmissing) hund
  all_goals
    next hconnect =>
      rw [hconnect] at hrejected
      exact hrejected

end Laws

/-! ## Runs -/

variable (P) in
/-- The calls that touch the orphan pool and the request queue. -/
inductive SyncCall
  | applyBlock (block : P.Block)
  | drainMissingParentRequests
  | retryMissingParentRequest (hash : BlockHash)

/-- One call, its result discarded. -/
def SyncCall.run (env : Env) (s : Node P) : SyncCall P → Node P
  | .applyBlock block => (s.applyBlock env block).1
  | .drainMissingParentRequests => (s.drainMissingParentRequests env).1
  | .retryMissingParentRequest hash => s.retryMissingParentRequest env hash

/-- One call after the other. -/
def runCalls (env : Env) (s : Node P) (calls : List (SyncCall P)) : Node P :=
  calls.foldl (SyncCall.run env) s

/-- The call makes no request stale: a block disturbs none, and a retry is
for a hash that is known or that an orphan waits for. -/
def SyncCall.Orderly (env : Env) (s : Node P) : SyncCall P → Prop
  | .applyBlock block => ∀ hash ∈ s.missingParentRequests, s.Undisturbed env block hash
  | .drainMissingParentRequests => True
  | .retryMissingParentRequest hash =>
      P.forkChoice.contains s.forkChoice hash = false → s.Awaited hash

/-- Every call of the run is orderly in the state it is made in. -/
def OrderlyRun (env : Env) : Node P → List (SyncCall P) → Prop
  | _, [] => True
  | s, call :: rest => call.Orderly env s ∧ OrderlyRun env (call.run env s) rest

/-- The invariant of an orderly run. -/
structure Requesting (s : Node P) (r : BlockHash) : Prop extends s.Bookkept where
  synced : Synced s r
  fresh : s.RequestsFresh

theorem Idle.requesting (h : s.Idle) (hs : Synced s r) : s.Requesting r := by
  refine ⟨h.bookkept, hs, ?_⟩
  intro hash hhash
  rw [h.missingParentRequests] at hhash
  cases hhash

/-- With fresh requests only, an empty orphan pool means that the node has
caught up. -/
theorem Requesting.hasPendingSyncWork (h : s.Requesting r)
    (hempty : s.orphanBlocks.isEmpty = true) : s.hasPendingSyncWork = false := by
  have hqueue : s.missingParentRequests = [] := by
    refine List.eq_nil_iff_forall_not_mem.mpr fun hash hhash => ?_
    obtain ⟨⟨orphan, hpooled, -⟩, -⟩ := h.fresh hash hhash
    obtain ⟨k, hk⟩ := BTreeMap.mem_valuesList.mp hpooled
    rw [Std.ExtTreeMap.isEmpty_iff.mp hempty] at hk
    simp at hk
  have hretry : s.missingParentRetryAt = ∅ := by
    refine BTreeMap.eq_empty_of_getElem?_eq_none fun k => ?_
    rw [← Option.not_isSome_iff_eq_none, h.tracked.retryAt k, hqueue]
    simp
  simp [Node.hasPendingSyncWork, hempty, hqueue, hretry]

section Laws

variable (hfc : ForkChoiceLaws P) (hchain : ChainLaws P)

include hfc hchain

/-- **One orderly call keeps the requests fresh.** -/
theorem SyncCall.Orderly.requesting {call : SyncCall P} (h : s.Requesting r)
    (hcall : call.Orderly env s) : (call.run env s).Requesting r := by
  cases call with
  | applyBlock block =>
      exact ⟨h.toBookkept.applyBlock hfc env block,
        (applyBlock_steps env s block).synced hfc hchain h.synced,
        h.fresh.applyBlock hfc hchain h.synced h.pool h.tracked hcall⟩
  | drainMissingParentRequests =>
      have htracked : s.tick.RequestsTracked := h.tracked.congr rfl rfl rfl
      refine ⟨h.toBookkept.drainMissingParentRequests env, h.synced.congr rfl rfl rfl, ?_⟩
      intro hash hhash
      have hmem := ((mem_drainMissingParentRequestsAt htracked _ hash).mp hhash).1
      exact h.fresh hash hmem
  | retryMissingParentRequest hash =>
      have htracked : s.tick.RequestsTracked := h.tracked.congr rfl rfl rfl
      have hsync := queueMissingParentRequestAt_onlySync s.tick hash
        (satAdd (env.clock s.io) missingParentRetrySecs)
      have hblocks := queueMissingParentRequestAt_orphanBlocks s.tick hash
        (satAdd (env.clock s.io) missingParentRetrySecs)
      refine ⟨h.toBookkept.retryMissingParentRequest env hash,
        h.synced.congr hsync.ledger hsync.forkChoice hsync.genesisAccounts, ?_⟩
      intro k hk
      have hfresh : s.Awaited k ∧ P.forkChoice.contains s.forkChoice k = false := by
        rcases (mem_queueMissingParentRequestAt htracked hash k _).mp hk with hk | ⟨rfl, hunknown⟩
        · exact h.fresh k hk
        · exact ⟨hcall hunknown, hunknown⟩
      unfold Awaited at hfresh ⊢
      simp only [SyncCall.run, Node.retryMissingParentRequest]
      rw [hblocks, hsync.forkChoice]
      exact hfresh

theorem OrderlyRun.requesting {calls : List (SyncCall P)} (h : s.Requesting r)
    (hrun : OrderlyRun env s calls) : (s.runCalls env calls).Requesting r := by
  induction calls generalizing s with
  | nil => exact h
  | cons call rest ih => exact ih (hrun.1.requesting hfc hchain h) hrun.2

/-- **Orderly runs leave no stale request.**  In every run of a freshly opened
node whose calls are all orderly, every queued hash is the parent of an
orphan and not in the fork-choice index; once the orphan pool is empty, no
sync work is pending. -/
theorem requestsFresh_of_orderlyRun (hrec : RecordLaws P) {E : Env → Prop} {db db' : Storage P}
    (hdb : Written E db) {env : Env} {io : Nat} {consensus : Consensus} {s : Node P}
    (hopen : initOrLoad env io db consensus = (db', .ok s)) {calls : List (SyncCall P)}
    (hrun : OrderlyRun env s calls) :
    (s.runCalls env calls).RequestsFresh ∧
      ((s.runCalls env calls).orphanBlocks.isEmpty = true →
        (s.runCalls env calls).hasPendingSyncWork = false) := by
  obtain ⟨_, _, g, _, _, -, hopened⟩ := hdb.opened hfc hchain hrec hopen
  have hend := hrun.requesting hfc hchain (hopened.idle.requesting hopened.synced)
  exact ⟨hend.fresh, hend.hasPendingSyncWork⟩

end Laws

/-- The request for the parent of an orphan, while another block arrives. -/
theorem requestsFresh_of_waiting_orphan :
    (Reference.genesisNode.runCalls Reference.calm
      [.applyBlock (Reference.block 4 2 3 []),
        .applyBlock (Reference.block 2 1 1 [])]).RequestsFresh := by
  have hrun : OrderlyRun Reference.calm Reference.genesisNode
      [.applyBlock (Reference.block 4 2 3 []), .applyBlock (Reference.block 2 1 1 [])] := by
    refine ⟨?_, ?_, trivial⟩
    · have hempty : Reference.genesisNode.missingParentRequests = [] := by decide +kernel
      intro hash hhash
      rw [hempty] at hhash
      cases hhash
    · have hqueue : (SyncCall.run Reference.calm Reference.genesisNode
          (.applyBlock (Reference.block 4 2 3 []))).missingParentRequests = [3] := by
        decide +kernel
      intro hash hhash
      rw [hqueue, List.mem_singleton] at hhash
      subst hhash
      obtain ⟨orphan, horphan, hblock, hreceived⟩ : ∃ orphan : OrphanBlock Reference.paqus,
          (SyncCall.run Reference.calm Reference.genesisNode
            (.applyBlock (Reference.block 4 2 3 []))).orphanBlocks[(4 : BlockHash)]? =
              some orphan ∧
            orphan.block = Reference.block 4 2 3 [] ∧ orphan.receivedAt = 0 :=
        ⟨_, (Option.some_get (by decide +kernel)).symm, by decide +kernel, by decide +kernel⟩
      refine ⟨⟨orphan, ⟨BTreeMap.mem_valuesList.mpr ⟨4, horphan⟩, ?_, ?_, ?_⟩, ?_⟩, ?_, ?_⟩
      · intro i _ _
        rw [hreceived, show Reference.calm.clock i = 0 from rfl]
        decide
      all_goals
        try rw [hblock]
        decide +kernel
  exact (requestsFresh_of_orderlyRun Reference.forkChoiceLaws Reference.chainLaws
    Reference.recordLaws (.empty (E := fun _ => True))
    (Reference.opened_eq_some Reference.opened_calm) hrun).1

/-- The parent of an orphan arrives, both are connected, and the request for
the parent stays in the queue. -/
theorem request_stays_after_parent :
    (Reference.genesisNode.runCalls Reference.calm
        [.applyBlock (Reference.block 4 2 3 []),
          .applyBlock (Reference.block 3 1 1 [])]).orphanBlocks.isEmpty = true ∧
      ¬(Reference.genesisNode.runCalls Reference.calm
        [.applyBlock (Reference.block 4 2 3 []),
          .applyBlock (Reference.block 3 1 1 [])]).RequestsFresh ∧
      (Reference.genesisNode.runCalls Reference.calm
        [.applyBlock (Reference.block 4 2 3 []),
          .applyBlock (Reference.block 3 1 1 [])]).hasPendingSyncWork = true := by
  refine ⟨by decide +kernel, fun h => ?_, by decide +kernel⟩
  have hunknown := (h 3 (by decide +kernel)).2
  revert hunknown
  decide +kernel

end Node

end PaqusNode
