import PaqusNode.Node.State

/-!
# PaqusNode.Node.Sync

What the node does with blocks it cannot connect yet: the pool of orphan
blocks, the queue of parents to request from peers, the worklist that
connects the orphans of a block once it has arrived, and `apply_block`,
which ties them together.
-/

namespace PaqusNode

namespace Node

variable {P : Paqus}

/-! ## Missing-parent requests -/

/-- `queue_missing_parent_request_at`. -/
def queueMissingParentRequestAt (s : Node P) (hash : BlockHash) (retryAt : UInt64) : Node P :=
  if P.forkChoice.contains s.forkChoice hash then s
  else
    let s := { s with
      missingParentRetryAt := s.missingParentRetryAt.alter hash fun
        | some existing => some (min existing retryAt)
        | none => some retryAt }
    if s.missingParentRequestSet.contains hash then s
    else { s with
      missingParentRequestSet := s.missingParentRequestSet.insert hash
      missingParentRequests := s.missingParentRequests ++ [hash] }

/-- `queue_missing_parent_request`. -/
def queueMissingParentRequest (env : Env) (s : Node P) (hash : BlockHash) : Node P :=
  if P.forkChoice.contains s.forkChoice hash then s
  else s.tick.queueMissingParentRequestAt hash (env.clock s.io)

/-- The loop of `drain_missing_parent_requests_at`: the hashes that are due,
the ones kept, and the remaining set and retry table. -/
def drainLoop (now : UInt64) (set : BTreeSet BlockHash) (retryAt : BTreeMap BlockHash UInt64) :
    List BlockHash →
      List BlockHash × List BlockHash × BTreeSet BlockHash × BTreeMap BlockHash UInt64
  | [] => ([], [], set, retryAt)
  | hash :: rest =>
      if (retryAt[hash]?).getD 0 ≤ now then
        let (ready, pending, set, retryAt) :=
          drainLoop now (set.erase hash) (retryAt.erase hash) rest
        (hash :: ready, pending, set, retryAt)
      else
        let (ready, pending, set, retryAt) := drainLoop now set retryAt rest
        (ready, hash :: pending, set, retryAt)

/-- `drain_missing_parent_requests_at`. -/
def drainMissingParentRequestsAt (s : Node P) (now : UInt64) : Node P × List BlockHash :=
  let (ready, pending, set, retryAt) :=
    drainLoop now s.missingParentRequestSet s.missingParentRetryAt s.missingParentRequests
  ({ s with
    missingParentRequests := pending
    missingParentRequestSet := set
    missingParentRetryAt := retryAt }, ready)

/-- `drain_missing_parent_requests`. -/
def drainMissingParentRequests (env : Env) (s : Node P) : Node P × List BlockHash :=
  s.tick.drainMissingParentRequestsAt (env.clock s.io)

/-- `retry_missing_parent_request`. -/
def retryMissingParentRequest (env : Env) (s : Node P) (hash : BlockHash) : Node P :=
  s.tick.queueMissingParentRequestAt hash (satAdd (env.clock s.io) missingParentRetrySecs)

/-- `has_pending_sync_work`. -/
def hasPendingSyncWork (s : Node P) : Bool :=
  !s.orphanBlocks.isEmpty || !s.missingParentRequests.isEmpty || !s.missingParentRetryAt.isEmpty

/-! ## The orphan pool -/

/-- `orphan_is_too_far_ahead`. -/
def orphanIsTooFarAhead (s : Node P) (block : P.Block) : Bool :=
  decide (satAdd ((P.ledger.tipHeight s.ledger).getD 0) maxOrphanHeightDistance <
    P.block.height block)

/-- `remove_orphan_index`. -/
def removeOrphanIndex (s : Node P) (hash : BlockHash) : Node P :=
  { s with
    orphanChildrenByParent := s.orphanChildrenByParent.filterMap fun _ children =>
      let children := children.filter fun child => child ≠ hash
      if children.isEmpty then none else some children }

/-- `remove_orphan`. -/
def removeOrphan (s : Node P) (hash : BlockHash) : Node P :=
  let s := s.removeOrphanIndex hash
  { s with orphanBlocks := s.orphanBlocks.erase hash }

/-- The test of `prune_expired_orphans`. -/
def orphanExpired (s : Node P) (now : UInt64) (orphan : OrphanBlock P) : Bool :=
  decide (orphanBlockTtlSecs < satSub now orphan.receivedAt) || s.orphanIsTooFarAhead orphan.block

/-- `prune_expired_orphans`. -/
def pruneExpiredOrphans (s : Node P) (now : UInt64) : Node P :=
  let expired := s.orphanBlocks.toList.filterMap fun (hash, orphan) =>
    if s.orphanExpired now orphan then some hash else none
  expired.foldl removeOrphan s

/-- `self.prune_expired_orphans(current_unix_timestamp())`. -/
def pruneOrphansNow (env : Env) (s : Node P) : Node P :=
  s.tick.pruneExpiredOrphans (env.clock s.io)

/-- Make room for one more orphan: at capacity the lowest hash goes. -/
def evictOrphan (s : Node P) : Node P :=
  if maxOrphanBlocks ≤ s.orphanBlocks.size then
    match s.orphanBlocks.keys.head? with
    | some evicted => s.removeOrphan evicted
    | none => s
  else s

/-- Put `block` into the orphan pool, ask for its parent. -/
def storeOrphan (env : Env) (s : Node P) (block : P.Block) (now : UInt64) : Node P :=
  let parent := P.block.previousHash block
  let s := s.queueMissingParentRequest env parent
  { s with
    orphanChildrenByParent := s.orphanChildrenByParent.alter parent fun children =>
      some (children.getD [] ++ [P.block.hash block])
    orphanBlocks := s.orphanBlocks.insert (P.block.hash block) ⟨block, now⟩ }

/-- `cache_orphan_block`. -/
def cacheOrphanBlock (env : Env) (s : Node P) (block : P.Block) : Node P :=
  let now := env.clock s.io
  let s := s.pruneOrphansNow env
  if P.block.height block = 0 then s
  else if s.orphanIsTooFarAhead block then s
  else if P.forkChoice.contains s.forkChoice (P.block.hash block) ||
      s.orphanBlocks.contains (P.block.hash block) then s
  else s.evictOrphan.storeOrphan env block now

/-! ## What the bookkeeping can do -/

/-- Only the orphan pool and the request queue differ. -/
structure OnlySync (s s' : Node P) : Prop where
  ledger : s'.ledger = s.ledger
  mempool : s'.mempool = s.mempool
  storage : s'.storage = s.storage
  consensus : s'.consensus = s.consensus
  cache : s'.cache = s.cache
  forkChoice : s'.forkChoice = s.forkChoice
  genesisAccounts : s'.genesisAccounts = s.genesisAccounts
  durable : s'.durable = s.durable
  io : s.io ≤ s'.io

theorem OnlySync.refl (s : Node P) : OnlySync s s :=
  ⟨rfl, rfl, rfl, rfl, rfl, rfl, rfl, rfl, Nat.le_refl _⟩

/-- One change to the orphans and requests after the other. -/
theorem OnlySync.trans {s₁ s₂ s₃ : Node P} (h : OnlySync s₁ s₂) (h' : OnlySync s₂ s₃) :
    OnlySync s₁ s₃ where
  ledger := h'.ledger.trans h.ledger
  mempool := h'.mempool.trans h.mempool
  storage := h'.storage.trans h.storage
  consensus := h'.consensus.trans h.consensus
  cache := h'.cache.trans h.cache
  forkChoice := h'.forkChoice.trans h.forkChoice
  genesisAccounts := h'.genesisAccounts.trans h.genesisAccounts
  durable := h'.durable.trans h.durable
  io := Nat.le_trans h.io h'.io

theorem OnlySync.tick (s : Node P) : OnlySync s s.tick :=
  ⟨rfl, rfl, rfl, rfl, rfl, rfl, rfl, rfl, Nat.le_succ _⟩

/-- Validation does not look at the orphan pool or the request queue. -/
theorem OnlySync.validateBlockForKnownParent {s s' : Node P} (h : OnlySync s s') (now : UInt64)
    (block : P.Block) :
    s'.validateBlockForKnownParent now block = s.validateBlockForKnownParent now block := by
  unfold Node.validateBlockForKnownParent
  rw [h.consensus, h.forkChoice]

theorem OnlySync.validateBlockStateForKnownParent {s s' : Node P} (h : OnlySync s s')
    (block : P.Block) :
    s'.validateBlockStateForKnownParent block = s.validateBlockStateForKnownParent block := by
  unfold Node.validateBlockStateForKnownParent
  rw [h.ledger, h.forkChoice, h.genesisAccounts]

/-- **Removal rule**: what the removal of one orphan keeps, that of several
keeps. -/
theorem foldl_removeOrphan_invariant (I : Node P → Prop)
    (hremove : ∀ {s : Node P} hash, I s → I (s.removeOrphan hash)) (hashes : List BlockHash)
    {s : Node P} (h : I s) : I (hashes.foldl removeOrphan s) := by
  induction hashes generalizing s with
  | nil => exact h
  | cons hash rest ih => exact ih (hremove hash h)

/-- An eviction is a removal, if it is anything. -/
theorem evictOrphan_invariant (I : Node P → Prop)
    (hremove : ∀ {s : Node P} hash, I s → I (s.removeOrphan hash)) {s : Node P} (h : I s) :
    I s.evictOrphan := by
  unfold evictOrphan
  split
  · split
    · exact hremove _ h
    · exact h
  · exact h

theorem evictOrphan_of_room {s : Node P} (h : s.orphanBlocks.size < maxOrphanBlocks) :
    s.evictOrphan = s := by
  unfold evictOrphan
  rw [if_neg (by omega)]

theorem OnlySync.removeOrphan {s s' : Node P} (h : OnlySync s s') (hash : BlockHash) :
    OnlySync s (s'.removeOrphan hash) :=
  h.trans ⟨rfl, rfl, rfl, rfl, rfl, rfl, rfl, rfl, Nat.le_refl _⟩

theorem pruneOrphansNow_onlySync (env : Env) (s : Node P) : OnlySync s (s.pruneOrphansNow env) :=
  foldl_removeOrphan_invariant (OnlySync s) (fun hash h => h.removeOrphan hash) _ (.tick s)

theorem evictOrphan_onlySync (s : Node P) : OnlySync s s.evictOrphan :=
  evictOrphan_invariant (OnlySync s) (fun hash h => h.removeOrphan hash) (.refl s)

/-- A request changes nothing but the queue. -/
theorem queueMissingParentRequestAt_onlySync (s : Node P) (hash : BlockHash) (retryAt : UInt64) :
    OnlySync s (s.queueMissingParentRequestAt hash retryAt) := by
  unfold queueMissingParentRequestAt
  split
  · exact .refl s
  simp only
  split
  · exact ⟨rfl, rfl, rfl, rfl, rfl, rfl, rfl, rfl, Nat.le_refl _⟩
  · exact ⟨rfl, rfl, rfl, rfl, rfl, rfl, rfl, rfl, Nat.le_refl _⟩

theorem queueMissingParentRequest_onlySync (env : Env) (s : Node P) (hash : BlockHash) :
    OnlySync s (s.queueMissingParentRequest env hash) := by
  unfold queueMissingParentRequest
  split
  · exact .refl s
  · exact (OnlySync.tick s).trans (queueMissingParentRequestAt_onlySync _ _ _)

theorem storeOrphan_onlySync (env : Env) (s : Node P) (block : P.Block) (now : UInt64) :
    OnlySync s (s.storeOrphan env block now) := by
  have hqueue := queueMissingParentRequest_onlySync env s (P.block.previousHash block)
  unfold storeOrphan
  exact hqueue.trans ⟨rfl, rfl, rfl, rfl, rfl, rfl, rfl, rfl, Nat.le_refl _⟩

/-- Caching an orphan changes nothing but orphans and requests. -/
theorem cacheOrphanBlock_onlySync (env : Env) (s : Node P) (block : P.Block) :
    OnlySync s (s.cacheOrphanBlock env block) := by
  have hprune := pruneOrphansNow_onlySync env s
  unfold cacheOrphanBlock
  simp only
  split
  · exact hprune
  split
  · exact hprune
  split
  · exact hprune
  · exact (hprune.trans (evictOrphan_onlySync _)).trans (storeOrphan_onlySync env _ block _)

/-! ## The worklist -/

/-- The inner loop of `process_orphans_for_parent`, over the children of one
parent; `parents` is the stack of parents still to visit, top first. -/
def processChildren (env : Env) (s : Node P) (parents : List BlockHash) :
    List BlockHash → Node P × List BlockHash
  | [] => (s, parents)
  | childHash :: rest =>
      match s.orphanBlocks[childHash]? with
      | none => processChildren env s parents rest
      | some orphan =>
          let s := { s with orphanBlocks := s.orphanBlocks.erase childHash }
          match s.applyKnownParentBlock env orphan.block with
          | (s, .ok ()) => processChildren env s (childHash :: parents) rest
          | (s, .error (.forkChoice .missingParent)) =>
              processChildren env (s.cacheOrphanBlock env orphan.block) parents rest
          | (s, .error _) => processChildren env s parents rest


/-
  The worklist terminates: an orphan that is connected trades its place in
  the pool for a place on the stack, one that goes back to the pool takes
  the place it just left, and each round pops one parent.
-/

theorem foldl_removeOrphan_size_le (hashes : List BlockHash) (s : Node P) :
    (hashes.foldl removeOrphan s).orphanBlocks.size ≤ s.orphanBlocks.size :=
  foldl_removeOrphan_invariant (fun s' => s'.orphanBlocks.size ≤ s.orphanBlocks.size)
    (fun _ h => Nat.le_trans Std.ExtTreeMap.size_erase_le h) hashes (Nat.le_refl _)

/-- A request leaves the orphans alone. -/
theorem queueMissingParentRequestAt_orphanBlocks (s : Node P) (hash : BlockHash)
    (retryAt : UInt64) :
    (s.queueMissingParentRequestAt hash retryAt).orphanBlocks = s.orphanBlocks := by
  unfold queueMissingParentRequestAt
  split
  · rfl
  simp only
  split <;> rfl

theorem queueMissingParentRequest_orphanBlocks (env : Env) (s : Node P) (hash : BlockHash) :
    (s.queueMissingParentRequest env hash).orphanBlocks = s.orphanBlocks := by
  unfold queueMissingParentRequest
  split
  · rfl
  · exact queueMissingParentRequestAt_orphanBlocks _ _ _

theorem evictOrphan_size_le (s : Node P) :
    s.evictOrphan.orphanBlocks.size ≤ s.orphanBlocks.size :=
  evictOrphan_invariant (fun s' => s'.orphanBlocks.size ≤ s.orphanBlocks.size)
    (fun _ h => Nat.le_trans Std.ExtTreeMap.size_erase_le h) (Nat.le_refl _)

/-- Caching adds one orphan at most. -/
theorem cacheOrphanBlock_size_le (env : Env) (s : Node P) (block : P.Block) :
    (s.cacheOrphanBlock env block).orphanBlocks.size ≤ s.orphanBlocks.size + 1 := by
  have hprune : (s.pruneOrphansNow env).orphanBlocks.size ≤ s.orphanBlocks.size :=
    foldl_removeOrphan_size_le _ _
  unfold cacheOrphanBlock
  simp only
  split
  · omega
  split
  · omega
  split
  · omega
  · unfold storeOrphan
    simp only [queueMissingParentRequest_orphanBlocks]
    have hinsert := Std.ExtTreeMap.size_insert_le
      (t := (s.pruneOrphansNow env).evictOrphan.orphanBlocks) (k := P.block.hash block)
      (v := (⟨block, env.clock s.io⟩ : OrphanBlock P))
    have hevict := evictOrphan_size_le (s.pruneOrphansNow env)
    omega

/-- Every parent that the inner loop adds has left the orphans. -/
theorem processChildren_measure (env : Env) (children : List BlockHash) (s : Node P)
    (parents : List BlockHash) :
    (processChildren env s parents children).1.orphanBlocks.size +
        (processChildren env s parents children).2.length ≤
      s.orphanBlocks.size + parents.length := by
  induction children generalizing s parents with
  | nil => exact Nat.le_refl _
  | cons child rest ih =>
      unfold processChildren
      split
      · exact ih s parents
      next orphan horphan =>
      have hsize := BTreeMap.size_erase_add_one horphan
      have hframe := (applyKnownParentBlock_onlyChain env
        { s with orphanBlocks := s.orphanBlocks.erase child } orphan.block).orphanBlocks
      simp only
      split
      · next s' hs =>
          rw [hs] at hframe
          have := ih s' (child :: parents)
          rw [hframe, List.length_cons] at this
          simp only at this
          omega
      · next s' hs =>
          rw [hs] at hframe
          have hcache := cacheOrphanBlock_size_le env s' orphan.block
          have := ih (s'.cacheOrphanBlock env orphan.block) parents
          rw [hframe] at hcache
          simp only at hcache
          omega
      · next s' e he hs =>
          rw [hs] at hframe
          have := ih s' parents
          rw [hframe] at this
          simp only at this
          omega

/-- The outer loop of `process_orphans_for_parent`. -/
def processParents (env : Env) (s : Node P) (parents : List BlockHash) : Node P :=
  match parents with
  | [] => s
  | parent :: parents =>
      match s.orphanChildrenByParent[parent]? with
      | none => processParents env s parents
      | some children =>
          let r := processChildren env
            { s with orphanChildrenByParent := s.orphanChildrenByParent.erase parent }
            parents children
          processParents env r.1 r.2
termination_by s.orphanBlocks.size + parents.length
decreasing_by
  · simp
  · have := processChildren_measure env children
      { s with orphanChildrenByParent := s.orphanChildrenByParent.erase parent } parents
    simp only [List.length_cons]
    simp only at this
    omega

/-- `process_orphans_for_parent`. -/
def processOrphansForParent (env : Env) (s : Node P) (parentHash : BlockHash) : Node P :=
  (s.pruneOrphansNow env).processParents env [parentHash]

/-! ## Receiving a block or a transaction -/

/-- `apply_block`. -/
def applyBlock (env : Env) (s : Node P) (block : P.Block) : Node P × Except NodeError Unit :=
  match (s.pruneOrphansNow env).applyKnownParentBlock env block with
  | (s, .ok ()) => (s.processOrphansForParent env (P.block.hash block), .ok ())
  | (s, .error (.forkChoice .missingParent)) => (s.cacheOrphanBlock env block, .ok ())
  | (s, .error (.forkChoice .duplicateBlock)) => (s, .ok ())
  | (s, .error (.ledger .duplicateBlock)) => (s, .ok ())
  | (s, .error e) => (s, .error e)

/-- A sequence of `apply_block` calls, results discarded. -/
def applyBlocks (env : Env) (s : Node P) (blocks : List P.Block) : Node P :=
  blocks.foldl (fun s block => (s.applyBlock env block).1) s

/-- `submit_transaction`. -/
def submitTransaction (env : Env) (s : Node P) (transaction : P.SignedTransaction) :
    Node P × Except NodeError TransactionHash :=
  let (mempool, result) := s.mempool.insertValidatedAt s.ledger transaction (env.clock s.io)
  ({ s.tick with mempool := mempool }, result.mapError .mempool)

end Node

end PaqusNode
