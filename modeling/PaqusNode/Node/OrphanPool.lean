import PaqusNode.Node.Orphans

/-!
# PaqusNode.Node.OrphanPool

The orphan pool and its index by parent are two maps that insertion,
eviction, expiry and the worklist update one after the other.  Whatever
blocks arrive, at whatever clock readings and with whatever storage
failures, the index lists exactly the pooled blocks, each once and under its
own parent, and the pool stays within its capacity.  Nothing is assumed of
the fork-choice index: even an orphan that the worklist has to put back
finds the two maps consistent.
-/

namespace PaqusNode

namespace Node

variable {P : Paqus}

variable {s : Node P} {taken : List BlockHash}

/-- The pool and its index agree but for the hashes in `taken`; besides, no
list of children has repetitions or is empty, and the pool is within its
capacity. -/
structure OrphanPool (s : Node P) (taken : List BlockHash) : Prop
    extends PoolIndexed s taken where
  nodup : ∀ {parent : BlockHash} {children}, s.orphanChildrenByParent[parent]? = some children →
    children.Nodup
  nonempty : ∀ {parent : BlockHash} {children}, s.orphanChildrenByParent[parent]? = some children →
    children ≠ []
  distinct : taken.Nodup
  capacity : s.orphanBlocks.size ≤ maxOrphanBlocks

/-- The invariant is about the pool and its index. -/
theorem OrphanPool.congr {s' : Node P} (h : s.OrphanPool taken)
    (hblocks : s'.orphanBlocks = s.orphanBlocks)
    (hchildren : s'.orphanChildrenByParent = s.orphanChildrenByParent) : s'.OrphanPool taken where
  toPoolIndexed := h.toPoolIndexed.congr hblocks hchildren
  nodup := by
    rw [hchildren]
    exact h.nodup
  nonempty := by
    rw [hchildren]
    exact h.nonempty
  distinct := h.distinct
  capacity := by
    rw [hblocks]
    exact h.capacity

theorem Idle.orphanPool (h : s.Idle) : s.OrphanPool [] where
  toPoolIndexed := h.poolIndexed
  nodup hchildren := by simp [h.orphanChildrenByParent] at hchildren
  nonempty hchildren := by simp [h.orphanChildrenByParent] at hchildren
  distinct := List.nodup_nil
  capacity := by simp [h.orphanBlocks]

/-! ## Removal -/

/-- `remove_orphan` keeps the pool and its index together. -/
theorem OrphanPool.removeOrphan (h : s.OrphanPool taken) (hash : BlockHash) :
    (s.removeOrphan hash).OrphanPool taken where
  toPoolIndexed := h.toPoolIndexed.removeOrphan hash
  nodup hchildren := by
    obtain ⟨old, hold, rfl, -⟩ := removeOrphan_children.mp hchildren
    exact (h.nodup hold).filter _
  nonempty hchildren := by
    obtain ⟨-, -, -, hne⟩ := removeOrphan_children.mp hchildren
    exact hne
  distinct := h.distinct
  capacity := Nat.le_trans Std.ExtTreeMap.size_erase_le h.capacity

theorem OrphanPool.pruneOrphansNow (h : s.OrphanPool taken) (env : Env) :
    (s.pruneOrphansNow env).OrphanPool taken :=
  have htick : s.tick.OrphanPool taken := h.congr rfl rfl
  foldl_removeOrphan_invariant (OrphanPool · taken) (fun hash h => h.removeOrphan hash) _ htick

theorem OrphanPool.evictOrphan (h : s.OrphanPool taken) : s.evictOrphan.OrphanPool taken :=
  evictOrphan_invariant (OrphanPool · taken) (fun hash h => h.removeOrphan hash) h

/-- After an eviction there is room for one more. -/
theorem OrphanPool.evictOrphan_size_lt (h : s.OrphanPool taken) :
    s.evictOrphan.orphanBlocks.size < maxOrphanBlocks := by
  have hcapacity := h.capacity
  unfold Node.evictOrphan
  split
  · next hfull =>
      split
      · next evicted hhead =>
          have hmem : evicted ∈ s.orphanBlocks.keys := List.mem_of_mem_head? hhead
          obtain ⟨orphan, horphan⟩ := Option.isSome_iff_exists.mp
            (Std.ExtTreeMap.mem_iff_isSome_getElem?.mp (Std.ExtTreeMap.mem_keys.mp hmem))
          have hsize := BTreeMap.size_erase_add_one horphan
          show (s.orphanBlocks.erase evicted).size < maxOrphanBlocks
          omega
      · next hhead =>
          rw [List.head?_eq_none_iff, ← List.length_eq_zero_iff, Std.ExtTreeMap.length_keys]
            at hhead
          rw [hhead]
          decide
  · next hroom => omega

/-! ## Insertion -/

/-- A new orphan is entered in both. -/
theorem OrphanPool.storeOrphan (h : s.OrphanPool taken) (env : Env) {block : P.Block} (now : UInt64)
    (hheight : P.block.height block ≠ 0) (hfresh : s.orphanBlocks[P.block.hash block]? = none)
    (hfree : P.block.hash block ∉ taken) (hroom : s.orphanBlocks.size < maxOrphanBlocks) :
    (s.storeOrphan env block now).OrphanPool taken where
  toPoolIndexed := h.toPoolIndexed.storeOrphan env now hheight hfresh hfree
  nodup {parent children} hchildren := by
    rw [storeOrphan_children] at hchildren
    split at hchildren
    · cases hchildren
      cases hold : s.orphanChildrenByParent[parent]? with
      | none => simp
      | some old =>
          rw [Option.getD_some, List.nodup_append]
          refine ⟨h.nodup hold, List.nodup_singleton _, ?_⟩
          rintro child hmem _ hnew rfl
          -- a listed hash is in the pool, the new one is not
          obtain ⟨orphan, horphan, -⟩ := h.filed hold child hmem
          rw [List.mem_singleton.mp hnew, hfresh] at horphan
          cases horphan
    · exact h.nodup hchildren
  nonempty hchildren := by
    rw [storeOrphan_children] at hchildren
    split at hchildren
    · cases hchildren
      simp
    · exact h.nonempty hchildren
  distinct := h.distinct
  capacity := by
    unfold Node.storeOrphan
    simp only [queueMissingParentRequest_orphanBlocks]
    exact Nat.le_trans Std.ExtTreeMap.size_insert_le hroom

/-- Caching an orphan, with the evictions before it. -/
theorem OrphanPool.cacheOrphanBlock (h : s.OrphanPool taken) (env : Env) {block : P.Block}
    (hfree : P.block.hash block ∉ taken) : (s.cacheOrphanBlock env block).OrphanPool taken := by
  have hprune := h.pruneOrphansNow env
  rcases cacheOrphanBlock_cases env s block with heq | ⟨hheight, hnone, heq⟩
  · rw [heq]
    exact hprune
  · rw [heq]
    exact hprune.evictOrphan.storeOrphan env _ hheight (getElem?_evictOrphan_of_none hnone) hfree
      hprune.evictOrphan_size_lt

/-! ## The worklist -/

/-- **One move of the worklist keeps the agreement**, the children of the
visited parent aside. -/
theorem Worklist.Move.orphanPool {env : Env} {w w' : Worklist P}
    (h : w.node.OrphanPool w.children) (hmove : Worklist.Move env w w') :
    w'.node.OrphanPool w'.children := by
  -- an orphan is taken out and tried, on a node that may have changed its chain
  have htry : ∀ {s s' : Node P} {rest : List BlockHash} {child : BlockHash}
      {orphan : OrphanBlock P} {result : Except NodeError Unit},
      s.OrphanPool (child :: rest) →
      applyKnownParentBlock env { s with orphanBlocks := s.orphanBlocks.erase child }
        orphan.block = (s', result) → s'.OrphanPool rest := by
    intro s s' rest child orphan result h hconnect
    have hframe := applyKnownParentBlock_onlyChain env
      { s with orphanBlocks := s.orphanBlocks.erase child } orphan.block
    rw [hconnect] at hframe
    have htaken : OrphanPool { s with orphanBlocks := s.orphanBlocks.erase child } rest :=
      ⟨h.toPoolIndexed.take, h.nodup, h.nonempty, (List.nodup_cons.mp h.distinct).2,
        Nat.le_trans Std.ExtTreeMap.size_erase_le h.capacity⟩
    exact htaken.congr hframe.orphanBlocks hframe.orphanChildrenByParent
  cases hmove with
  | leaf hnone => exact h
  | @visit s parent parents children hsome =>
      have hkeep : ∀ {p : BlockHash} {l}, (s.orphanChildrenByParent.erase parent)[p]? = some l →
          s.orphanChildrenByParent[p]? = some l := by
        intro p l hl
        rw [BTreeMap.getElem?_erase_eq] at hl
        split at hl
        · cases hl
        · exact hl
      exact ⟨h.toPoolIndexed.visit hsome, fun hl => h.nodup (hkeep hl),
        fun hl => h.nonempty (hkeep hl), h.nodup hsome, h.capacity⟩
  | gone hnone =>
      exact ⟨h.toPoolIndexed.gone hnone, h.nodup, h.nonempty, (List.nodup_cons.mp h.distinct).2,
        h.capacity⟩
  | connected _ hconnect => exact htry h hconnect
  | @cached s s' parents child rest orphan hsome hconnect =>
      refine (htry h hconnect).cacheOrphanBlock env ?_
      rw [(h.keyed hsome).1]
      exact (List.nodup_cons.mp h.distinct).1
  | dropped _ hconnect => exact htry h hconnect

/-! ## Whole runs -/

/-- **`apply_block` keeps the pool and its index together.** -/
theorem OrphanPool.applyBlock (h : s.OrphanPool []) (env : Env) (block : P.Block) :
    (s.applyBlock env block).1.OrphanPool [] := by
  have hframe := applyKnownParentBlock_onlyChain env (s.pruneOrphansNow env) block
  have hconnect := (h.pruneOrphansNow env).congr hframe.orphanBlocks hframe.orphanChildrenByParent
  unfold Node.applyBlock
  split
  · next s' hs =>
      rw [hs] at hconnect
      exact (processParents_moves env _ _).invariant (fun w => w.node.OrphanPool w.children)
        (fun h hmove => hmove.orphanPool h) (hconnect.pruneOrphansNow env)
  · next s' hs =>
      rw [hs] at hconnect
      exact hconnect.cacheOrphanBlock env (by simp)
  all_goals
    next hs =>
      rw [hs] at hconnect
      exact hconnect

theorem OrphanPool.applyBlocks (h : s.OrphanPool []) (env : Env) (blocks : List P.Block) :
    (s.applyBlocks env blocks).OrphanPool [] := by
  induction blocks generalizing s with
  | nil => exact h
  | cons block rest ih => exact ih (h.applyBlock env block)

/-- From an empty pool, through any blocks at any clock readings: every
pooled block is filed under its own hash and is not a genesis block; a hash
is listed under a parent exactly if the pool holds it with that parent, and
then once; no parent has an empty list; the pool is within its capacity. -/
theorem orphan_index_exact (env : Env) {s : Node P} (hs : s.Idle) (blocks : List P.Block) :
    (∀ (hash : BlockHash) orphan, (s.applyBlocks env blocks).orphanBlocks[hash]? = some orphan →
        P.block.hash orphan.block = hash ∧ P.block.height orphan.block ≠ 0) ∧
      (∀ parent hash : BlockHash,
        ((∃ children, (s.applyBlocks env blocks).orphanChildrenByParent[parent]? = some children ∧
            hash ∈ children) ↔
          ∃ orphan, (s.applyBlocks env blocks).orphanBlocks[hash]? = some orphan ∧
            P.block.previousHash orphan.block = parent) ∧
        ∀ children, (s.applyBlocks env blocks).orphanChildrenByParent[parent]? = some children →
          hash ∈ children → children.count hash = 1) ∧
      (∀ (parent : BlockHash) children,
        (s.applyBlocks env blocks).orphanChildrenByParent[parent]? = some children →
        children ≠ []) ∧
      (s.applyBlocks env blocks).orphanBlocks.size ≤ maxOrphanBlocks := by
  have h := hs.orphanPool.applyBlocks env blocks
  refine ⟨fun hash orphan horphan => h.keyed horphan, ?_,
    fun parent children hchildren => h.nonempty hchildren, h.capacity⟩
  intro parent hash
  refine ⟨⟨?_, ?_⟩, ?_⟩
  · rintro ⟨children, hchildren, hmem⟩
    exact h.filed hchildren hash hmem
  · rintro ⟨orphan, horphan, rfl⟩
    exact (h.listed horphan).resolve_left (by simp)
  · intro children hchildren hmem
    exact List.count_eq_one_of_mem (h.nodup hchildren) hmem

/-- A block whose parent is unknown is listed once under that parent. -/
theorem orphan_index_exact_of_orphan :
    ∃ children, (Reference.genesisNode.applyBlocks Reference.calm
        [Reference.block 4 2 3 []]).orphanChildrenByParent[(3 : BlockHash)]? = some children ∧
      children.count 4 = 1 := by
  have hlisted : (Reference.genesisNode.applyBlocks Reference.calm
      [Reference.block 4 2 3 []]).orphanChildrenByParent[(3 : BlockHash)]? = some [4] := by
    decide +kernel
  have hidle : Reference.genesisNode.Idle :=
    (genesisOnly_of_initOrLoad Reference.forkChoiceLaws Reference.chainLaws Reference.recordLaws
      (Reference.opened_eq_some Reference.opened_calm)).idle
  have hexact := orphan_index_exact Reference.calm hidle [Reference.block 4 2 3 []]
  exact ⟨[4], hlisted, (hexact.2.1 3 4).2 [4] hlisted List.mem_cons_self⟩

end Node

end PaqusNode
