import PaqusNode.Node.Restart
import PaqusNode.Node.Validated

/-!
# PaqusNode.Node.Orphans

The orphan pool and its index by parent.  At rest the two agree; while the
worklist of `process_orphans_for_parent` runs, the children of the parent
being visited are out of the index and still in the pool.  Every orphan the
worklist takes out has its parent in the fork-choice index, so none goes
back to the pool, and when the worklist is done no orphan is left whose
parent has been connected by it.
-/

namespace PaqusNode

/-- No write fails. -/
structure Env.Faultless (env : Env) : Prop where
  commit : ∀ i, env.commitFault i = none
  flush : ∀ i, env.flushFault i = none

theorem Reference.calm_faultless : Reference.calm.Faultless := ⟨fun _ => rfl, fun _ => rfl⟩

namespace Node

variable {P : Paqus}

variable {env : Env} {s : Node P} {hash k child r : BlockHash} {block : P.Block}
  {taken : List BlockHash}

/-! ## Looking into the pool -/

theorem getElem?_removeOrphan (s : Node P) (hash k : BlockHash) :
    (s.removeOrphan hash).orphanBlocks[k]? = if hash = k then none else s.orphanBlocks[k]? :=
  BTreeMap.getElem?_erase_eq s.orphanBlocks hash k

/-- The index after `remove_orphan`. -/
theorem removeOrphan_children {parent : BlockHash} {children : List BlockHash} :
    (s.removeOrphan hash).orphanChildrenByParent[parent]? = some children ↔
      ∃ old, s.orphanChildrenByParent[parent]? = some old ∧
        children = old.filter (fun child => child ≠ hash) ∧ children ≠ [] := by
  simp only [removeOrphan, removeOrphanIndex, Std.ExtTreeMap.getElem?_filterMap',
    Option.bind_eq_some_iff]
  refine exists_congr fun old => and_congr_right fun _ => ?_
  split
  · next hempty =>
      rw [List.isEmpty_iff] at hempty
      simp only [reduceCtorEq, false_iff, not_and, not_not]
      rintro rfl
      exact hempty
  · next hne =>
      rw [List.isEmpty_iff] at hne
      rw [Option.some.injEq]
      constructor
      · rintro rfl
        exact ⟨rfl, hne⟩
      · rintro ⟨rfl, -⟩
        rfl

/-- The pool once some orphans have been removed. -/
theorem getElem?_foldl_removeOrphan (hashes : List BlockHash) (s : Node P) (k : BlockHash) :
    (hashes.foldl removeOrphan s).orphanBlocks[k]? =
      if k ∈ hashes then none else s.orphanBlocks[k]? := by
  induction hashes generalizing s with
  | nil => simp
  | cons hash rest ih =>
      rw [List.foldl_cons, ih, getElem?_removeOrphan]
      by_cases hrest : k ∈ rest
      · simp [hrest]
      · by_cases hk : hash = k
        · simp [hk]
        · simp [hrest, hk, Ne.symm hk]

/-- The hashes that pruning removes. -/
theorem mem_expiredOrphans {now : UInt64} :
    k ∈ s.orphanBlocks.toList.filterMap (fun (hash, orphan) =>
      if s.orphanExpired now orphan then some hash else none) ↔
      ∃ orphan, s.orphanBlocks[k]? = some orphan ∧ s.orphanExpired now orphan = true := by
  rw [List.mem_filterMap]
  constructor
  · rintro ⟨⟨hash, orphan⟩, hin, heq⟩
    obtain ⟨hexpired, heq⟩ := Option.ite_none_right_eq_some.mp heq
    cases heq
    exact ⟨orphan, Std.ExtTreeMap.mem_toList_iff_getElem?_eq_some.mp hin, hexpired⟩
  · rintro ⟨orphan, hin, hexpired⟩
    exact ⟨(k, orphan), Std.ExtTreeMap.mem_toList_iff_getElem?_eq_some.mpr hin, by
      simp [hexpired]⟩

/-- Pruning keeps the orphans that have not expired. -/
theorem getElem?_pruneExpiredOrphans (s : Node P) (now : UInt64) (k : BlockHash) :
    (s.pruneExpiredOrphans now).orphanBlocks[k]? =
      (s.orphanBlocks[k]?).filter fun orphan => !s.orphanExpired now orphan := by
  unfold pruneExpiredOrphans
  rw [getElem?_foldl_removeOrphan]
  rw [if_congr mem_expiredOrphans rfl rfl]
  cases horphan : s.orphanBlocks[k]? with
  | none => simp
  | some orphan =>
      cases hexpired : s.orphanExpired now orphan with
      | true => simp [hexpired, Option.filter]
      | false => simp [hexpired, Option.filter]

/-- A request leaves the index of the orphans alone. -/
theorem queueMissingParentRequestAt_children (s : Node P) (hash : BlockHash) (retryAt : UInt64) :
    (s.queueMissingParentRequestAt hash retryAt).orphanChildrenByParent =
      s.orphanChildrenByParent := by
  unfold queueMissingParentRequestAt
  split
  · rfl
  simp only
  split <;> rfl

theorem queueMissingParentRequest_children (env : Env) (s : Node P) (hash : BlockHash) :
    (s.queueMissingParentRequest env hash).orphanChildrenByParent = s.orphanChildrenByParent := by
  unfold queueMissingParentRequest
  split
  · rfl
  · exact queueMissingParentRequestAt_children _ _ _

/-! ## The pool and its index -/

/-- The pool and its index agree, but for the hashes in `taken`, which are
out of the index. -/
structure PoolIndexed (s : Node P) (taken : List BlockHash) : Prop where
  keyed : ∀ {hash : BlockHash} {orphan}, s.orphanBlocks[hash]? = some orphan →
    P.block.hash orphan.block = hash ∧ P.block.height orphan.block ≠ 0
  filed : ∀ {parent : BlockHash} {children}, s.orphanChildrenByParent[parent]? = some children →
    ∀ child ∈ children, ∃ orphan, s.orphanBlocks[child]? = some orphan ∧
      P.block.previousHash orphan.block = parent
  unlisted : ∀ child ∈ taken, ∀ {parent : BlockHash} {children},
    s.orphanChildrenByParent[parent]? = some children → child ∉ children
  listed : ∀ {hash : BlockHash} {orphan}, s.orphanBlocks[hash]? = some orphan →
    hash ∈ taken ∨ ∃ children,
      s.orphanChildrenByParent[P.block.previousHash orphan.block]? = some children ∧
        hash ∈ children

/-- Being indexed is about the pool and its index. -/
theorem PoolIndexed.congr {s' : Node P} (h : s.PoolIndexed taken)
    (hblocks : s'.orphanBlocks = s.orphanBlocks)
    (hchildren : s'.orphanChildrenByParent = s.orphanChildrenByParent) : s'.PoolIndexed taken := by
  constructor
  · rw [hblocks]
    exact h.keyed
  · rw [hblocks, hchildren]
    exact h.filed
  · rw [hchildren]
    exact h.unlisted
  · rw [hblocks, hchildren]
    exact h.listed

/-- An empty pool agrees with its empty index. -/
theorem Idle.poolIndexed (h : s.Idle) : s.PoolIndexed [] := by
  constructor
  · intro hash orphan horphan
    simp [h.orphanBlocks] at horphan
  · intro parent children hchildren
    simp [h.orphanChildrenByParent] at hchildren
  · simp
  · intro hash orphan horphan
    simp [h.orphanBlocks] at horphan

/-- An orphan that goes is taken out of the index. -/
theorem PoolIndexed.removeOrphan (h : s.PoolIndexed taken) (hash : BlockHash) :
    (s.removeOrphan hash).PoolIndexed taken := by
  have hkeep : ∀ {k : BlockHash} {orphan},
      (s.removeOrphan hash).orphanBlocks[k]? = some orphan ↔
        k ≠ hash ∧ s.orphanBlocks[k]? = some orphan := by
    intro k orphan
    rw [getElem?_removeOrphan]
    by_cases hk : hash = k
    · simp [hk]
    · simp [hk, Ne.symm hk]
  constructor
  · intro k orphan horphan
    exact h.keyed (hkeep.mp horphan).2
  · intro parent children hchildren child hchild
    obtain ⟨old, hold, rfl, -⟩ := removeOrphan_children.mp hchildren
    obtain ⟨hmem, hne⟩ := List.mem_filter.mp hchild
    obtain ⟨orphan, horphan, hparent⟩ := h.filed hold child hmem
    exact ⟨orphan, hkeep.mpr ⟨by simpa using hne, horphan⟩, hparent⟩
  · intro child htaken parent children hchildren hchild
    obtain ⟨old, hold, rfl, -⟩ := removeOrphan_children.mp hchildren
    exact h.unlisted child htaken hold (List.mem_filter.mp hchild).1
  · intro k orphan horphan
    obtain ⟨hne, horphan⟩ := hkeep.mp horphan
    rcases h.listed horphan with htaken | ⟨children, hchildren, hmem⟩
    · exact .inl htaken
    have hmem' : k ∈ children.filter (fun child => child ≠ hash) :=
      List.mem_filter.mpr ⟨hmem, by simpa using hne⟩
    exact .inr ⟨_, removeOrphan_children.mpr
      ⟨children, hchildren, rfl, List.ne_nil_of_mem hmem'⟩, hmem'⟩

theorem PoolIndexed.pruneOrphansNow (h : s.PoolIndexed taken) (env : Env) :
    (s.pruneOrphansNow env).PoolIndexed taken :=
  have htick : s.tick.PoolIndexed taken := h.congr rfl rfl
  foldl_removeOrphan_invariant (PoolIndexed · taken) (fun hash h => h.removeOrphan hash) _ htick

theorem PoolIndexed.evictOrphan (h : s.PoolIndexed taken) : s.evictOrphan.PoolIndexed taken :=
  evictOrphan_invariant (PoolIndexed · taken) (fun hash h => h.removeOrphan hash) h

theorem getElem?_storeOrphan (env : Env) (s : Node P) (block : P.Block) (now : UInt64)
    (k : BlockHash) : (s.storeOrphan env block now).orphanBlocks[k]? =
      if P.block.hash block = k then some ⟨block, now⟩ else s.orphanBlocks[k]? := by
  unfold Node.storeOrphan
  simp only [queueMissingParentRequest_orphanBlocks]
  exact BTreeMap.getElem?_insert_eq _ _ _ _

/-- The index once an orphan has been stored. -/
theorem storeOrphan_children (env : Env) (s : Node P) (block : P.Block) (now : UInt64)
    (parent : BlockHash) :
    (s.storeOrphan env block now).orphanChildrenByParent[parent]? =
      if P.block.previousHash block = parent
      then some ((s.orphanChildrenByParent[parent]?).getD [] ++ [P.block.hash block])
      else s.orphanChildrenByParent[parent]? := by
  unfold Node.storeOrphan
  simp only [queueMissingParentRequest_children]
  rw [BTreeMap.getElem?_alter_eq]
  split
  · next heq => rw [heq]
  · rfl

/-- An orphan under a new hash displaces none. -/
theorem getElem?_storeOrphan_of_old (env : Env) (now : UInt64)
    (hnew : s.orphanBlocks[P.block.hash block]? = none) {orphan : OrphanBlock P}
    (horphan : s.orphanBlocks[k]? = some orphan) :
    (s.storeOrphan env block now).orphanBlocks[k]? = some orphan := by
  rw [getElem?_storeOrphan, if_neg, horphan]
  rintro rfl
  rw [hnew] at horphan
  cases horphan

/-- What is listed after storing an orphan was listed before or is that
orphan. -/
theorem mem_storeOrphan_children {now : UInt64} {parent : BlockHash} {children : List BlockHash}
    (hget : (s.storeOrphan env block now).orphanChildrenByParent[parent]? = some children)
    (hchild : child ∈ children) :
    (∃ old, s.orphanChildrenByParent[parent]? = some old ∧ child ∈ old) ∨
      (P.block.previousHash block = parent ∧ child = P.block.hash block) := by
  rw [storeOrphan_children] at hget
  split at hget
  · next heq =>
      cases hget
      rcases List.mem_append.mp hchild with hmem | hmem
      · cases hgetOld : s.orphanChildrenByParent[parent]? with
        | none => simp [hgetOld] at hmem
        | some old =>
            rw [hgetOld] at hmem
            exact .inl ⟨old, rfl, hmem⟩
      · exact .inr ⟨heq, List.mem_singleton.mp hmem⟩
  · exact .inl ⟨children, hget, hchild⟩

/-- A stored orphan is in the index. -/
theorem PoolIndexed.storeOrphan (h : s.PoolIndexed taken) (env : Env) (now : UInt64)
    (hheight : P.block.height block ≠ 0) (hfresh : s.orphanBlocks[P.block.hash block]? = none)
    (hfree : P.block.hash block ∉ taken) : (s.storeOrphan env block now).PoolIndexed taken := by
  have hblocks := getElem?_storeOrphan env s block now
  have hchildren := storeOrphan_children env s block now
  constructor
  · intro k orphan horphan
    rw [hblocks] at horphan
    split at horphan
    · next heq =>
        cases horphan
        exact ⟨heq, hheight⟩
    · exact h.keyed horphan
  · intro parent children hget child hchild
    rcases mem_storeOrphan_children hget hchild with ⟨old, hgetOld, hmem⟩ | ⟨hparent, rfl⟩
    · obtain ⟨orphan, horphan, hparent⟩ := h.filed hgetOld child hmem
      exact ⟨orphan, getElem?_storeOrphan_of_old env now hfresh horphan, hparent⟩
    · exact ⟨⟨block, now⟩, by rw [hblocks, if_pos rfl], hparent⟩
  · intro child htaken parent children hget hchild
    rcases mem_storeOrphan_children hget hchild with ⟨old, hgetOld, hmem⟩ | ⟨-, rfl⟩
    · exact h.unlisted child htaken hgetOld hmem
    · exact hfree htaken
  · intro k orphan horphan
    rw [hblocks] at horphan
    split at horphan
    · next heq =>
        cases horphan
        exact .inr ⟨_, by rw [hchildren, if_pos rfl], by simp [heq]⟩
    · rcases h.listed horphan with htaken | ⟨children, hget, hmem⟩
      · exact .inl htaken
      refine .inr ?_
      rw [hchildren]
      split
      · exact ⟨_, rfl, by simp [hget, hmem]⟩
      · exact ⟨children, hget, hmem⟩

theorem getElem?_evictOrphan_of_none (h : s.orphanBlocks[hash]? = none) :
    s.evictOrphan.orphanBlocks[hash]? = none := by
  refine evictOrphan_invariant (fun s => s.orphanBlocks[hash]? = none) ?_ h
  intro s evicted h
  rw [getElem?_removeOrphan, h, ite_self]

/-- What `cache_orphan_block` does: prune, and perhaps store the block, which
is new and not a genesis block. -/
theorem cacheOrphanBlock_cases (env : Env) (s : Node P) (block : P.Block) :
    s.cacheOrphanBlock env block = s.pruneOrphansNow env ∨
      (P.block.height block ≠ 0 ∧
        (s.pruneOrphansNow env).orphanBlocks[P.block.hash block]? = none ∧
        s.cacheOrphanBlock env block =
          (s.pruneOrphansNow env).evictOrphan.storeOrphan env block (env.clock s.io)) := by
  unfold Node.cacheOrphanBlock
  simp only
  split
  · exact .inl rfl
  next hheight =>
  split
  · exact .inl rfl
  split
  · exact .inl rfl
  next hnew =>
  rw [Bool.or_eq_true, not_or] at hnew
  have hnone := hnew.2
  rw [BTreeMap.contains_eq_isSome, Option.not_isSome_iff_eq_none] at hnone
  exact .inr ⟨hheight, hnone, rfl⟩

/-- Caching an orphan, with the evictions before it. -/
theorem PoolIndexed.cacheOrphanBlock (h : s.PoolIndexed taken) (env : Env)
    (hfree : P.block.hash block ∉ taken) : (s.cacheOrphanBlock env block).PoolIndexed taken := by
  have hprune := h.pruneOrphansNow env
  rcases cacheOrphanBlock_cases env s block with heq | ⟨hheight, hnone, heq⟩
  · rw [heq]
    exact hprune
  · rw [heq]
    exact hprune.evictOrphan.storeOrphan env _ hheight (getElem?_evictOrphan_of_none hnone) hfree

/-! ## Which blocks are orphans -/

theorem applyKnownParentBlock_of_missing (env : Env) (hheight : P.block.height block ≠ 0)
    (hmissing : P.forkChoice.get s.forkChoice (P.block.previousHash block) = none) :
    s.applyKnownParentBlock env block = (s.tick, .error (.forkChoice .missingParent)) := by
  unfold applyKnownParentBlock validateBlockForKnownParent
  simp only [hheight, if_false, hmissing]

/-- How the next difficulty above a known block can fail. -/
theorem nextDifficultyAfterBranchTip_error {consensus : Consensus} {forkChoice : P.ForkChoice}
    {tipHash : BlockHash} {tip : ForkNode P.Block} {e : NodeError}
    (htip : P.forkChoice.get forkChoice tipHash = some tip)
    (h : nextDifficultyAfterBranchTip consensus forkChoice tipHash = .error e) :
    (∃ error, e = .consensus error) ∨ e = .reorgRequired := by
  unfold nextDifficultyAfterBranchTip at h
  simp only [htip] at h
  split at h
  · cases h
  split at h
  · cases h
    exact .inr rfl
  split at h
  · cases h
    exact .inr rfl
  split at h
  · cases h
    exact .inl ⟨_, rfl⟩
  · cases h

/-- How the first validation of a block with a known parent can fail. -/
theorem validateBlockForKnownParent_error (hfc : ForkChoiceLaws P) {now : UInt64}
    {parent : ForkNode P.Block} {e : NodeError}
    (hparent : P.forkChoice.get s.forkChoice (P.block.previousHash block) = some parent)
    (h : s.validateBlockForKnownParent now block = .error e) :
    (∃ error, e = .consensus error) ∨ e = .reorgRequired ∨ e = .checkpointMismatch := by
  have hhash := (hfc.get_entry hparent).1
  unfold validateBlockForKnownParent at h
  split at h
  · split at h
    · cases h
      exact .inl ⟨_, rfl⟩
    · cases h
  simp only [hparent] at h
  split at h
  · next e' he' =>
      cases h
      split at he'
      · split at he'
        · next e'' he'' =>
            cases he'
            exact (nextDifficultyAfterBranchTip_error (hhash ▸ hparent) he'').imp_right .inl
        · split at he'
          · cases he'
            exact .inl ⟨_, rfl⟩
          · cases he'
      · cases he'
  split at h
  · cases h
    exact .inl ⟨_, rfl⟩
  split at h
  · cases h
    exact .inr (.inr rfl)
  · cases h

/-- Replaying a branch does not end in an error of fork choice. -/
theorem ledgerForBranchTip_ne_forkChoice (forkChoice : P.ForkChoice)
    (genesisAccounts : BTreeMap Address P.Account) (tip : BlockHash) (e : ForkChoiceError) :
    ledgerForBranchTip forkChoice genesisAccounts tip ≠
      .error (.forkChoice e) := by
  unfold ledgerForBranchTip
  simp only
  split
  · simp
  split
  · simp
  split
  · simp
  split <;> simp

/-- Nor does the check of the state root. -/
theorem validateCanonicalStateRoot_ne_forkChoice (ledger : P.Ledger) (block : P.Block)
    (e : ForkChoiceError) :
    validateCanonicalStateRoot ledger block ≠ .error (.forkChoice e) := by
  unfold validateCanonicalStateRoot
  split
  · simp
  split
  · simp
  split <;> simp

/-- Nor does the check of the state. -/
theorem validateBlockStateForKnownParent_ne_forkChoice (s : Node P) (block : P.Block)
    (e : ForkChoiceError) :
    s.validateBlockStateForKnownParent block ≠ .error (.forkChoice e) := by
  unfold validateBlockStateForKnownParent
  split
  · split
    · next e' he =>
        rw [← he]
        exact validateCanonicalStateRoot_ne_forkChoice _ _ e
    · split <;> simp
  split
  · simp
  split
  · next e' he =>
      rintro ⟨rfl⟩
      exact ledgerForBranchTip_ne_forkChoice _ _ _ e he
  split
  · next e' he =>
      rw [← he]
      exact validateCanonicalStateRoot_ne_forkChoice _ _ e
  · split <;> simp

theorem saveLedger_ne_forkChoice (env : Env) (s : Node P) (e : ForkChoiceError) :
    (s.saveLedger env).2 ≠ .error (.forkChoice e) := by
  unfold saveLedger
  split <;> simp

/-- Nor does connecting a block that the index has taken. -/
theorem connect_ne_forkChoice (env : Env) (s : Node P) (block : P.Block) (hash : BlockHash)
    (e : ForkChoiceError) :
    (s.connect env block hash).2 ≠ .error (.forkChoice e) := by
  unfold connect
  split
  · unfold saveSideBlock
    split <;> simp
  split
  · unfold extendTip
    split
    · simp
    · exact saveLedger_ne_forkChoice _ _ e
  · unfold reorgToBestTip
    split
    · simp
    simp only
    split
    · simp
    split
    · simp
    split
    · simp
    split
    · next e' he =>
        rintro ⟨rfl⟩
        exact ledgerForBranchTip_ne_forkChoice _ _ _ e he
    next ledger _ =>
    have hsave := saveLedger_ne_forkChoice env
      { s with ledger := ledger, cache := CoreCache.fromLedger ledger } e
    rcases hwritten : saveLedger env { s with
        ledger := ledger, cache := CoreCache.fromLedger ledger } with ⟨s', e' | u⟩
    · rw [hwritten] at hsave
      exact hsave
    · simp [reconnect]

/-- **Only a block without its parent in the index is an orphan.** -/
theorem applyKnownParentBlock_ne_missing (hfc : ForkChoiceLaws P) (env : Env)
    (hparent : (P.forkChoice.get s.forkChoice (P.block.previousHash block)).isSome) :
    (s.applyKnownParentBlock env block).2 ≠ .error (.forkChoice .missingParent) := by
  obtain ⟨parent, hparent⟩ := Option.isSome_iff_exists.mp hparent
  unfold applyKnownParentBlock
  split
  · next e he =>
      intro h
      simp only [Except.error.injEq] at h
      subst h
      simpa using validateBlockForKnownParent_error hfc hparent he
  split
  · next e he =>
      intro h
      simp only [Except.error.injEq] at h
      subst h
      exact validateBlockStateForKnownParent_ne_forkChoice _ _ _ he
  split
  · next e he =>
      intro h
      simp only [Except.error.injEq, NodeError.forkChoice.injEq] at h
      subst h
      have hnone := (hfc.insert_missing he).2
      rw [hparent] at hnone
      cases hnone
  · exact connect_ne_forkChoice _ _ _ _ _

/-- What is known of a block that is reported to lack its parent. -/
theorem applyKnownParentBlock_missing (hfc : ForkChoiceLaws P) {s' : Node P}
    (h : s.applyKnownParentBlock env block = (s', .error (.forkChoice .missingParent))) :
    s' = s.tick ∧ P.forkChoice.get s.forkChoice (P.block.previousHash block) = none := by
  constructor
  · rcases applyKnownParentBlock_cases env s block with ⟨e, heq⟩ | ⟨hash, fc, -, -, -, heq⟩
    · rw [heq] at h
      exact (congrArg Prod.fst h).symm
    · have hne := connect_ne_forkChoice env { s.tick with forkChoice := fc } block hash
        .missingParent
      rw [← heq, h] at hne
      exact absurd rfl hne
  · rw [← Option.not_isSome_iff_eq_none]
    intro hparent
    exact applyKnownParentBlock_ne_missing hfc env hparent (by rw [h])

/-! ## Which blocks are connected -/

section Laws

variable (hfc : ForkChoiceLaws P) (hchain : ChainLaws P) (hrec : RecordLaws P)

include hfc hchain hrec

theorem Synced.saveLedger_ok (henv : env.Faultless) (hs : Synced s r) :
    (s.saveLedger env).2 = .ok () := by
  obtain ⟨after, hwrite⟩ := hs.writeLedger_isOk hfc hchain hrec s.storage
  rw [saveLedger_of_commit (henv.commit _) (henv.flush _) hwrite]

/-- Where no write fails, an accepted block is connected. -/
theorem Connected.ok (henv : env.Faultless) (hs : Synced s r) {forkChoice : P.ForkChoice}
    {parent child : P.Ledger}
    (hinsert : P.forkChoice.insertBlock s.forkChoice block = .ok (P.block.hash block, forkChoice))
    (hacc : Accepted s block forkChoice parent child) {result : Node P × Except NodeError Unit}
    (hconn : Connected env { s.tick with forkChoice := forkChoice } block (P.block.hash block)
      child result) : result.2 = .ok () := by
  cases hconn with
  | side _ => rw [saveSideBlock_of_commit (henv.commit _)]
  | active _ mempool mempool' cache k hwrite =>
      have hs' : Synced { s.tick with
          forkChoice := forkChoice, ledger := child, mempool := mempool, cache := cache } r :=
        hs.active hfc hchain hacc hinsert rfl rfl
      rw [hwrite]
      exact hs'.saveLedger_ok hfc hchain hrec henv

/-- Where no write fails, a block is rejected with only the clock read or it
is connected. -/
theorem applyKnownParentBlock_faultless (henv : env.Faultless) (hs : Synced s r) (block : P.Block) :
    (∃ e, s.applyKnownParentBlock env block = (s.tick, .error e)) ∨
      (s.applyKnownParentBlock env block).2 = .ok () := by
  rcases applyKnownParentBlock_connected hfc hchain env hs block with
    hrej | ⟨fc, before, after, -, hinsert, hacc, hconn⟩
  · exact .inl hrej
  · exact .inr (hconn.ok hfc hchain hrec henv hs hinsert hacc)

/-- **Where no write fails, a valid block of admissible difficulty is
connected**, unless it is in the index already. -/
theorem applyKnownParentBlock_of_valid (henv : env.Faultless) (hs : Synced s r)
    (hadmissible : Admissible block)
    (hvalid : s.validateBlockForKnownParent (env.clock s.io) block = .ok ())
    (hstate : s.validateBlockStateForKnownParent block = .ok ()) :
    (s.applyKnownParentBlock env block).2 = .ok () ∨
      ((P.forkChoice.get s.forkChoice (P.block.hash block)).isSome ∧
        s.applyKnownParentBlock env block =
          (s.tick, .error (.forkChoice .duplicateBlock))) := by
  obtain ⟨ledger, child, happlies⟩ := applies_of_valid hs hstate
  have hheight := happlies.height_ne hchain
  obtain ⟨parent, hparent, -⟩ := validateBlockForKnownParent_ok hheight hvalid
  unfold applyKnownParentBlock
  simp only [hvalid, hstate]
  cases hinsert : P.forkChoice.insertBlock s.forkChoice block with
  | error e =>
      rcases hfc.insert_error hadmissible hinsert with rfl | rfl
      · have hnone := (hfc.insert_missing hinsert).2
        rw [hparent] at hnone
        cases hnone
      · exact .inr ⟨hfc.insert_duplicate hinsert, rfl⟩
  | ok inserted =>
      obtain ⟨hash, fc⟩ := inserted
      obtain rfl := (hfc.insert_ok hinsert).1
      have hacc := happlies.accepted hfc hchain hs hinsert
      exact .inl ((connect_connected hfc env hs hstate hinsert hacc).ok hfc hchain hrec henv hs
        hinsert hacc)

end Laws

/-! ## The worklist, move by move -/

variable (P) in
/-- A state of `process_orphans_for_parent`: the node, the stack of parents,
and the children still to try of the parent being visited. -/
structure Worklist where
  node : Node P
  parents : List BlockHash
  children : List BlockHash

/-- One move of the worklist. -/
inductive Worklist.Move (env : Env) : Worklist P → Worklist P → Prop
  | leaf {s : Node P} {parent parents} (hnone : s.orphanChildrenByParent[parent]? = none) :
      Move env ⟨s, parent :: parents, []⟩ ⟨s, parents, []⟩
  | visit {s : Node P} {parent parents children}
      (hsome : s.orphanChildrenByParent[parent]? = some children) :
      Move env ⟨s, parent :: parents, []⟩
        ⟨{ s with orphanChildrenByParent := s.orphanChildrenByParent.erase parent },
          parents, children⟩
  | gone {s : Node P} {parents child rest} (hnone : s.orphanBlocks[child]? = none) :
      Move env ⟨s, parents, child :: rest⟩ ⟨s, parents, rest⟩
  | connected {s s' : Node P} {parents child rest orphan}
      (hsome : s.orphanBlocks[child]? = some orphan)
      (hconnect : applyKnownParentBlock env
        { s with orphanBlocks := s.orphanBlocks.erase child } orphan.block = (s', .ok ())) :
      Move env ⟨s, parents, child :: rest⟩ ⟨s', child :: parents, rest⟩
  | cached {s s' : Node P} {parents child rest orphan}
      (hsome : s.orphanBlocks[child]? = some orphan)
      (hconnect : applyKnownParentBlock env
        { s with orphanBlocks := s.orphanBlocks.erase child } orphan.block =
          (s', .error (.forkChoice .missingParent))) :
      Move env ⟨s, parents, child :: rest⟩ ⟨s'.cacheOrphanBlock env orphan.block, parents, rest⟩
  | dropped {s s' : Node P} {parents child rest orphan e}
      (hsome : s.orphanBlocks[child]? = some orphan)
      (hconnect : applyKnownParentBlock env
        { s with orphanBlocks := s.orphanBlocks.erase child } orphan.block = (s', .error e)) :
      Move env ⟨s, parents, child :: rest⟩ ⟨s', parents, rest⟩

/-- Any number of moves. -/
abbrev Worklist.Moves (env : Env) : Worklist P → Worklist P → Prop :=
  Relation.ReflTransGen (Worklist.Move env)

/-- The inner loop, step by step. -/
theorem processChildren_moves (env : Env) (children : List BlockHash) (s : Node P)
    (parents : List BlockHash) :
    Worklist.Moves env ⟨s, parents, children⟩
      ⟨(processChildren env s parents children).1, (processChildren env s parents children).2,
        []⟩ := by
  induction children generalizing s parents with
  | nil => exact .refl
  | cons child rest ih =>
      unfold processChildren
      split
      · next hnone => exact (ih s parents).head (.gone hnone)
      next orphan hsome =>
      simp only
      split
      · next s' hconnect => exact (ih _ _).head (.connected hsome hconnect)
      · next s' hconnect => exact (ih _ _).head (.cached hsome hconnect)
      · next s' e _ hconnect => exact (ih _ _).head (.dropped hsome hconnect)

/-- The worklist runs until the stack is empty. -/
theorem processParents_moves (env : Env) (s : Node P) (parents : List BlockHash) :
    Worklist.Moves env ⟨s, parents, []⟩ ⟨s.processParents env parents, [], []⟩ := by
  induction s, parents using processParents.induct env with
  | case1 s => unfold processParents; exact .refl
  | case2 s parent parents hnone ih =>
      unfold processParents
      simp only [hnone]
      exact ih.head (.leaf hnone)
  | case3 s parent parents children hsome r ih =>
      unfold processParents
      simp only [hsome]
      exact ((processChildren_moves env children _ parents).trans ih).head (.visit hsome)

/-- **Invariant rule** for the worklist. -/
theorem Worklist.Moves.invariant {w w' : Worklist P} (I : Worklist P → Prop)
    (hrun : Worklist.Moves env w w') (hmove : ∀ {w w'}, I w → Worklist.Move env w w' → I w')
    (hw : I w) : I w' := by
  induction hrun with
  | refl => exact hw
  | tail _ h ih => exact hmove ih h

/-- The pool agrees with its index, and the blocks on the stack and the
parents of the children are in the fork-choice index. -/
structure Worklist.Consistent (w : Worklist P) : Prop where
  pool : w.node.PoolIndexed w.children
  parents : ∀ parent ∈ w.parents, (P.forkChoice.get w.node.forkChoice parent).isSome
  children : ∀ child ∈ w.children, ∀ orphan, w.node.orphanBlocks[child]? = some orphan →
    (P.forkChoice.get w.node.forkChoice (P.block.previousHash orphan.block)).isSome

section Laws

variable (hfc : ForkChoiceLaws P)

include hfc

/-- A call enters the block itself into the index, or nothing. -/
theorem applyKnownParentBlock_get (env : Env) (s : Node P) (block : P.Block) (k : BlockHash) :
    P.forkChoice.get (s.applyKnownParentBlock env block).1.forkChoice k =
        P.forkChoice.get s.forkChoice k ∨
      (k = P.block.hash block ∧ P.forkChoice.get s.forkChoice k = none ∧
        P.forkChoice.get (s.applyKnownParentBlock env block).1.forkChoice k =
          some ⟨k, P.block.height block, block⟩) := by
  rcases applyKnownParentBlock_forkChoice env s block with ⟨h, -⟩ | ⟨hash, hinsert⟩
  · exact .inl (by rw [h])
  · obtain ⟨rfl, hfresh, -, hall⟩ := hfc.insert_ok hinsert
    rw [hall k]
    split
    · next heq =>
        subst heq
        exact .inr ⟨rfl, hfresh, rfl⟩
    · exact .inl rfl

theorem applyKnownParentBlock_known (env : Env) (s : Node P) (block : P.Block)
    (h : (P.forkChoice.get s.forkChoice k).isSome) :
    (P.forkChoice.get (s.applyKnownParentBlock env block).1.forkChoice k).isSome := by
  rcases applyKnownParentBlock_get hfc env s block k with heq | ⟨-, -, heq⟩
  · rwa [heq]
  · rw [heq]
    rfl

/-- A connected block is in the index. -/
theorem applyKnownParentBlock_known_self (env : Env)
    (hok : (s.applyKnownParentBlock env block).2 = .ok ()) :
    (P.forkChoice.get (s.applyKnownParentBlock env block).1.forkChoice
      (P.block.hash block)).isSome := by
  rcases applyKnownParentBlock_forkChoice env s block with ⟨-, h⟩ | ⟨hash, hinsert⟩
  · exact absurd hok h
  · obtain ⟨rfl, -, -, hall⟩ := hfc.insert_ok hinsert
    rw [hall, if_pos rfl]
    rfl

/-- A connected block was not in the index. -/
theorem applyKnownParentBlock_fresh (env : Env)
    (hok : (s.applyKnownParentBlock env block).2 = .ok ()) :
    P.forkChoice.get s.forkChoice (P.block.hash block) = none := by
  rcases applyKnownParentBlock_forkChoice env s block with ⟨-, h⟩ | ⟨hash, hinsert⟩
  · exact absurd hok h
  · obtain ⟨rfl, hfresh, -, -⟩ := hfc.insert_ok hinsert
    exact hfresh

/-- A block in the index stays there. -/
theorem Steps.known {s' : Node P} (hrun : Steps env s s')
    (h : (P.forkChoice.get s.forkChoice k).isSome) : (P.forkChoice.get s'.forkChoice k).isSome := by
  obtain ⟨entry, hentry⟩ := Option.isSome_iff_exists.mp h
  have hitem := (hrun.grown hfc).index.item (indexed_item_eq_some.mpr ⟨entry, hentry, rfl⟩)
  rw [get_of_indexed hfc hitem]
  rfl

omit hfc in
/-- The children of a visited parent are taken out of the index at once. -/
theorem PoolIndexed.visit {parent : BlockHash} {children : List BlockHash} (h : s.PoolIndexed [])
    (hsome : s.orphanChildrenByParent[parent]? = some children) :
    PoolIndexed { s with orphanChildrenByParent := s.orphanChildrenByParent.erase parent }
      children := by
  have hkeep : ∀ {p : BlockHash} {l},
      (s.orphanChildrenByParent.erase parent)[p]? = some l ↔
        p ≠ parent ∧ s.orphanChildrenByParent[p]? = some l := by
    intro p l
    rw [BTreeMap.getElem?_erase_eq]
    by_cases hp : parent = p
    · simp [hp]
    · simp [hp, Ne.symm hp]
  constructor
  · exact h.keyed
  · intro p l hl
    exact h.filed (hkeep.mp hl).2
  · intro child hchild p l hl hmem
    obtain ⟨hne, hold⟩ := hkeep.mp hl
    obtain ⟨orphan, horphan, hparent⟩ := h.filed hsome child hchild
    obtain ⟨orphan', horphan', hparent'⟩ := h.filed hold child hmem
    rw [horphan, Option.some.injEq] at horphan'
    exact hne (by rw [← hparent, ← hparent', horphan'])
  · intro hash orphan horphan
    rcases h.listed horphan with hnil | ⟨l, hl, hmem⟩
    · cases hnil
    by_cases hp : P.block.previousHash orphan.block = parent
    · rw [hp, hsome, Option.some.injEq] at hl
      exact .inl (hl ▸ hmem)
    · exact .inr ⟨l, hkeep.mpr ⟨hp, hl⟩, hmem⟩

omit hfc in
/-- One of them is taken out of the pool. -/
theorem PoolIndexed.take {rest : List BlockHash} (h : s.PoolIndexed (child :: rest)) :
    PoolIndexed { s with orphanBlocks := s.orphanBlocks.erase child } rest := by
  have hkeep : ∀ {k : BlockHash} {orphan}, (s.orphanBlocks.erase child)[k]? = some orphan ↔
      k ≠ child ∧ s.orphanBlocks[k]? = some orphan := by
    intro k orphan
    rw [BTreeMap.getElem?_erase_eq]
    by_cases hk : child = k
    · simp [hk]
    · simp [hk, Ne.symm hk]
  constructor
  · intro k orphan horphan
    exact h.keyed (hkeep.mp horphan).2
  · intro p l hl k hk
    obtain ⟨orphan, horphan, hparent⟩ := h.filed hl k hk
    refine ⟨orphan, hkeep.mpr ⟨?_, horphan⟩, hparent⟩
    rintro rfl
    exact h.unlisted k List.mem_cons_self hl hk
  · intro k hk p l
    exact h.unlisted k (List.mem_cons_of_mem _ hk)
  · intro k orphan horphan
    obtain ⟨hne, horphan⟩ := hkeep.mp horphan
    exact (h.listed horphan).imp_left fun hmem => (List.mem_cons.mp hmem).resolve_left hne

omit hfc in
/-- One that is not in the pool any more is passed over. -/
theorem PoolIndexed.gone {rest : List BlockHash} (h : s.PoolIndexed (child :: rest))
    (hnone : s.orphanBlocks[child]? = none) : s.PoolIndexed rest := by
  refine (h.take).congr ?_ rfl
  refine (Std.ExtTreeMap.ext_getElem? fun k => ?_)
  rw [BTreeMap.getElem?_erase_eq]
  split
  · next heq => rw [← heq, hnone]
  · rfl

/-- An orphan the worklist takes out is never cached again. -/
theorem Worklist.Consistent.ne_missing {parents rest : List BlockHash} {orphan : OrphanBlock P}
    (h : Worklist.Consistent ⟨s, parents, child :: rest⟩)
    (hsome : s.orphanBlocks[child]? = some orphan) :
    (applyKnownParentBlock env { s with orphanBlocks := s.orphanBlocks.erase child }
      orphan.block).2 ≠ .error (.forkChoice .missingParent) :=
  applyKnownParentBlock_ne_missing hfc env (h.children child List.mem_cons_self orphan hsome)

/-- **One move keeps the worklist consistent.** -/
theorem Worklist.Move.consistent {w w' : Worklist P} (h : w.Consistent)
    (hmove : Worklist.Move env w w') : w'.Consistent := by
  -- an orphan is taken out and tried, on a node whose index may have grown
  have htry : ∀ {s s' : Node P} {parents rest : List BlockHash} {child : BlockHash}
      {orphan : OrphanBlock P} {result : Except NodeError Unit},
      Worklist.Consistent ⟨s, parents, child :: rest⟩ →
      applyKnownParentBlock env { s with orphanBlocks := s.orphanBlocks.erase child }
        orphan.block = (s', result) → Worklist.Consistent ⟨s', parents, rest⟩ := by
    intro s s' parents rest child orphan result h hconnect
    have hframe := applyKnownParentBlock_onlyChain env
      { s with orphanBlocks := s.orphanBlocks.erase child } orphan.block
    have hknown := fun k => applyKnownParentBlock_known hfc env
      { s with orphanBlocks := s.orphanBlocks.erase child } orphan.block (k := k)
    rw [hconnect] at hframe hknown
    refine ⟨h.pool.take.congr hframe.orphanBlocks hframe.orphanChildrenByParent, ?_, ?_⟩
    · intro parent hparent
      exact hknown parent (h.parents parent hparent)
    · intro k hk o ho
      have hblocks : s'.orphanBlocks = s.orphanBlocks.erase child := hframe.orphanBlocks
      simp only [hblocks] at ho
      rw [BTreeMap.getElem?_erase_eq] at ho
      split at ho
      · cases ho
      · exact hknown _ (h.children k (List.mem_cons_of_mem _ hk) o ho)
  cases hmove with
  | leaf hnone =>
      exact ⟨h.pool, fun p hp => h.parents p (List.mem_cons_of_mem _ hp), by simp⟩
  | visit hsome =>
      refine ⟨h.pool.visit hsome, fun p hp => h.parents p (List.mem_cons_of_mem _ hp), ?_⟩
      intro child hchild orphan horphan
      obtain ⟨orphan', horphan', hparent⟩ := h.pool.filed hsome child hchild
      simp only at horphan
      rw [horphan, Option.some.injEq] at horphan'
      rw [horphan', hparent]
      exact h.parents _ List.mem_cons_self
  | gone hnone =>
      exact ⟨h.pool.gone hnone, h.parents, fun k hk => h.children k (List.mem_cons_of_mem _ hk)⟩
  | @connected s s' parents child rest orphan hsome hconnect =>
      obtain ⟨hpool, hparents, hchildren⟩ := htry h hconnect
      refine ⟨hpool, ?_, hchildren⟩
      intro parent hparent
      rcases List.mem_cons.mp hparent with rfl | hparent
      · have hself := applyKnownParentBlock_known_self hfc env (show
          (applyKnownParentBlock env { s with orphanBlocks := s.orphanBlocks.erase parent }
            orphan.block).2 = .ok () by rw [hconnect])
        rw [hconnect, (h.pool.keyed hsome).1] at hself
        exact hself
      · exact hparents parent hparent
  | cached hsome hconnect =>
      exact absurd (by rw [hconnect]) (h.ne_missing hfc hsome)
  | dropped _ hconnect => exact htry h hconnect

omit hfc in
/-- The worklist starts from a pool that agrees with its index. -/
theorem PoolIndexed.consistent (h : s.PoolIndexed [])
    (hknown : (P.forkChoice.get s.forkChoice hash).isSome) : Worklist.Consistent ⟨s, [hash], []⟩ :=
  ⟨h, fun p hp => List.mem_singleton.mp hp ▸ hknown, by simp⟩

/-- Connecting the orphans of a known block keeps the index. -/
theorem PoolIndexed.processOrphansForParent (h : s.PoolIndexed []) (env : Env)
    (hknown : (P.forkChoice.get s.forkChoice hash).isSome) :
    (s.processOrphansForParent env hash).PoolIndexed [] := by
  have hprune := h.pruneOrphansNow env
  have hknown' : (P.forkChoice.get (s.pruneOrphansNow env).forkChoice hash).isSome := by
    rwa [(pruneOrphansNow_onlySync env s).forkChoice]
  exact ((processParents_moves env _ _).invariant Worklist.Consistent
    (fun h hmove => hmove.consistent hfc h) (hprune.consistent hknown')).pool

/-- **`apply_block` keeps the orphan pool and its index in agreement.** -/
theorem PoolIndexed.applyBlock (h : s.PoolIndexed []) (env : Env) (block : P.Block) :
    (s.applyBlock env block).1.PoolIndexed [] := by
  have hframe := applyKnownParentBlock_onlyChain env (s.pruneOrphansNow env) block
  have hconnect := (h.pruneOrphansNow env).congr hframe.orphanBlocks hframe.orphanChildrenByParent
  unfold Node.applyBlock
  split
  · next s' hs =>
      have hself := applyKnownParentBlock_known_self hfc env (show
        ((s.pruneOrphansNow env).applyKnownParentBlock env block).2 = .ok () by rw [hs])
      rw [hs] at hconnect hself
      exact hconnect.processOrphansForParent hfc env hself
  · next s' hs =>
      rw [hs] at hconnect
      exact hconnect.cacheOrphanBlock env (by simp)
  all_goals
    next hs =>
      rw [hs] at hconnect
      exact hconnect

theorem PoolIndexed.applyBlocks (h : s.PoolIndexed []) (env : Env) (blocks : List P.Block) :
    (s.applyBlocks env blocks).PoolIndexed [] := by
  induction blocks generalizing s with
  | nil => exact h
  | cons block rest ih => exact ih (h.applyBlock hfc env block)

end Laws

end Node

end PaqusNode
