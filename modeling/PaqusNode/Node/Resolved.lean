import PaqusNode.Node.Requests

/-!
# PaqusNode.Node.Resolved

Orphan resolution runs to the end.  While the worklist is at work, every
orphan whose parent is in the fork-choice index is about to be visited: its
parent is on the stack, or it is one of the children being tried.  So when
`apply_block` returns no orphan has its parent in the index.

What becomes of the orphans of a block that enters the index is accounted
for one by one: connected, or dropped as expired or rejected.  An orphan
below a dropped one is not looked at; it stays in the pool, its parent
outside of the index.
-/

namespace PaqusNode

namespace Node

variable {P : Paqus}

variable {env : Env} {s s' : Node P} {r : BlockHash} {block : P.Block} {orphan : OrphanBlock P}
  {new : List P.Block}

/-! ## Between two calls -/

/-- No orphan has its parent in the index, and none is in the index itself. -/
structure Resolved (s : Node P) : Prop where
  waiting : ∀ {hash : BlockHash} {orphan}, s.orphanBlocks[hash]? = some orphan →
    P.forkChoice.get s.forkChoice (P.block.previousHash orphan.block) = none
  apart : ∀ {hash : BlockHash} {orphan}, s.orphanBlocks[hash]? = some orphan →
    P.forkChoice.get s.forkChoice hash = none

theorem Idle.resolved (h : s.Idle) : s.Resolved := by
  constructor <;>
  · intro hash orphan horphan
    simp [h.orphanBlocks] at horphan

/-- Orphans may go as long as the index stays. -/
theorem Resolved.shrink (h : s.Resolved) (hfork : s'.forkChoice = s.forkChoice)
    (hsub : ∀ {hash : BlockHash} {orphan}, s'.orphanBlocks[hash]? = some orphan →
      s.orphanBlocks[hash]? = some orphan) : s'.Resolved where
  waiting horphan := by
    rw [hfork]
    exact h.waiting (hsub horphan)
  apart horphan := by
    rw [hfork]
    exact h.apart (hsub horphan)

/-- An eviction adds no orphan. -/
theorem getElem?_of_evictOrphan {k : BlockHash} (h : s.evictOrphan.orphanBlocks[k]? = some orphan) :
    s.orphanBlocks[k]? = some orphan := by
  refine evictOrphan_invariant (fun s' => s'.orphanBlocks[k]? = some orphan →
    s.orphanBlocks[k]? = some orphan) ?_ id h
  intro s' evicted hkept hget
  rw [getElem?_removeOrphan] at hget
  split at hget
  · cases hget
  · exact hkept hget

/-- Where the orphans of the pool come from after a block has been cached. -/
theorem getElem?_of_cacheOrphanBlock {k : BlockHash}
    (h : (s.cacheOrphanBlock env block).orphanBlocks[k]? = some orphan) :
    s.orphanBlocks[k]? = some orphan ∨
      (k = P.block.hash block ∧ orphan = ⟨block, env.clock s.io⟩ ∧
        P.forkChoice.contains s.forkChoice k = false) := by
  have hfork := (pruneOrphansNow_onlySync env s).forkChoice
  unfold cacheOrphanBlock at h
  simp only at h
  split at h
  · exact .inl (getElem?_of_pruneOrphansNow h)
  split at h
  · exact .inl (getElem?_of_pruneOrphansNow h)
  split at h
  · exact .inl (getElem?_of_pruneOrphansNow h)
  next hnew =>
  rw [getElem?_storeOrphan] at h
  split at h
  · next heq =>
      cases h
      rw [Bool.or_eq_true, not_or, hfork, heq, Bool.not_eq_true] at hnew
      exact .inr ⟨heq.symm, rfl, hnew.1⟩
  · exact .inl (getElem?_of_pruneOrphansNow (getElem?_of_evictOrphan h))

/-- A block is cached only while its parent is missing. -/
theorem Resolved.cacheOrphanBlock (hfc : ForkChoiceLaws P) (h : s.Resolved) (env : Env)
    (hmissing : P.forkChoice.get s.forkChoice (P.block.previousHash block) = none) :
    (s.cacheOrphanBlock env block).Resolved := by
  have hfork := (cacheOrphanBlock_onlySync env s block).forkChoice
  constructor
  · intro hash orphan horphan
    rw [hfork]
    rcases getElem?_of_cacheOrphanBlock horphan with hold | ⟨-, rfl, -⟩
    · exact h.waiting hold
    · exact hmissing
  · intro hash orphan horphan
    rw [hfork]
    rcases getElem?_of_cacheOrphanBlock horphan with hold | ⟨-, -, hnew⟩
    · exact h.apart hold
    · exact hfc.contains_eq_false.mp hnew

/-! ## While the worklist runs -/

/-- Every orphan whose parent is in the index is about to be visited. -/
structure Worklist.Covered (w : Worklist P) : Prop where
  waiting : ∀ {hash : BlockHash} {orphan}, w.node.orphanBlocks[hash]? = some orphan →
    (P.forkChoice.get w.node.forkChoice (P.block.previousHash orphan.block)).isSome →
    P.block.previousHash orphan.block ∈ w.parents ∨ hash ∈ w.children
  apart : ∀ {hash : BlockHash} {orphan}, w.node.orphanBlocks[hash]? = some orphan →
    P.forkChoice.get w.node.forkChoice hash = none

/-- With nothing left to visit the pool is resolved. -/
theorem Worklist.Covered.resolved (h : Worklist.Covered ⟨s, [], []⟩) : s.Resolved where
  waiting horphan := by
    rw [← Option.not_isSome_iff_eq_none]
    intro hknown
    simpa using h.waiting horphan hknown
  apart := h.apart

/-- Between `s` and `s'` the orphan was found expired, or was tried with its
parent in the index and rejected. -/
def Dropped (env : Env) (s s' : Node P) (orphan : OrphanBlock P) : Prop :=
  ∃ s₁, Steps env s s₁ ∧ Steps env s₁ s' ∧
    (s₁.orphanExpired (env.clock s₁.io) orphan = true ∨
      ((P.forkChoice.get s₁.forkChoice (P.block.previousHash orphan.block)).isSome ∧
        P.forkChoice.get s₁.forkChoice (P.block.hash orphan.block) = none ∧
        ∃ e, s₁.applyKnownParentBlock env orphan.block = (s₁.tick, .error e)))

theorem Dropped.trans {s₀ s'' : Node P} (h : Dropped env s s' orphan) (hbefore : Steps env s₀ s)
    (hafter : Steps env s' s'') : Dropped env s₀ s'' orphan := by
  obtain ⟨s₁, hs₁, hs', hwhy⟩ := h
  exact ⟨s₁, hbefore.trans hs₁, hs'.trans hafter, hwhy⟩

/-- From `s` to `s'` the index has grown by orphans and by the blocks `new`
only, and every orphan is in the pool still, in the index, or dropped. -/
structure Accounted (env : Env) (new : List P.Block) (s s' : Node P) : Prop where
  run : Steps env s s'
  pool : ∀ {hash : BlockHash} {orphan}, s'.orphanBlocks[hash]? = some orphan →
    s.orphanBlocks[hash]? = some orphan
  index : ∀ {hash entry}, P.forkChoice.get s'.forkChoice hash = some entry →
    P.forkChoice.get s.forkChoice hash = some entry ∨ entry.block ∈ new ∨
      ∃ orphan, s.orphanBlocks[hash]? = some orphan ∧ entry.block = orphan.block
  each : ∀ {hash : BlockHash} {orphan}, s.orphanBlocks[hash]? = some orphan →
    s'.orphanBlocks[hash]? = some orphan ∨ (P.forkChoice.get s'.forkChoice hash).isSome ∨
      Dropped env s s' orphan

theorem Accounted.refl (env : Env) (s : Node P) : Accounted env [] s s :=
  ⟨.refl, id, .inl, .inl⟩

/-- One stretch after the other. -/
theorem Accounted.trans (hfc : ForkChoiceLaws P) {new' : List P.Block} {s'' : Node P}
    (h : Accounted env new s s') (h' : Accounted env new' s' s'') :
    Accounted env (new ++ new') s s'' where
  run := h.run.trans h'.run
  pool horphan := h.pool (h'.pool horphan)
  index hentry := by
    rcases h'.index hentry with hold | hnew | ⟨orphan, horphan, heq⟩
    · exact (h.index hold).imp_right fun hin => hin.imp_left (List.mem_append_left _)
    · exact .inr (.inl (List.mem_append_right _ hnew))
    · exact .inr (.inr ⟨orphan, h.pool horphan, heq⟩)
  each horphan := by
    rcases h.each horphan with hin | hknown | hdropped
    · exact (h'.each hin).imp_right fun hout =>
        hout.imp_right fun hdropped => hdropped.trans h.run .refl
    · exact .inr (.inl (h'.run.known hfc hknown))
    · exact .inr (.inr (hdropped.trans .refl h'.run))

/-- Pruning drops expired orphans. -/
theorem Accounted.pruneOrphansNow (env : Env) (s : Node P) :
    Accounted env [] s (s.pruneOrphansNow env) := by
  have hsync := pruneOrphansNow_onlySync env s
  refine ⟨.sync hsync, getElem?_of_pruneOrphansNow, ?_, ?_⟩
  · intro hash entry hentry
    rw [hsync.forkChoice] at hentry
    exact .inl hentry
  · intro hash orphan horphan
    have hpruned := getElem?_pruneExpiredOrphans s.tick (env.clock s.io) hash
    rw [show s.tick.orphanBlocks[hash]? = some orphan from horphan] at hpruned
    cases hexpired : s.tick.orphanExpired (env.clock s.io) orphan with
    | false =>
        refine .inl (hpruned.trans ?_)
        simp [Option.filter, hexpired]
    | true => exact .inr (.inr ⟨s, .refl, .sync hsync, .inl hexpired⟩)

/-- Connecting a block leaves the pool alone. -/
theorem Accounted.connect (hfc : ForkChoiceLaws P) (env : Env) (s : Node P) (block : P.Block) :
    Accounted env [block] s (s.applyKnownParentBlock env block).1 := by
  have hpool := (applyKnownParentBlock_onlyChain env s block).orphanBlocks
  refine ⟨Steps.connect env s block, ?_, ?_, ?_⟩
  · intro hash orphan horphan
    rwa [hpool] at horphan
  · intro hash entry hentry
    rcases applyKnownParentBlock_get hfc env s block hash with heq | ⟨-, -, heq⟩
    · rw [heq] at hentry
      exact .inl hentry
    · rw [heq] at hentry
      cases hentry
      exact .inr (.inl List.mem_cons_self)
  · intro hash orphan horphan
    rw [hpool]
    exact .inl horphan

/-- The worklist started in `s` is consistent, has its orphans covered and has
lost none of them. -/
structure Worklist.Resolving (env : Env) (r : BlockHash) (s : Node P) (w : Worklist P) : Prop where
  consistent : w.Consistent
  synced : Synced w.node r
  covered : w.Covered
  accounted : Accounted env [] s w.node

/-- An orphan is taken out and tried. -/
theorem Accounted.tried {s₁ : Node P} {child : BlockHash} (h : Accounted env [] s s₁)
    (hsome : s₁.orphanBlocks[child]? = some orphan) (hkeyed : P.block.hash orphan.block = child)
    (hframe : s'.orphanBlocks = s₁.orphanBlocks.erase child) (hrun : Steps env s₁ s')
    (hindex : ∀ k, P.forkChoice.get s'.forkChoice k = P.forkChoice.get s₁.forkChoice k ∨
      k = P.block.hash orphan.block ∧
        P.forkChoice.get s'.forkChoice k = some ⟨k, P.block.height orphan.block, orphan.block⟩)
    (hout : (P.forkChoice.get s'.forkChoice child).isSome ∨ Dropped env s s' orphan) :
    Accounted env [] s s' := by
  have hpool : ∀ k : BlockHash, s'.orphanBlocks[k]? =
      if child = k then none else s₁.orphanBlocks[k]? := by
    intro k
    rw [hframe, BTreeMap.getElem?_erase_eq]
  refine ⟨h.run.trans hrun, ?_, ?_, ?_⟩
  · intro k o ho
    rw [hpool] at ho
    split at ho
    · cases ho
    · exact h.pool ho
  · intro k entry hentry
    rcases hindex k with heq | ⟨rfl, heq⟩
    · rw [heq] at hentry
      exact h.index hentry
    · rw [heq] at hentry
      cases hentry
      refine .inr (.inr ⟨orphan, ?_, rfl⟩)
      rw [hkeyed]
      exact h.pool hsome
  · intro k o ho
    rcases h.each ho with hin | hknown | hdropped
    · by_cases hk : child = k
      · subst hk
        rw [hsome, Option.some.injEq] at hin
        subst hin
        exact .inr hout
      · refine .inl ?_
        rw [hpool, if_neg hk]
        exact hin
    · refine .inr (.inl ?_)
      rcases hindex k with heq | ⟨-, heq⟩
      · rwa [heq]
      · rw [heq]
        rfl
    · exact .inr (.inr (hdropped.trans .refl hrun))

/-- How `apply_block` ends where no write fails. -/
inductive Received (env : Env) (s : Node P) (block : P.Block) : Node P → Prop
  | connected {s' : Node P}
      (hknown : (P.forkChoice.get s'.forkChoice (P.block.hash block)).isSome)
      (haccounted : Accounted env [block] s s') (hresolved : s'.Resolved) :
      Received env s block s'
  | cached (hmissing : P.forkChoice.get s.forkChoice (P.block.previousHash block) = none) :
      Received env s block ((s.pruneOrphansNow env).tick.cacheOrphanBlock env block)
  | rejected {e : NodeError} (hreject : (s.pruneOrphansNow env).applyKnownParentBlock env block =
      ((s.pruneOrphansNow env).tick, .error e)) (hne : e ≠ .forkChoice .missingParent) :
      Received env s block (s.pruneOrphansNow env).tick

section Laws

variable (hfc : ForkChoiceLaws P) (hchain : ChainLaws P) (hrec : RecordLaws P)

include hfc hchain hrec

omit hfc hchain hrec in
/-- The steps of taking an orphan out of the pool and trying it. -/
theorem take_steps (env : Env) (s : Node P) (child : BlockHash) (block : P.Block) :
    Steps env s { s with orphanBlocks := s.orphanBlocks.erase child } ∧
      Steps env s (applyKnownParentBlock env
        { s with orphanBlocks := s.orphanBlocks.erase child } block).1 := by
  have htake : Steps env s { s with orphanBlocks := s.orphanBlocks.erase child } :=
    .sync ⟨rfl, rfl, rfl, rfl, rfl, rfl, rfl, rfl, Nat.le_refl _⟩
  exact ⟨htake, htake.trans (Steps.connect env _ block)⟩

omit hrec in
/-- A child that connects is visited as a parent next. -/
theorem Worklist.Resolving.connected {s₁ : Node P} {parents rest : List BlockHash}
    {child : BlockHash} (h : Worklist.Resolving env r s ⟨s₁, parents, child :: rest⟩)
    (hsome : s₁.orphanBlocks[child]? = some orphan) (hconnect : applyKnownParentBlock env
      { s₁ with orphanBlocks := s₁.orphanBlocks.erase child } orphan.block = (s', .ok ())) :
    Synced s' r ∧ Worklist.Covered ⟨s', child :: parents, rest⟩ ∧ Accounted env [] s s' := by
  have hkeyed := (h.consistent.pool.keyed hsome).1
  obtain ⟨-, hrun⟩ := take_steps env s₁ child orphan.block
  have hframe := applyKnownParentBlock_onlyChain env
    { s₁ with orphanBlocks := s₁.orphanBlocks.erase child } orphan.block
  have hget := applyKnownParentBlock_get hfc env
    { s₁ with orphanBlocks := s₁.orphanBlocks.erase child } orphan.block
  have hself := applyKnownParentBlock_known_self hfc env (show (applyKnownParentBlock env
    { s₁ with orphanBlocks := s₁.orphanBlocks.erase child } orphan.block).2 = .ok () by
      rw [hconnect])
  rw [hconnect] at hrun hframe hget hself
  simp only at hrun hget hself
  rw [hkeyed] at hself
  have hpool : s'.orphanBlocks = s₁.orphanBlocks.erase child := hframe.orphanBlocks
  refine ⟨hrun.synced hfc hchain h.synced, ⟨?_, ?_⟩, ?_⟩
  · intro k o ho hknown
    simp only [hpool] at ho
    rw [BTreeMap.getElem?_erase_eq] at ho
    split at ho
    · cases ho
    next hne =>
    rcases hget (P.block.previousHash o.block) with heq | ⟨heq, -, -⟩
    · rw [heq] at hknown
      rcases h.covered.waiting ho hknown with hmem | hmem
      · exact .inl (List.mem_cons_of_mem _ hmem)
      · exact .inr ((List.mem_cons.mp hmem).resolve_left (Ne.symm hne))
    · rw [heq, hkeyed]
      exact .inl List.mem_cons_self
  · intro k o ho
    simp only [hpool] at ho
    rw [BTreeMap.getElem?_erase_eq] at ho
    split at ho
    · cases ho
    next hne =>
    rcases hget k with heq | ⟨heq, -, -⟩
    · rw [heq]
      exact h.covered.apart ho
    · exact absurd (hkeyed.symm.trans heq.symm) hne
  · exact h.accounted.tried hsome hkeyed hpool hrun
      (fun k => (hget k).imp_right fun hnew => ⟨hnew.1, hnew.2.2⟩) (.inl hself)

/-- A child that does not connect is dropped, with the reason for it. -/
theorem Worklist.Resolving.dropped (henv : env.Faultless) {s₁ : Node P}
    {parents rest : List BlockHash} {child : BlockHash} {e : NodeError}
    (h : Worklist.Resolving env r s ⟨s₁, parents, child :: rest⟩)
    (hsome : s₁.orphanBlocks[child]? = some orphan) (hconnect : applyKnownParentBlock env
      { s₁ with orphanBlocks := s₁.orphanBlocks.erase child } orphan.block = (s', .error e)) :
    Synced s' r ∧ Worklist.Covered ⟨s', parents, rest⟩ ∧ Accounted env [] s s' := by
  have hkeyed := (h.consistent.pool.keyed hsome).1
  obtain ⟨htake, hrun⟩ := take_steps env s₁ child orphan.block
  have hsynced : Synced { s₁ with orphanBlocks := s₁.orphanBlocks.erase child } r :=
    h.synced.congr rfl rfl rfl
  have hparent := h.consistent.children child List.mem_cons_self orphan hsome
  rcases applyKnownParentBlock_faultless hfc hchain hrec henv hsynced orphan.block with
    ⟨e', hrej⟩ | hok
  swap
  · rw [hconnect] at hok
    cases hok
  have hlast : Steps env { s₁ with orphanBlocks := s₁.orphanBlocks.erase child } s' := by
    have hstep := Steps.connect env
      { s₁ with orphanBlocks := s₁.orphanBlocks.erase child } orphan.block
    rwa [hconnect] at hstep
  have hs' : s' = tick { s₁ with orphanBlocks := s₁.orphanBlocks.erase child } := by
    rw [hrej] at hconnect
    exact (congrArg Prod.fst hconnect).symm
  rw [hconnect] at hrun
  refine ⟨hrun.synced hfc hchain h.synced, ⟨?_, ?_⟩, ?_⟩
  · intro k o ho hknown
    simp only [hs', tick] at ho hknown
    rw [BTreeMap.getElem?_erase_eq] at ho
    split at ho
    · cases ho
    next hne =>
    exact (h.covered.waiting ho hknown).imp_right fun hmem =>
      (List.mem_cons.mp hmem).resolve_left (Ne.symm hne)
  · intro k o ho
    simp only [hs', tick] at ho ⊢
    rw [BTreeMap.getElem?_erase_eq] at ho
    split at ho
    · cases ho
    · exact h.covered.apart ho
  · refine h.accounted.tried hsome hkeyed (by rw [hs']; rfl) hrun
      (fun k => .inl (by rw [hs']; rfl)) (.inr ?_)
    refine ⟨_, h.accounted.run.trans htake, hlast, .inr ⟨hparent, ?_, e', hrej⟩⟩
    rw [hkeyed]
    exact h.covered.apart hsome

/-- **One move of the worklist keeps the orphans covered and accounted for.** -/
theorem Worklist.Move.resolving (henv : env.Faultless) {w w' : Worklist P}
    (h : Worklist.Resolving env r s w) (hmove : Worklist.Move env w w') :
    Worklist.Resolving env r s w' := by
  have hconsistent := hmove.consistent hfc h.consistent
  cases hmove with
  | leaf hnone =>
      refine ⟨hconsistent, h.synced, ⟨?_, h.covered.apart⟩, h.accounted⟩
      intro hash orphan horphan hknown
      rcases h.covered.waiting horphan hknown with hmem | hmem
      · rcases List.mem_cons.mp hmem with heq | hmem
        · -- the orphan would be in the index of the pool
          rcases h.consistent.pool.listed horphan with htaken | ⟨children, hchildren, -⟩
          · cases htaken
          · rw [heq, hnone] at hchildren
            cases hchildren
        · exact .inl hmem
      · cases hmem
  | @visit s₁ parent parents children hsome =>
      have htake : Steps env s₁
          { s₁ with orphanChildrenByParent := s₁.orphanChildrenByParent.erase parent } :=
        .sync ⟨rfl, rfl, rfl, rfl, rfl, rfl, rfl, rfl, Nat.le_refl _⟩
      obtain ⟨hrun, hpool, hindex, heach⟩ := h.accounted
      refine ⟨hconsistent, h.synced.congr rfl rfl rfl, ⟨?_, h.covered.apart⟩,
        hrun.trans htake, hpool, hindex, fun ho => (heach ho).imp_right
          fun hrest => hrest.imp_right fun hdropped => hdropped.trans .refl htake⟩
      intro hash orphan horphan hknown
      rcases h.covered.waiting horphan hknown with hmem | hmem
      · rcases List.mem_cons.mp hmem with heq | hmem
        · rcases h.consistent.pool.listed horphan with htaken | ⟨siblings, hsiblings, hmem⟩
          · cases htaken
          · rw [heq, hsome, Option.some.injEq] at hsiblings
            exact .inr (hsiblings ▸ hmem)
        · exact .inl hmem
      · cases hmem
  | gone hnone =>
      refine ⟨hconsistent, h.synced, ⟨?_, h.covered.apart⟩, h.accounted⟩
      intro hash orphan horphan hknown
      refine (h.covered.waiting horphan hknown).imp_right fun hmem => ?_
      rcases List.mem_cons.mp hmem with rfl | hmem
      · rw [hnone] at horphan
        cases horphan
      · exact hmem
  | connected hsome hconnect =>
      obtain ⟨hs', hcovered, haccounted⟩ := h.connected hfc hchain hsome hconnect
      exact ⟨hconsistent, hs', hcovered, haccounted⟩
  | cached hsome hconnect =>
      exact absurd (by rw [hconnect]) (h.consistent.ne_missing hfc hsome)
  | dropped hsome hconnect =>
      obtain ⟨hs', hcovered, haccounted⟩ := h.dropped hfc hchain hrec henv hsome hconnect
      exact ⟨hconsistent, hs', hcovered, haccounted⟩

/-- **The worklist resolves the pool.**  `s` has just connected the block
`hash`, and every orphan whose parent is in the index waits for that block. -/
theorem processOrphansForParent_resolved (henv : env.Faultless) {hash : BlockHash} (hs : Synced s r)
    (hpool : s.PoolIndexed []) (hknown : (P.forkChoice.get s.forkChoice hash).isSome)
    (hcovered : Worklist.Covered ⟨s, [hash], []⟩) :
    (s.processOrphansForParent env hash).Resolved ∧
      Accounted env [] s (s.processOrphansForParent env hash) := by
  have hsync := pruneOrphansNow_onlySync env s
  have hstart : Worklist.Resolving env r (s.pruneOrphansNow env)
      ⟨s.pruneOrphansNow env, [hash], []⟩ := by
    refine ⟨(hpool.pruneOrphansNow env).consistent (by rwa [hsync.forkChoice]),
      hs.congr hsync.ledger hsync.forkChoice hsync.genesisAccounts, ⟨?_, ?_⟩, .refl env _⟩
    · intro k orphan horphan hparent
      rw [hsync.forkChoice] at hparent
      exact hcovered.waiting (getElem?_of_pruneOrphansNow horphan) hparent
    · intro k orphan horphan
      rw [hsync.forkChoice]
      exact hcovered.apart (getElem?_of_pruneOrphansNow horphan)
  have hend := (processParents_moves env (s.pruneOrphansNow env) [hash]).invariant
    (Worklist.Resolving env r (s.pruneOrphansNow env))
    (fun h hmove => hmove.resolving hfc hchain hrec henv h) hstart
  exact ⟨hend.covered.resolved, (Accounted.pruneOrphansNow env s).trans hfc hend.accounted⟩

omit hrec in
/-- Only the orphans of the block just connected have their parent in the
index now.  An orphan with the block's own hash names the same parent, which
is not in the index while the orphan waits. -/
theorem Resolved.covered (h : s.Resolved) (hs : Synced s r)
    (hsame : ∀ orphan, s.orphanBlocks[P.block.hash block]? = some orphan →
      P.block.previousHash orphan.block = P.block.previousHash block)
    (hok : (s.applyKnownParentBlock env block).2 = .ok ()) :
    Worklist.Covered ⟨(s.applyKnownParentBlock env block).1, [P.block.hash block], []⟩ := by
  have hpool := (applyKnownParentBlock_onlyChain env s block).orphanBlocks
  have hget := applyKnownParentBlock_get hfc env s block
  have hparent : (P.forkChoice.get s.forkChoice (P.block.previousHash block)).isSome := by
    rcases applyKnownParentBlock_connected hfc hchain env hs block with
      ⟨e, hrej⟩ | ⟨fc, before, after, -, hinsert, hacc, -⟩
    · rw [hrej] at hok
      cases hok
    · exact (hfc.insert_ok hinsert).2.2.1 (not_parentless hacc.height_ne)
  constructor
  · intro k orphan horphan hknown
    simp only [hpool] at horphan
    rcases hget (P.block.previousHash orphan.block) with heq | ⟨heq, -, -⟩
    · rw [heq, h.waiting horphan] at hknown
      cases hknown
    · exact .inl (by rw [heq]; exact List.mem_cons_self)
  · intro k orphan horphan
    simp only [hpool] at horphan
    rcases hget k with heq | ⟨rfl, -, -⟩
    · rw [heq]
      exact h.apart horphan
    · have hnone := h.waiting horphan
      rw [hsame orphan horphan] at hnone
      rw [hnone] at hparent
      cases hparent

/-- **Every way `apply_block` can end where no write fails**: the block is
connected and the pool resolved behind it, or it is cached, or it is
rejected. -/
theorem applyBlock_received (henv : env.Faultless) (h : s.Resolved) (hs : Synced s r)
    (hpool : s.PoolIndexed [])
    (hsame : ∀ orphan, s.orphanBlocks[P.block.hash block]? = some orphan →
      P.block.previousHash orphan.block = P.block.previousHash block) :
    Received env s block (s.applyBlock env block).1 := by
  have hsync := pruneOrphansNow_onlySync env s
  have hs₁ := hs.congr hsync.ledger hsync.forkChoice hsync.genesisAccounts
  have hres₁ := h.shrink hsync.forkChoice getElem?_of_pruneOrphansNow
  have hpool₁ := hpool.pruneOrphansNow env
  have hframe := applyKnownParentBlock_onlyChain env (s.pruneOrphansNow env) block
  have haccounted := (Accounted.pruneOrphansNow env s).trans hfc
    (Accounted.connect hfc env (s.pruneOrphansNow env) block)
  -- a block that is not connected leaves the index alone
  have hreject : ∀ {s' : Node P} {e}, (s.pruneOrphansNow env).applyKnownParentBlock env block =
      (s', .error e) → s' = (s.pruneOrphansNow env).tick := by
    intro s' e heq
    rcases applyKnownParentBlock_faultless hfc hchain hrec henv hs₁ block with ⟨e', hrej⟩ | hok
    · rw [hrej] at heq
      exact (congrArg Prod.fst heq).symm
    · rw [heq] at hok
      cases hok
  unfold Node.applyBlock
  split
  · next s' heq =>
      have hok : ((s.pruneOrphansNow env).applyKnownParentBlock env block).2 = .ok () := by
        rw [heq]
      have hcovered := hres₁.covered hfc hchain hs₁
        (fun orphan horphan => hsame orphan (getElem?_of_pruneOrphansNow horphan)) hok
      have hself := applyKnownParentBlock_known_self hfc env hok
      have hs' := (Steps.connect env (s.pruneOrphansNow env) block).synced hfc hchain hs₁
      have hpool' := hpool₁.congr hframe.orphanBlocks hframe.orphanChildrenByParent
      rw [heq] at hcovered hself hs' hpool' haccounted
      obtain ⟨hresolved, hrest⟩ := processOrphansForParent_resolved hfc hchain hrec henv hs'
        hpool' hself hcovered
      have hall := haccounted.trans hfc hrest
      exact .connected (hrest.run.known hfc hself) hall hresolved
  · next s' heq =>
      obtain ⟨rfl, hmissing⟩ := applyKnownParentBlock_missing hfc heq
      refine .cached ?_
      rwa [← hsync.forkChoice]
  · next heq =>
      obtain rfl := hreject heq
      exact .rejected heq (by simp)
  · next heq =>
      obtain rfl := hreject heq
      exact .rejected heq (by simp)
  · next hne _ _ heq =>
      obtain rfl := hreject heq
      exact .rejected heq hne

end Laws

/-! ## What the calls keep -/

/-- A received block leaves no orphan behind whose parent is known. -/
theorem Received.resolved (hfc : ForkChoiceLaws P) (h : s.Resolved)
    (hrec : Received env s block s') : s'.Resolved := by
  have hsync := (pruneOrphansNow_onlySync env s).trans (OnlySync.tick _)
  have hshrunk : (s.pruneOrphansNow env).tick.Resolved :=
    h.shrink hsync.forkChoice getElem?_of_pruneOrphansNow
  cases hrec with
  | connected _ _ hresolved => exact hresolved
  | cached hmissing =>
      refine hshrunk.cacheOrphanBlock hfc env ?_
      rw [hsync.forkChoice]
      exact hmissing
  | rejected _ _ => exact hshrunk

/-- Only the block itself can be new in the pool. -/
theorem Received.getElem?_orphanBlocks (hrec : Received env s block s') {k : BlockHash}
    (horphan : s'.orphanBlocks[k]? = some orphan) :
    s.orphanBlocks[k]? = some orphan ∨ orphan.block = block := by
  cases hrec with
  | connected _ haccounted _ => exact .inl (haccounted.pool horphan)
  | cached _ =>
      rcases getElem?_of_cacheOrphanBlock horphan with hold | ⟨-, rfl, -⟩
      · exact .inl (getElem?_of_pruneOrphansNow hold)
      · exact .inr rfl
  | rejected _ _ => exact .inl (getElem?_of_pruneOrphansNow horphan)

/-! ## Runs -/

/-- Blocks that satisfy `D` have a hash of their own, as far as the parent
they name goes. -/
def Identified (D : P.Block → Prop) : Prop :=
  ∀ {b b'}, D b → D b' → P.block.hash b = P.block.hash b' →
    P.block.previousHash b = P.block.previousHash b'

/-- A node between two calls that deliver blocks satisfying `D`. -/
structure Tidy (D : P.Block → Prop) (r : BlockHash) (s : Node P) : Prop where
  synced : Synced s r
  pool : s.PoolIndexed []
  resolved : s.Resolved
  delivered : ∀ {hash : BlockHash} {orphan}, s.orphanBlocks[hash]? = some orphan → D orphan.block

theorem Idle.tidy (h : s.Idle) (hs : Synced s r) (D : P.Block → Prop) : Tidy D r s :=
  ⟨hs, h.poolIndexed, h.resolved, by simp [h.orphanBlocks]⟩

section Laws

variable (hfc : ForkChoiceLaws P) (hchain : ChainLaws P) (hrec : RecordLaws P)

include hfc hchain hrec

theorem Tidy.received (henv : env.Faultless) {D : P.Block → Prop} (hD : Identified D)
    (h : Tidy D r s) (hblock : D block) : Received env s block (s.applyBlock env block).1 :=
  applyBlock_received hfc hchain hrec henv h.resolved h.synced h.pool fun _ horphan =>
    hD (h.delivered horphan) hblock (h.pool.keyed horphan).1

/-- **One call leaves a tidy node tidy.** -/
theorem Tidy.applyBlock (henv : env.Faultless) {D : P.Block → Prop} (hD : Identified D)
    (h : Tidy D r s) (hblock : D block) : Tidy D r (s.applyBlock env block).1 := by
  have hreceived := h.received hfc hchain hrec henv hD hblock
  refine ⟨(applyBlock_steps env s block).synced hfc hchain h.synced,
    h.pool.applyBlock hfc env block, hreceived.resolved hfc h.resolved, ?_⟩
  intro hash orphan horphan
  rcases hreceived.getElem?_orphanBlocks horphan with hold | rfl
  · exact h.delivered hold
  · exact hblock

/-- Any number of deliveries. -/
theorem Tidy.applyBlocks (henv : env.Faultless) {D : P.Block → Prop} (hD : Identified D)
    {blocks : List P.Block} (hblocks : ∀ b ∈ blocks, D b) (h : Tidy D r s) :
    Tidy D r (s.applyBlocks env blocks) := by
  induction blocks generalizing s with
  | nil => exact h
  | cons block rest ih =>
      exact ih (fun b hb => hblocks b (List.mem_cons_of_mem _ hb))
        (h.applyBlock hfc hchain hrec henv hD (hblocks block List.mem_cons_self))

end Laws

/-! ## Descendants in the pool -/

/-- `child` is in the pool and names `parent`. -/
def Waits (s : Node P) (parent child : BlockHash) : Prop :=
  ∃ orphan, s.orphanBlocks[child]? = some orphan ∧ P.block.previousHash orphan.block = parent

/-- The orphan `hash` of `s` is neither in the pool nor in the index of `s'`,
having been dropped as expired or rejected. -/
def Lost (env : Env) (s s' : Node P) (hash : BlockHash) : Prop :=
  ∃ orphan, s.orphanBlocks[hash]? = some orphan ∧ s'.orphanBlocks[hash]? = none ∧
    P.forkChoice.get s'.forkChoice hash = none ∧ Dropped env s s' orphan

/-- What becomes of an orphan. -/
theorem Accounted.fate (h : Accounted env new s s') {hash : BlockHash}
    (horphan : s.orphanBlocks[hash]? = some orphan) :
    s'.orphanBlocks[hash]? = some orphan ∨ (P.forkChoice.get s'.forkChoice hash).isSome ∨
      Lost env s s' hash := by
  rcases h.each horphan with hstays | hknown | hdropped
  · exact .inl hstays
  · exact .inr (.inl hknown)
  cases hget : s'.orphanBlocks[hash]? with
  | some o => exact .inl ((h.pool hget).symm.trans horphan)
  | none =>
      cases hknown : P.forkChoice.get s'.forkChoice hash with
      | some entry => exact .inr (.inl rfl)
      | none => exact .inr (.inr ⟨orphan, horphan, hget, hknown, hdropped⟩)

/-- The orphan of an indexed block has been connected or dropped. -/
theorem Accounted.child (h : Accounted env new s s') (hresolved : s'.Resolved)
    {parent child : BlockHash} (hparent : (P.forkChoice.get s'.forkChoice parent).isSome)
    (hwaits : Waits s parent child) :
    (P.forkChoice.get s'.forkChoice child).isSome ∨ Lost env s s' child := by
  obtain ⟨orphan, horphan, rfl⟩ := hwaits
  refine (h.fate horphan).resolve_left fun hstays => ?_
  rw [hresolved.waiting hstays] at hparent
  cases hparent

/-- The orphan `hash` is in the pool of `s'` still, its parent is not in the
index, and a block between `x` and it has been lost. -/
structure Stranded (env : Env) (s s' : Node P) (x hash : BlockHash) : Prop where
  stays : ∃ orphan, s'.orphanBlocks[hash]? = some orphan ∧
    P.forkChoice.get s'.forkChoice (P.block.previousHash orphan.block) = none
  between : ∃ between, Relation.TransGen (Waits s) x between ∧
    Relation.TransGen (Waits s) between hash ∧ Lost env s s' between

/-- Descendants of an indexed block are connected up to the first one lost, and
the others are lost themselves or stranded. -/
theorem Accounted.descendant (h : Accounted env new s s') (hresolved : s'.Resolved)
    {x hash : BlockHash} (hx : (P.forkChoice.get s'.forkChoice x).isSome)
    (hpath : Relation.TransGen (Waits s) x hash) :
    (P.forkChoice.get s'.forkChoice hash).isSome ∨ Lost env s s' hash ∨
      Stranded env s s' x hash := by
  -- below a lost block an orphan is connected, lost or stays
  have hbelow : ∀ {between parent child}, Relation.TransGen (Waits s) x between →
      Relation.TransGen (Waits s) between child → Lost env s s' between → Waits s parent child →
      (P.forkChoice.get s'.forkChoice child).isSome ∨ Lost env s s' child ∨
        Stranded env s s' x child := by
    rintro between parent child hfrom hto hlost ⟨orphan, horphan, -⟩
    rcases h.fate horphan with hstays | hknown | hlost'
    · exact .inr (.inr ⟨⟨orphan, hstays, hresolved.waiting hstays⟩, between, hfrom, hto, hlost⟩)
    · exact .inl hknown
    · exact .inr (.inl hlost')
  induction hpath with
  | single hwaits => exact (h.child hresolved hx hwaits).imp_right .inl
  | tail hpath hwaits ih =>
      rcases ih with hknown | hlost | ⟨-, between, hfrom, hto, hlost⟩
      · exact (h.child hresolved hknown hwaits).imp_right .inl
      · exact hbelow hpath (.single hwaits) hlost hwaits
      · exact hbelow hfrom (hto.tail hwaits) hlost hwaits

/-- **Orphan resolution is complete.**  Whatever blocks a node receives, no
orphan has its parent in the index and none is in the index itself; and when
a call has entered a block into the index, every cached descendant of it has
been entered or dropped, or it stays in the pool, below a parent that is not
in the index, because one between has been dropped. -/
theorem orphans_resolved (hfc : ForkChoiceLaws P) (hchain : ChainLaws P) (hrec : RecordLaws P)
    {E : Env → Prop} {db db' : Storage P} (hdb : Written E db) {env : Env}
    (henv : env.Faultless) {io : Nat} {consensus : Consensus} {s₀ : Node P}
    (hopen : initOrLoad env io db consensus = (db', .ok s₀)) (blocks : List P.Block)
    (block : P.Block) (hblocks : Identified (P := P) (· ∈ block :: blocks)) :
    (∀ {hash : BlockHash} {orphan},
      (s₀.applyBlocks env blocks).orphanBlocks[hash]? = some orphan →
      P.forkChoice.get (s₀.applyBlocks env blocks).forkChoice
          (P.block.previousHash orphan.block) = none ∧
        P.forkChoice.get (s₀.applyBlocks env blocks).forkChoice hash = none) ∧
    ∀ {x hash : BlockHash},
      P.forkChoice.get (s₀.applyBlocks env blocks).forkChoice x = none →
      (P.forkChoice.get ((s₀.applyBlocks env blocks).applyBlock env block).1.forkChoice
        x).isSome →
      Relation.TransGen (Waits (s₀.applyBlocks env blocks)) x hash →
      (P.forkChoice.get ((s₀.applyBlocks env blocks).applyBlock env block).1.forkChoice
          hash).isSome ∨
        Lost env (s₀.applyBlocks env blocks)
          ((s₀.applyBlocks env blocks).applyBlock env block).1 hash ∨
        Stranded env (s₀.applyBlocks env blocks)
          ((s₀.applyBlocks env blocks).applyBlock env block).1 x hash := by
  obtain ⟨_, _, g, _, _, -, hopened⟩ := hdb.opened hfc hchain hrec hopen
  have htidy := (hopened.idle.tidy hopened.synced (· ∈ block :: blocks)).applyBlocks hfc hchain
    hrec henv hblocks fun b hb => List.mem_cons_of_mem _ hb
  refine ⟨fun horphan => ⟨htidy.resolved.waiting horphan, htidy.resolved.apart horphan⟩, ?_⟩
  intro x hash hx hx' hpath
  have hnext := htidy.applyBlock hfc hchain hrec henv hblocks List.mem_cons_self
  -- a call that cached or rejected its block has not changed the index
  have hunchanged : ((s₀.applyBlocks env blocks).applyBlock env block).1.forkChoice ≠
      (s₀.applyBlocks env blocks).forkChoice := by
    intro heq
    rw [heq, hx] at hx'
    cases hx'
  have hreceived := htidy.received hfc hchain hrec henv hblocks List.mem_cons_self
  generalize ((s₀.applyBlocks env blocks).applyBlock env block).1 = s' at *
  have hsync := (pruneOrphansNow_onlySync env (s₀.applyBlocks env blocks)).trans (OnlySync.tick _)
  cases hreceived with
  | connected _ haccounted _ => exact haccounted.descendant hnext.resolved hx' hpath
  | cached _ =>
      exact absurd ((cacheOrphanBlock_onlySync env _ block).forkChoice.trans hsync.forkChoice)
        hunchanged
  | rejected _ _ => exact absurd hsync.forkChoice hunchanged

end Node

namespace Reference

/-- A block whose payment has the wrong nonce, and a block on top of it, both
waiting for block 2. -/
def rejectedBranch : List Block := [block 5 2 2 [payment 2 7], block 6 3 5 []]

/-- The node with the rejected branch in its pool. -/
def rejectingNode : Node paqus := genesisNode.applyBlocks calm rejectedBranch

/-- The node after block 2 has arrived. -/
def rejectedNode : Node paqus := (rejectingNode.applyBlock calm (block 2 1 1 [])).1

theorem rejectingNode_waits : Relation.TransGen rejectingNode.Waits 2 6 :=
  have hchild : rejectingNode.Waits 2 5 :=
    ⟨_, (Option.some_get (by decide +kernel)).symm, by decide +kernel⟩
  have hgrandchild : rejectingNode.Waits 5 6 :=
    ⟨_, (Option.some_get (by decide +kernel)).symm, by decide +kernel⟩
  .tail (.single hchild) hgrandchild

theorem rejectedNode_contains : rejectedNode.orphanBlocks.contains 6 = true := by decide +kernel

end Reference

namespace Node

/-- Block 2 arrives, block 5 is tried and rejected, and block 6 stays in the
pool: neither connected nor dropped. -/
theorem descendant_of_rejected_stays :
    Reference.paqus.forkChoice.get Reference.rejectingNode.forkChoice 2 = none ∧
      (Reference.paqus.forkChoice.get Reference.rejectedNode.forkChoice 2).isSome ∧
      Relation.TransGen Reference.rejectingNode.Waits 2 6 ∧
      Reference.rejectedNode.orphanBlocks.contains 6 = true ∧
      Reference.paqus.forkChoice.get Reference.rejectedNode.forkChoice 6 = none :=
  ⟨by decide +kernel, by decide +kernel, Reference.rejectingNode_waits,
    Reference.rejectedNode_contains, by decide +kernel⟩

/-- In that run the theorem finds block 6 stranded below a dropped one. -/
theorem orphans_resolved_of_rejectedBranch :
    Stranded Reference.calm Reference.rejectingNode Reference.rejectedNode 2 6 := by
  have hidentified : ∀ b ∈ Reference.block 2 1 1 [] :: Reference.rejectedBranch,
      ∀ b' ∈ Reference.block 2 1 1 [] :: Reference.rejectedBranch,
        b.hash = b'.hash → b.previousHash = b'.previousHash := by
    decide +kernel
  have hresolved := (orphans_resolved Reference.forkChoiceLaws Reference.chainLaws
    Reference.recordLaws (E := fun _ => True) .empty Reference.calm_faultless
    (Reference.opened_eq_some Reference.opened_calm) Reference.rejectedBranch
    (Reference.block 2 1 1 []) fun hb hb' => hidentified _ hb _ hb').2 (x := 2)
    (by decide +kernel) (by decide +kernel) Reference.rejectingNode_waits
  rcases hresolved with hknown | ⟨_, _, hgone, _, _⟩ | hstranded
  · exact absurd hknown (by decide +kernel)
  · have hstays := Reference.rejectedNode_contains
    unfold Reference.rejectedNode Reference.rejectingNode at hstays
    rw [BTreeMap.contains_eq_isSome, hgone] at hstays
    cases hstays
  · exact hstranded

end Node

end PaqusNode
