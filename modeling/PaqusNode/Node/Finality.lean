import PaqusNode.Node.Difficulty

/-!
# PaqusNode.Node.Finality

How deep a reorg may cut.  Whatever enters the index during one
`apply_block` call hangs above the delivered block, so a reorg made by the
call leaves the active chain where the delivered block's parent does.
Nothing in `reorg_to_best_tip` looks at how deep that is.
-/

namespace PaqusNode

namespace Node

variable {P : Paqus}

variable {s s₁ s' : Node P} {r : BlockHash} {block : P.Block}

/-! ## Reorgs and their depth -/

/-- The active chain has moved to a tip that does not extend the old one. -/
def Reorganized (s s' : Node P) : Prop :=
  ∃ old ∈ P.ledger.tipHash s.ledger, ∃ new ∈ P.ledger.tipHash s'.ledger,
    old ∉ P.forkChoice.ancestorHashes s'.forkChoice new

/-- The height of the common ancestor of two tips. -/
def forkHeight (forkChoice : P.ForkChoice) (oldTip : Option BlockHash) (newTip : BlockHash) :
    Option UInt64 :=
  ((commonAncestor forkChoice oldTip newTip).bind (P.forkChoice.get forkChoice)).map
    ForkNode.height

/-- `height` is at most `depth` below the tip. -/
def Shallow (depth : Nat) (s : Node P) (height : Option UInt64) : Prop :=
  ∀ tipHeight ∈ P.ledger.tipHeight s.ledger, ∃ h ∈ height, tipHeight.toNat ≤ h.toNat + depth

/-- A reorg from `s` to `s'` has not gone below `depth`. -/
def FinalityKept (depth : Nat) (s s' : Node P) : Prop :=
  Reorganized s s' → ∀ new ∈ P.ledger.tipHash s'.ledger,
    Shallow depth s (forkHeight s'.forkChoice (P.ledger.tipHash s.ledger) new)

/-- Every block buried by more than `depth` is still in the active chain. -/
def BuriedKept (depth : Nat) (s s' : Node P) : Prop :=
  ∀ tipHeight ∈ P.ledger.tipHeight s.ledger, ∀ (height : UInt64) (b : P.Block),
    s.ledger.chain.blocks[height]? = some b → height.toNat + depth < tipHeight.toNat →
      s'.ledger.chain.blocks[height]? = some b

/-- The parent of a delivered block leaves the active chain at most `depth`
below its tip. -/
def ForksShallow (depth : Nat) (s : Node P) (block : P.Block) : Prop :=
  (P.forkChoice.get s.forkChoice (P.block.previousHash block)).isSome →
    Shallow depth s
      (forkHeight s.forkChoice (P.ledger.tipHash s.ledger) (P.block.previousHash block))

/-! ## What one delivery adds to the index -/

/-- The branch of `hash` leaves the index of `s` with `block`. -/
def Sprung (s : Node P) (r : BlockHash) (block : P.Block) (F : Forest BlockHash P.Block)
    (hash : BlockHash) : Prop :=
  ∃ bs rest, (indexed s.forkChoice).Branch r (P.block.previousHash block) bs ∧
    F.Branch r hash (bs ++ block :: rest) ∧
    ∀ b ∈ block :: rest, (indexed s.forkChoice).item (P.block.hash b) = none

theorem Sprung.mono {hash : BlockHash} {F F' : Forest BlockHash P.Block}
    (h : Sprung s r block F hash) (hext : F.Extends F') : Sprung s r block F' hash := by
  obtain ⟨bs, rest, hparent, hbranch, hnew⟩ := h
  exact ⟨bs, rest, hparent, hbranch.mono hext, hnew⟩

/-- Since `s` only blocks above `block` have entered the index, and the
ledger has stayed or moved to one of them. -/
structure Sprouted (s : Node P) (r : BlockHash) (block : P.Block) (s' : Node P) : Prop where
  synced : Synced s' r
  grown : Grown s s'
  sprung : ∀ {hash b}, (indexed s'.forkChoice).item hash = some b →
    (indexed s.forkChoice).item hash = none → Sprung s r block (indexed s'.forkChoice) hash
  tip : P.ledger.tipHash s'.ledger = P.ledger.tipHash s.ledger ∨
    ∃ t, P.ledger.tipHash s'.ledger = some t ∧ (indexed s.forkChoice).item t = none

theorem Sprouted.refl (hs : Synced s r) (block : P.Block) : Sprouted s r block s := by
  refine ⟨hs, .refl s, ?_, .inl rfl⟩
  intro hash b hitem hnone
  rw [hitem] at hnone
  cases hnone

/-- The bookkeeping of orphans leaves the branch alone. -/
theorem Sprouted.sync {s₂ : Node P} (h : Sprouted s r block s₁) (hsync : OnlySync s₁ s₂) :
    Sprouted s r block s₂ := by
  refine ⟨h.synced.congr hsync.ledger hsync.forkChoice hsync.genesisAccounts, ?_, ?_, ?_⟩
  · refine h.grown.trans ⟨hsync.consensus, hsync.genesisAccounts, ?_, hsync.io⟩
    rw [hsync.forkChoice]
    exact .refl _
  · rw [hsync.forkChoice]
    exact h.sprung
  · rw [hsync.ledger]
    exact h.tip

section Laws

variable (hfc : ForkChoiceLaws P) (hchain : ChainLaws P)

include hfc

/-- A new leaf is above `block`: it is `block`, or its parent is above it. -/
theorem Sprouted.leaf {hash : BlockHash} {c : P.Block} {forkChoice : P.ForkChoice}
    (h : Sprouted s r block s₁) (hc : c = block ∧ s₁.forkChoice = s.forkChoice ∨
      Sprung s r block (indexed s₁.forkChoice) (P.block.previousHash c))
    (hheight : P.block.height c ≠ 0)
    (hinsert : P.forkChoice.insertBlock s₁.forkChoice c = .ok (hash, forkChoice))
    (hfresh : (indexed s.forkChoice).item (P.block.hash c) = none) :
    Sprung s r block (indexed forkChoice) hash := by
  obtain ⟨-, bs, hparent, hbranch⟩ := insert_rooted hfc h.synced hheight hinsert
  rcases hc with ⟨rfl, hsame⟩ | ⟨bs', rest, hroot, hparent', hnew⟩
  · rw [hsame] at hparent
    exact ⟨bs, [], hparent, hbranch, fun b hb => List.mem_singleton.mp hb ▸ hfresh⟩
  · obtain ⟨-, rfl⟩ := hparent.unique hparent'
    refine ⟨bs', rest ++ [c], hroot, by simpa using hbranch, ?_⟩
    intro b hb
    rcases List.mem_append.mp (List.cons_append ▸ hb : b ∈ (block :: rest) ++ [c]) with hb | hb
    · exact hnew b hb
    · exact List.mem_singleton.mp hb ▸ hfresh

include hchain

/-- **Connecting a block above `block` adds nothing else.** -/
theorem Sprouted.connect {c : P.Block} (h : Sprouted s r block s₁) (env : Env)
    (hc : c = block ∧ s₁.forkChoice = s.forkChoice ∨
      Sprung s r block (indexed s₁.forkChoice) (P.block.previousHash c)) :
    Sprouted s r block (s₁.applyKnownParentBlock env c).1 := by
  have hstep : Step env s₁ (s₁.applyKnownParentBlock env c).1 := .connect s₁ c
  have hgrown := h.grown.trans (hstep.grown hfc)
  refine ⟨(hstep.synced hfc hchain h.synced).1, hgrown, ?_, ?_⟩
  all_goals
    rcases applyKnownParentBlock_connected hfc hchain env h.synced c with
      ⟨e, hrej⟩ | ⟨fc, parent, child, -, hinsert, hacc, hconn⟩
  · rw [hrej]
    exact h.sprung
  · obtain ⟨hindex, -⟩ := hconn.fields
    rw [hindex]
    intro hash b hitem hnone
    rw [show indexed fc = _ from indexed_insert hfc hinsert] at hitem
    by_cases hhash : P.block.hash c = hash
    · subst hhash
      exact h.leaf hfc hc hacc.height_ne hinsert hnone
    · rw [Forest.insert_item_of_ne hhash] at hitem
      exact (h.sprung hitem hnone).mono (indexed_extends hfc hinsert)
  · rw [hrej]
    exact h.tip
  · obtain ⟨-, -, -, -, ⟨hledger, -⟩ | ⟨hledger, -⟩⟩ := hconn.fields
    · rw [hledger]
      exact h.tip
    · have hfresh := indexed_item_eq_none.mpr (hfc.insert_ok hinsert).2.1
      exact .inr ⟨P.block.hash c, by rw [hledger, (applyBlock_tip hchain hacc.apply).1],
        h.grown.index.unknown hfresh⟩

/-! ## Through the worklist -/

/-- The worklist only works above `block`. -/
structure Worklist.Sprouting (s : Node P) (r : BlockHash) (block : P.Block) (w : Worklist P) :
    Prop where
  consistent : w.Consistent
  node : Sprouted s r block w.node
  parents : ∀ parent ∈ w.parents, (indexed s.forkChoice).item parent = none
  children : ∀ child ∈ w.children, ∀ orphan, w.node.orphanBlocks[child]? = some orphan →
    (indexed s.forkChoice).item (P.block.previousHash orphan.block) = none

/-- A child the worklist tries hangs above `block`. -/
theorem Worklist.Sprouting.tried {env : Env} {s₂ : Node P} {child : BlockHash}
    {parents rest : List BlockHash} {orphan : OrphanBlock P} {result : Except NodeError Unit}
    (h : Worklist.Sprouting s r block ⟨s₁, parents, child :: rest⟩)
    (hsome : s₁.orphanBlocks[child]? = some orphan) (hconnect : applyKnownParentBlock env
      { s₁ with orphanBlocks := s₁.orphanBlocks.erase child } orphan.block = (s₂, result)) :
    Sprouted s r block s₂ ∧ ∀ k ∈ rest, ∀ o, s₂.orphanBlocks[k]? = some o →
      (indexed s.forkChoice).item (P.block.previousHash o.block) = none := by
  have htake : Sprouted s r block { s₁ with orphanBlocks := s₁.orphanBlocks.erase child } :=
    h.node.sync ⟨rfl, rfl, rfl, rfl, rfl, rfl, rfl, rfl, Nat.le_refl _⟩
  obtain ⟨entry, hentry⟩ := Option.isSome_iff_exists.mp
    (h.consistent.children child List.mem_cons_self orphan hsome)
  have hparent := h.node.sprung (indexed_item_eq_some.mpr ⟨entry, hentry, rfl⟩)
    (h.children child List.mem_cons_self orphan hsome)
  have hsprouted := htake.connect hfc hchain env (.inr hparent)
  have hframe := applyKnownParentBlock_onlyChain env
    { s₁ with orphanBlocks := s₁.orphanBlocks.erase child } orphan.block
  rw [hconnect] at hsprouted hframe
  refine ⟨hsprouted, ?_⟩
  intro k hk o ho
  rw [hframe.orphanBlocks, BTreeMap.getElem?_erase_eq] at ho
  split at ho
  · cases ho
  · exact h.children k (List.mem_cons_of_mem _ hk) o ho

/-- **One move of the worklist stays above `block`.** -/
theorem Worklist.Move.sprouting {env : Env} {w w' : Worklist P} (h : w.Sprouting s r block)
    (hmove : Worklist.Move env w w') : w'.Sprouting s r block := by
  have hconsistent := hmove.consistent hfc h.consistent
  cases hmove with
  | leaf hnone =>
      exact ⟨hconsistent, h.node, fun p hp => h.parents p (List.mem_cons_of_mem _ hp), by simp⟩
  | visit hsome =>
      refine ⟨hconsistent, h.node.sync ⟨rfl, rfl, rfl, rfl, rfl, rfl, rfl, rfl, Nat.le_refl _⟩,
        fun p hp => h.parents p (List.mem_cons_of_mem _ hp), ?_⟩
      intro child hchild orphan horphan
      obtain ⟨orphan', horphan', hparent⟩ := h.consistent.pool.filed hsome child hchild
      simp only at horphan
      rw [horphan, Option.some.injEq] at horphan'
      rw [horphan', hparent]
      exact h.parents _ List.mem_cons_self
  | gone hnone =>
      exact ⟨hconsistent, h.node, h.parents,
        fun k hk => h.children k (List.mem_cons_of_mem _ hk)⟩
  | @connected s₁ s₂ parents child rest orphan hsome hconnect =>
      obtain ⟨hnode, hchildren⟩ := h.tried hfc hchain hsome hconnect
      refine ⟨hconsistent, hnode, ?_, hchildren⟩
      intro parent hparent
      rcases List.mem_cons.mp hparent with rfl | hparent
      · have hfresh := applyKnownParentBlock_fresh hfc env (show
          (applyKnownParentBlock env { s₁ with orphanBlocks := s₁.orphanBlocks.erase parent }
            orphan.block).2 = .ok () by rw [hconnect])
        rw [(h.consistent.pool.keyed hsome).1] at hfresh
        exact h.node.grown.index.unknown (indexed_item_eq_none.mpr hfresh)
      · exact h.parents parent hparent
  | cached hsome hconnect =>
      exact absurd (by rw [hconnect]) (h.consistent.ne_missing hfc hsome)
  | dropped hsome hconnect =>
      obtain ⟨hnode, hchildren⟩ := h.tried hfc hchain hsome hconnect
      exact ⟨hconsistent, hnode, h.parents, hchildren⟩

/-- **What a delivery adds hangs above the delivered block.** -/
theorem applyBlock_sprouted (hs : Synced s r) (hpool : s.PoolIndexed []) (env : Env)
    (block : P.Block) : Sprouted s r block (s.applyBlock env block).1 := by
  have hsync := pruneOrphansNow_onlySync env s
  have hconnect := ((Sprouted.refl hs block).sync hsync).connect hfc hchain env
    (.inl ⟨rfl, hsync.forkChoice⟩)
  have hframe := applyKnownParentBlock_onlyChain env (s.pruneOrphansNow env) block
  have hpool' := (hpool.pruneOrphansNow env).congr hframe.orphanBlocks hframe.orphanChildrenByParent
  unfold applyBlock
  split
  · next s₁ hs₁ =>
      have hok : ((s.pruneOrphansNow env).applyKnownParentBlock env block).2 = .ok () := by
        rw [hs₁]
      have hself := applyKnownParentBlock_known_self hfc env hok
      have hfresh := applyKnownParentBlock_fresh hfc env hok
      rw [hsync.forkChoice] at hfresh
      rw [hs₁] at hconnect hpool' hself
      have hsync₁ := pruneOrphansNow_onlySync env s₁
      refine ((processParents_moves env (s₁.pruneOrphansNow env) [P.block.hash block]).invariant
        (Worklist.Sprouting s r block) (fun h hmove => hmove.sprouting hfc hchain h) ?_).node
      refine ⟨(hpool'.pruneOrphansNow env).consistent (by rwa [hsync₁.forkChoice]),
        hconnect.sync hsync₁, ?_, by simp⟩
      intro parent hparent
      rw [List.mem_singleton.mp hparent]
      exact indexed_item_eq_none.mpr hfresh
  · next s₁ hs₁ =>
      rw [hs₁] at hconnect
      exact hconnect.sync (cacheOrphanBlock_onlySync env s₁ block)
  all_goals
    next hs₁ =>
      rw [hs₁] at hconnect
      exact hconnect

/-! ## Where a reorg cuts -/

omit hchain in
/-- A reorg moves the ledger to a block above the delivered one. -/
theorem Sprouted.reorganized (h : Sprouted s r block s') (hreorg : Reorganized s s') :
    ∃ new, P.ledger.tipHash s'.ledger = some new ∧
      Sprung s r block (indexed s'.forkChoice) new := by
  obtain ⟨old, hold, new, hnew, hnot⟩ := hreorg
  obtain ⟨t, bs, htip, hbranch, -⟩ := h.synced.replayed
  obtain ⟨tip, hitem⟩ := hbranch.tip_known
  obtain rfl : t = new := Option.some.inj (htip.symm.trans hnew)
  rcases h.tip with hsame | ⟨t', htip', hnone⟩
  · -- the old tip is an ancestor of itself
    obtain rfl : old = t := Option.some.inj (hold.symm.trans (hsame.symm.trans htip))
    obtain ⟨g, hg, -⟩ := hbranch.root_item
    rw [ancestorHashes_eq hfc hbranch hg, ← hash_of_indexed hfc hitem] at hnot
    refine absurd (List.mem_map_of_mem (List.mem_reverse.mpr ?_)) hnot
    exact List.mem_of_getLast? (getLast?_branch hbranch hg hitem)
  · obtain rfl : t = t' := Option.some.inj (htip.symm.trans htip')
    exact ⟨t, htip, h.sprung hitem hnone⟩

omit hchain in
/-- **A branch above the delivered block leaves the active chain where the
delivered block's parent does.** -/
theorem Sprouted.forkHeight_eq {new : BlockHash} (hs : Synced s r) (h : Sprouted s r block s')
    (hnew : Sprung s r block (indexed s'.forkChoice) new) :
    forkHeight s'.forkChoice (P.ledger.tipHash s.ledger) new =
      forkHeight s.forkChoice (P.ledger.tipHash s.ledger) (P.block.previousHash block) := by
  obtain ⟨old, olds, htip, hold, -⟩ := hs.replayed
  obtain ⟨bs, rest, hparent, hbranch, hfresh⟩ := hnew
  obtain ⟨g, hg, -⟩ := hold.root_item
  have hext := h.grown.index
  have hcommon : commonAncestor s'.forkChoice (some old) new =
      commonAncestor s.forkChoice (some old) (P.block.previousHash block) := by
    simp only [commonAncestor]
    rw [ancestorHashes_eq hfc (hold.mono hext) (hext.item hg), ancestorHashes_eq hfc hold hg,
      ancestorHashes_eq hfc hbranch (hext.item hg), ancestorHashes_eq hfc hparent hg,
      ← List.cons_append, List.reverse_append, List.map_append, List.find?_append]
    -- none of the new blocks is an ancestor of the old tip
    have hnone : List.find? (fun hash =>
        (((g :: olds).reverse).map P.block.hash).contains hash)
        (((block :: rest).reverse).map P.block.hash) = none := by
      rw [List.find?_eq_none]
      intro hash hmem hcontains
      obtain ⟨b, hb, rfl⟩ := List.mem_map.mp hmem
      obtain ⟨c, hc, heq⟩ := List.mem_map.mp (List.contains_iff_mem.mp hcontains)
      have hitem := indexed_of_mem_branch hfc hold hg (List.mem_reverse.mp hc)
      rw [heq, hfresh b (List.mem_reverse.mp hb)] at hitem
      cases hitem
    rw [hnone, Option.none_or]
  unfold forkHeight
  rw [htip, hcommon]
  cases hfind : commonAncestor s.forkChoice (some old) (P.block.previousHash block) with
  | none => rfl
  | some ancestor =>
      have hmem := List.mem_of_find?_eq_some hfind
      rw [ancestorHashes_eq hfc hparent hg] at hmem
      obtain ⟨b, hb, rfl⟩ := List.mem_map.mp hmem
      have hitem := indexed_of_mem_branch hfc hparent hg (List.mem_reverse.mp hb)
      simp only [Option.bind_some, get_of_indexed hfc hitem, get_of_indexed hfc (hext.item hitem)]

omit hchain in
/-- A reorg respects `depth` exactly where the delivered block does. -/
theorem Sprouted.finalityKept_iff (hs : Synced s r) (h : Sprouted s r block s')
    (hreorg : Reorganized s s') (depth : Nat) :
    FinalityKept depth s s' ↔ ForksShallow depth s block := by
  obtain ⟨new, htip, hnew⟩ := h.reorganized hfc hreorg
  have hheight := h.forkHeight_eq hfc hs hnew
  constructor
  · intro hkept _
    rw [← hheight]
    exact hkept hreorg new htip
  · intro hshallow _ new' htip'
    obtain rfl : new = new' := Option.some.inj (htip.symm.trans htip')
    obtain ⟨bs, rest, hparent, -, -⟩ := hnew
    obtain ⟨b, hb⟩ := hparent.tip_known
    rw [hheight]
    exact hshallow (by rw [get_of_indexed hfc hb]; rfl)

/-- Where the delivered block does not leave the active chain below `depth`,
no block below `depth` leaves it. -/
theorem Sprouted.buriedKept (hs : Synced s r) (h : Sprouted s r block s') {depth : Nat}
    (hshallow : ForksShallow depth s block) : BuriedKept depth s s' := by
  intro tipHeight htipHeight height b hb hburied
  rcases h.tip with hsame | ⟨new, htip, hnone⟩
  · rw [hs.ledger_eq hfc h.synced h.grown hsame]
    exact hb
  obtain ⟨old, olds, hold, hbranch, -⟩ := hs.replayed
  obtain ⟨t, bs', htip', hbranch', -⟩ := h.synced.replayed
  obtain rfl : new = t := Option.some.inj (htip.symm.trans htip')
  obtain ⟨tip, hitem⟩ := hbranch'.tip_known
  obtain ⟨bs, rest, hparent, hnew, -⟩ := h.sprung hitem hnone
  obtain ⟨g, hg, -⟩ := hbranch.root_item
  have hext := h.grown.index
  obtain ⟨p, hp⟩ := hparent.tip_known
  obtain ⟨forked, hforked, hle⟩ := hshallow (by rw [get_of_indexed hfc hp]; rfl) _ htipHeight
  -- the common ancestor is on both chains
  unfold forkHeight at hforked
  obtain ⟨entry, hentry, rfl⟩ := Option.map_eq_some_iff.mp hforked
  obtain ⟨ancestor, hfind, hget⟩ := Option.bind_eq_some_iff.mp hentry
  rw [hold] at hfind
  have hmem := List.mem_of_find?_eq_some hfind
  have hmem' := List.contains_iff_mem.mp (List.find?_some hfind)
  rw [ancestorHashes_eq hfc hparent hg] at hmem
  rw [ancestorHashes_eq hfc hbranch hg] at hmem'
  obtain ⟨a, ha, rfl⟩ := List.mem_map.mp hmem
  obtain ⟨a', ha', heq⟩ := List.mem_map.mp hmem'
  have hitem := indexed_of_mem_branch hfc hparent hg (List.mem_reverse.mp ha)
  have hitem' := indexed_of_mem_branch hfc hbranch hg (List.mem_reverse.mp ha')
  rw [heq, hitem, Option.some.injEq] at hitem'
  subst hitem'
  rw [get_of_indexed hfc hitem, Option.some.injEq] at hget
  subst hget
  have hon : a ∈ g :: (bs ++ block :: rest) := List.mem_append_left _ (List.mem_reverse.mp ha)
  rw [(hs.chainOf hfc hchain hold hbranch hg).agree
    (h.synced.chainOf hfc hchain htip hnew (hext.item hg))
    (fun b hb => hext.item (indexed_of_mem_branch hfc hbranch hg hb))
    (fun b hb => indexed_of_mem_branch hfc hnew (hext.item hg) hb)
    (List.mem_reverse.mp ha') hon (by simp only at hle; omega), hb]

/-- **How deep a delivery may cut.**  In every state a node reaches by
`apply_block` calls, a next block whose parent leaves the active chain at
most `depth` below its tip makes no reorg below `depth` and takes no block
buried by more than `depth` out of the active chain; and a call that does
reorganise keeps to `depth` only for such a block. -/
theorem finality_boundary (hrec : RecordLaws P) {db db' : Storage P}
    (hdb : Written (fun _ => True) db) {env : Env} {io : Nat} {consensus : Consensus} {s₀ : Node P}
    (hopen : initOrLoad env io db consensus = (db', .ok s₀)) (blocks : List P.Block)
    (block : P.Block) (depth : Nat) :
    (ForksShallow depth (s₀.applyBlocks env blocks) block →
      FinalityKept depth (s₀.applyBlocks env blocks)
          ((s₀.applyBlocks env blocks).applyBlock env block).1 ∧
        BuriedKept depth (s₀.applyBlocks env blocks)
          ((s₀.applyBlocks env blocks).applyBlock env block).1) ∧
    (Reorganized (s₀.applyBlocks env blocks)
        ((s₀.applyBlocks env blocks).applyBlock env block).1 →
      FinalityKept depth (s₀.applyBlocks env blocks)
        ((s₀.applyBlocks env blocks).applyBlock env block).1 →
      ForksShallow depth (s₀.applyBlocks env blocks) block) := by
  obtain ⟨_, _, g, _, _, -, hopened⟩ := hdb.opened hfc hchain hrec hopen
  have hs := (applyBlocks_steps env blocks s₀).synced hfc hchain hopened.synced
  have hpool := hopened.idle.poolIndexed.applyBlocks hfc env blocks
  have hsprouted := applyBlock_sprouted hfc hchain hs hpool env block
  refine ⟨fun hshallow => ⟨?_, hsprouted.buriedKept hfc hchain hs hshallow⟩, fun hreorg hkept => ?_⟩
  · intro hreorg
    exact (hsprouted.finalityKept_iff hfc hs hreorg depth).mpr hshallow hreorg
  · exact (hsprouted.finalityKept_iff hfc hs hreorg depth).mp hkept

end Laws

end Node

namespace Reference

/-- A block of its own and an orphan of a side branch. -/
def shallowForkNode : Node paqus := genesisNode.applyBlocks calm [block 2 1 1 [], block 4 2 3 []]

/-- A chain of four blocks, and a branch of four from the genesis block. -/
def deepForkNode : Node paqus :=
  genesisNode.applyBlocks calm
    [block 2 1 1 [], block 3 2 2 [], block 4 3 3 [], block 5 4 4 [],
      block 12 1 1 [], block 13 2 12 [], block 14 3 13 [], block 15 4 14 []]

theorem tipHeight_shallowFork : paqus.ledger.tipHeight shallowForkNode.ledger = some 1 := by
  decide +kernel

theorem forkHeight_deepFork :
    Node.forkHeight (deepForkNode.applyBlock calm (block 16 5 15 [])).1.forkChoice
      (paqus.ledger.tipHash deepForkNode.ledger) 16 = some 0 := by
  decide +kernel

end Reference

namespace Node

/-- A reorg one block deep. -/
theorem finality_boundary_of_shallowFork :
    Reorganized Reference.shallowForkNode
        (Reference.shallowForkNode.applyBlock Reference.calm (Reference.block 3 1 1 [])).1 ∧
      FinalityKept 1 Reference.shallowForkNode
        (Reference.shallowForkNode.applyBlock Reference.calm (Reference.block 3 1 1 [])).1 := by
  have hshallow : ForksShallow 1 Reference.shallowForkNode (Reference.block 3 1 1 []) := by
    intro _ tipHeight htip
    obtain rfl : 1 = tipHeight := Option.some.inj (Reference.tipHeight_shallowFork.symm.trans htip)
    exact ⟨0, by decide +kernel, by decide⟩
  refine ⟨⟨2, by decide +kernel, 4, by decide +kernel, by decide +kernel⟩, ?_⟩
  exact ((finality_boundary Reference.forkChoiceLaws Reference.chainLaws Reference.recordLaws
    .empty (Reference.opened_eq_some Reference.opened_calm)
    [Reference.block 2 1 1 [], Reference.block 4 2 3 []] (Reference.block 3 1 1 []) 1).1
      hshallow).1

/-- **A reorg goes below the finality depth**: one more block on the branch
from the genesis block replaces the chain of four, and with it the block at
height 1, which is three below the tip. -/
theorem reorg_below_finality :
    Reorganized Reference.deepForkNode
        (Reference.deepForkNode.applyBlock Reference.calm (Reference.block 16 5 15 [])).1 ∧
      ¬ FinalityKept 2 Reference.deepForkNode
        (Reference.deepForkNode.applyBlock Reference.calm (Reference.block 16 5 15 [])).1 ∧
      ¬ BuriedKept 2 Reference.deepForkNode
        (Reference.deepForkNode.applyBlock Reference.calm (Reference.block 16 5 15 [])).1 := by
  have hreorg : Reorganized Reference.deepForkNode
      (Reference.deepForkNode.applyBlock Reference.calm (Reference.block 16 5 15 [])).1 :=
    ⟨5, by decide +kernel, 16, by decide +kernel, by decide +kernel⟩
  refine ⟨hreorg, ?_, ?_⟩
  · intro hkept
    obtain ⟨height, hheight, hle⟩ := hkept hreorg 16 (by decide +kernel) 4 (by decide +kernel)
    obtain rfl : 0 = height := Option.some.inj (Reference.forkHeight_deepFork.symm.trans hheight)
    exact absurd hle (by decide)
  · intro hkept
    exact absurd (hkept 4 (by decide +kernel) 1 (Reference.block 2 1 1 []) (by decide +kernel)
      (by decide)) (by decide +kernel)

end Node

end PaqusNode
