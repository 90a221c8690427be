import PaqusNode.Node.Resolved

/-!
# PaqusNode.Node.Deliver

Delivery in any order.  A set of valid blocks that is closed under parents
is delivered to a node that knows the genesis block only, each block at
least once.  Whatever the order, the blocks wait in the orphan pool until
their parents arrive, none of them is lost, and in the end the index holds
exactly the delivered blocks: a verdict depends on the branch below a block
and on nothing else that differs between two orders.
-/

namespace PaqusNode

variable {P : Paqus}

/-! ## The tree of the delivered blocks -/

/-- The genesis block `g` and the blocks of `B`, by hash. -/
def blockTree (g : P.Block) (B : List P.Block) : Forest BlockHash P.Block :=
  forest fun hash => (g :: B).find? fun b => P.block.hash b == hash

/-- Blocks with one hash are one block. -/
def HashesDistinct (bs : List P.Block) : Prop :=
  ∀ b ∈ bs, ∀ b' ∈ bs, P.block.hash b = P.block.hash b' → b = b'

/-- The tree holds the blocks under their hashes. -/
theorem blockTree_item {g : P.Block} {B : List P.Block} (h : HashesDistinct (g :: B))
    {hash : BlockHash} {b : P.Block} :
    (blockTree g B).item hash = some b ↔ b ∈ g :: B ∧ P.block.hash b = hash := by
  simp only [blockTree, forest]
  constructor
  · intro hitem
    exact ⟨List.mem_of_find?_eq_some hitem, by simpa using List.find?_some hitem⟩
  · rintro ⟨hb, rfl⟩
    cases hitem : (g :: B).find? fun b' => P.block.hash b' == P.block.hash b with
    | none => simpa using List.find?_eq_none.mp hitem b hb
    | some b' =>
        have hhash : P.block.hash b' = P.block.hash b := by simpa using List.find?_some hitem
        rw [h b' (List.mem_of_find?_eq_some hitem) b hb hhash]

theorem blockTree_root (g : P.Block) (B : List P.Block) :
    (blockTree g B).item (P.block.hash g) = some g := by
  simp [blockTree, forest]

/-- The branch `bs` of `tip` has strictly more work than every other. -/
def Heaviest (work : P.Block → Nat) (g : P.Block) (B : List P.Block) (tip : BlockHash)
    (bs : List P.Block) : Prop :=
  (blockTree g B).Branch (P.block.hash g) tip bs ∧
    ∀ tip' bs', (blockTree g B).Branch (P.block.hash g) tip' bs' → tip' ≠ tip →
      ((g :: bs').map work).sum < ((g :: bs).map work).sum

/-- The work of a tip is that of the blocks of its branch. -/
theorem totalWork_eq {work : P.Block → Nat} {totalWork : P.ForkChoice → BlockHash → Nat}
    (hfc : ForkChoiceLaws P) (hwork : WorkLaws P work totalWork) {forkChoice : P.ForkChoice}
    {r t : BlockHash} {g : P.Block} {bs : List P.Block}
    (hbranch : (indexed forkChoice).Branch r t bs) (hg : (indexed forkChoice).item r = some g) :
    totalWork forkChoice t = ((g :: bs).map work).sum := by
  induction hbranch with
  | root hitem hroot =>
      rw [hg, Option.some.injEq] at hitem
      subst hitem
      rw [hwork.totalWork_root (get_of_indexed hfc hg) hroot]
      simp
  | @step t p b bs _ hitem hparent ih =>
      obtain ⟨hheight, rfl⟩ := parentHash_eq_some.mp hparent
      rw [hwork.totalWork_step (get_of_indexed hfc hitem) hheight, ih, ← List.cons_append,
        List.map_append, List.sum_append]
      simp

namespace Node

/-! ## Verdicts in different orders -/

/-- A node that started like `s₀` and knows blocks of the tree only. -/
structure Within (s₀ : Node P) (g : P.Block) (B : List P.Block) (s : Node P) : Prop where
  synced : Synced s (P.block.hash g)
  consensus : s.consensus = s₀.consensus
  genesisAccounts : s.genesisAccounts = s₀.genesisAccounts
  index : (indexed s.forkChoice).Extends (blockTree g B)

section Laws

variable (hfc : ForkChoiceLaws P) (hchain : ChainLaws P) {s₀ s s' : Node P} {g : P.Block}
  {B : List P.Block}

theorem Within.root (h : Within s₀ g B s) :
    (indexed s.forkChoice).item (P.block.hash g) = some g := by
  obtain ⟨b, hb, -⟩ := h.synced.rooted.root
  have hitem := h.index.item hb
  rw [blockTree_root, Option.some.injEq] at hitem
  rw [hb, hitem]

/-- A node that knows the genesis block only is within every tree. -/
theorem GenesisOnly.within (hfc : ForkChoiceLaws P) (hchain : ChainLaws P)
    (h : s₀.GenesisOnly g) (B : List P.Block) : Within s₀ g B s₀ := by
  refine ⟨h.synced hfc hchain, rfl, rfl, ?_, rfl, rfl⟩
  intro hash b hitem
  obtain ⟨entry, hentry, rfl⟩ := indexed_item_eq_some.mp hitem
  rw [h.index hash] at hentry
  split at hentry
  · next heq =>
      cases hentry
      rw [← heq]
      exact blockTree_root g B
  · cases hentry

/-- A block known to two nodes has the same branch in both. -/
theorem Within.branch (h : Within s₀ g B s) (h' : Within s₀ g B s') {hash : BlockHash}
    (hknown : (P.forkChoice.get s.forkChoice hash).isSome)
    (hknown' : (P.forkChoice.get s'.forkChoice hash).isSome) :
    ∃ bs tip, (indexed s.forkChoice).Branch (P.block.hash g) hash bs ∧
      (indexed s'.forkChoice).Branch (P.block.hash g) hash bs ∧
      (indexed s.forkChoice).item hash = some tip ∧
      (indexed s'.forkChoice).item hash = some tip := by
  obtain ⟨entry, hentry⟩ := Option.isSome_iff_exists.mp hknown
  obtain ⟨entry', hentry'⟩ := Option.isSome_iff_exists.mp hknown'
  have hitem := indexed_item_eq_some.mpr ⟨entry, hentry, rfl⟩
  have hitem' := indexed_item_eq_some.mpr ⟨entry', hentry', rfl⟩
  have hsame := (h.index.item hitem).symm.trans (h'.index.item hitem')
  rw [Option.some.injEq] at hsame
  obtain ⟨bs, hbranch⟩ := h.synced.rooted.branch hitem
  obtain ⟨bs', hbranch'⟩ := h'.synced.rooted.branch hitem'
  obtain ⟨-, rfl⟩ := (hbranch.mono h.index).unique (hbranch'.mono h'.index)
  exact ⟨bs, entry.block, hbranch, hbranch', hitem, by rw [hitem', hsame]⟩

/-- A node within the tree stays there as long as only blocks of it enter the
index. -/
theorem Within.grow (hfc : ForkChoiceLaws P) (h : Within s₀ g B s)
    (hdistinct : HashesDistinct (g :: B)) (hs' : Synced s' (P.block.hash g)) (hgrown : Grown s s')
    (hnew : ∀ {hash entry}, P.forkChoice.get s'.forkChoice hash = some entry →
      P.forkChoice.get s.forkChoice hash = some entry ∨ entry.block ∈ B) :
    Within s₀ g B s' := by
  refine ⟨hs', hgrown.consensus.trans h.consensus,
    hgrown.genesisAccounts.trans h.genesisAccounts, ?_, rfl, rfl⟩
  intro hash b hitem
  have hhash := hash_of_indexed hfc hitem
  obtain ⟨entry, hentry, rfl⟩ := indexed_item_eq_some.mp hitem
  rcases hnew hentry with hold | hmem
  · exact h.index.item (indexed_item_eq_some.mpr ⟨entry, hold, rfl⟩)
  · exact (blockTree_item hdistinct).mpr ⟨List.mem_cons_of_mem _ hmem, hhash⟩

include hfc hchain

/-- **A verdict depends on the branch only**: a block that passes validation in
one node passes it in every other that knows its parent. -/
theorem Within.valid_transfer (h : Within s₀ g B s) (h' : Within s₀ g B s')
    (hgenesis : s₀.genesisAccounts.isEmpty = false) {b : P.Block} {now : UInt64}
    (hknown : (P.forkChoice.get s.forkChoice (P.block.previousHash b)).isSome)
    (hknown' : (P.forkChoice.get s'.forkChoice (P.block.previousHash b)).isSome)
    (hvalid : s.validateBlockForKnownParent now b = .ok ())
    (hstate : s.validateBlockStateForKnownParent b = .ok ()) :
    s'.validateBlockForKnownParent now b = .ok () ∧
      s'.validateBlockStateForKnownParent b = .ok () := by
  obtain ⟨bs, tip, hbranch, hbranch', hitem, hitem'⟩ := h.branch h' hknown hknown'
  obtain ⟨parent, child, happlies⟩ := applies_of_valid h.synced hstate
  have hheight := happlies.height_ne hchain
  constructor
  · rw [validateBlockForKnownParent_eq_ok hheight (get_of_indexed hfc hitem)] at hvalid
    rw [validateBlockForKnownParent_eq_ok hheight (get_of_indexed hfc hitem')]
    simp only [h.consensus, nextDifficultyAfterBranchTip_eq hfc _ hbranch h.root] at hvalid
    simp only [h'.consensus, nextDifficultyAfterBranchTip_eq hfc _ hbranch' h'.root]
    exact hvalid
  · have hreplay := happlies.parent_replay
    rw [ledgerForBranchTip_eq_ok hfc hbranch h.root, h.genesisAccounts, ← h'.genesisAccounts,
      ← ledgerForBranchTip_eq_ok hfc hbranch' h'.root] at hreplay
    have happlies' : Applies s' b parent child := ⟨hreplay, happlies.state_root, happlies.apply⟩
    rw [happlies'.validateBlockStateForKnownParent h'.synced,
      if_pos (.inl (h'.genesisAccounts ▸ hgenesis))]

/-- A valid block is one above its parent. -/
theorem Synced.height_next {r : BlockHash} (hs : Synced s r) {b p : P.Block}
    (hp : (indexed s.forkChoice).item (P.block.previousHash b) = some p)
    (hstate : s.validateBlockStateForKnownParent b = .ok ()) :
    (P.block.height b).toNat = (P.block.height p).toNat + 1 := by
  obtain ⟨parent, child, hreplay, -, happly⟩ := applies_of_valid hs hstate
  obtain ⟨bs, hbranch⟩ := hs.rooted.branch hp
  obtain ⟨g, hg, -⟩ := hbranch.root_item
  have htip := (chainOf_of_foldlM hchain (replay_chain hchain
    ((ledgerForBranchTip_eq_ok hfc hbranch hg).mp hreplay))).2 parent.accounts p
      (getLast?_branch hbranch hg hp)
  exact (applyBlock_link hchain happly htip.hash htip.height).2

end Laws

/-! ## A delivery -/

/-- Blocks that can be delivered in any order, `times` being what the clocks
read meanwhile. -/
structure Deliverable (s₀ : Node P) (g : P.Block) (times : Set UInt64) (B : List P.Block) :
    Prop where
  height_ne : ∀ b ∈ B, P.block.height b ≠ 0
  distinct : HashesDistinct (g :: B)
  closed : ∀ b ∈ B, ∃ p ∈ g :: B, P.block.hash p = P.block.previousHash b
  near : ∀ b ∈ B, P.block.height b ≤ maxOrphanHeightDistance
  few : B.length < maxOrphanBlocks
  /-- Each block passes both validations in some node that knows its parent. -/
  valid : ∀ b ∈ B, ∃ s, Within s₀ g B s ∧
    (P.forkChoice.get s.forkChoice (P.block.previousHash b)).isSome ∧
    (∀ now ∈ times, s.validateBlockForKnownParent now b = .ok ()) ∧
    s.validateBlockStateForKnownParent b = .ok ()

/-- What is assumed of a delivery of `B` to `s₀`. -/
structure Delivery (s₀ : Node P) (g : P.Block) (times : Set UInt64) (B : List P.Block)
    (env : Env) : Prop where
  genesis : s₀.GenesisOnly g
  funded : s₀.genesisAccounts.isEmpty = false
  blocks : Deliverable s₀ g times B
  faultless : env.Faultless
  clock : ∀ i, s₀.io ≤ i → env.clock i ∈ times
  ttl : ∀ t ∈ times, ∀ t' ∈ times, satSub t' t ≤ orphanBlockTtlSecs

/-- Every orphan is one of the delivered blocks, received during the delivery. -/
def PoolOf (times : Set UInt64) (B : List P.Block) (s : Node P) : Prop :=
  ∀ {hash : BlockHash} {orphan}, s.orphanBlocks[hash]? = some orphan →
    P.block.hash orphan.block = hash ∧ orphan.block ∈ B ∧ orphan.receivedAt ∈ times

/-- A node between two calls of a delivery. -/
structure Delivering (s₀ : Node P) (g : P.Block) (times : Set UInt64) (B : List P.Block)
    (s : Node P) : Prop where
  within : Within s₀ g B s
  io : s₀.io ≤ s.io
  tidy : Tidy (· ∈ B) (P.block.hash g) s
  pool : PoolOf times B s

/-- The block is in the index or in the pool. -/
def Arrived (s : Node P) (b : P.Block) : Prop :=
  (P.forkChoice.get s.forkChoice (P.block.hash b)).isSome ∨
    (s.orphanBlocks[P.block.hash b]?).isSome

theorem orphanIsTooFarAhead_eq_false (s : Node P) {b : P.Block}
    (h : P.block.height b ≤ maxOrphanHeightDistance) : s.orphanIsTooFarAhead b = false := by
  unfold orphanIsTooFarAhead
  rw [decide_eq_false_iff_not, UInt64.lt_iff_toNat_lt, toNat_satAdd]
  rw [UInt64.le_iff_toNat_le] at h
  have := (P.block.height b).toNat_lt
  omega

/-- The pool has at most one orphan for each block. -/
theorem PoolOf.size_le {times : Set UInt64} {B : List P.Block} {s : Node P}
    (h : PoolOf times B s) : s.orphanBlocks.size ≤ B.length := by
  have hsub : s.orphanBlocks.keys ⊆ B.map P.block.hash := by
    intro k hk
    obtain ⟨orphan, horphan⟩ := Option.isSome_iff_exists.mp
      ((BTreeMap.contains_eq_isSome _ _).symm.trans (Std.ExtTreeMap.mem_keys.mp hk))
    obtain ⟨hhash, hmem, -⟩ := h horphan
    exact List.mem_map.mpr ⟨_, hmem, hhash⟩
  have hlen := (BTreeMap.nodup_keys s.orphanBlocks).subperm hsub |>.length_le
  simpa using hlen

section Laws

variable (hfc : ForkChoiceLaws P) (hchain : ChainLaws P) (hrec : RecordLaws P)
  {s₀ s : Node P} {g : P.Block} {times : Set UInt64} {B : List P.Block} {env : Env}
  (hd : Delivery s₀ g times B env) (hadmissible : ∀ b ∈ B, Admissible b)

include hd

/-- No delivered block expires. -/
theorem Delivery.not_expired {i : Nat} (hi : s₀.io ≤ i) {orphan : OrphanBlock P}
    (hb : orphan.block ∈ B) (htime : orphan.receivedAt ∈ times) :
    s.orphanExpired (env.clock i) orphan = false :=
  orphanExpired_eq_false (hd.ttl _ htime _ (hd.clock i hi))
    (orphanIsTooFarAhead_eq_false s (hd.blocks.near _ hb))

/-- Pruning keeps the pool. -/
theorem Delivery.pruneOrphansNow (hio : s₀.io ≤ s.io) (hpool : PoolOf times B s) :
    (s.pruneOrphansNow env).orphanBlocks = s.orphanBlocks := by
  refine Std.ExtTreeMap.ext_getElem? fun k => ?_
  rw [show s.pruneOrphansNow env = s.tick.pruneExpiredOrphans (env.clock s.io) from rfl,
    getElem?_pruneExpiredOrphans]
  change (s.orphanBlocks[k]?).filter _ = s.orphanBlocks[k]?
  cases horphan : s.orphanBlocks[k]? with
  | none => rfl
  | some orphan =>
      obtain ⟨-, hb, htime⟩ := hpool horphan
      simp [Option.filter, hd.not_expired (s := s.tick) hio hb htime]

/-- Caching a block loses none, and the block has arrived. -/
theorem Delivery.cacheOrphanBlock (hfc : ForkChoiceLaws P) (hio : s₀.io ≤ s.io)
    (hpool : PoolOf times B s) {block : P.Block} (hblock : block ∈ B) :
    Arrived (s.cacheOrphanBlock env block) block ∧
      ∀ k : BlockHash, (s.orphanBlocks[k]?).isSome →
        ((s.cacheOrphanBlock env block).orphanBlocks[k]?).isSome := by
  have hkeep := hd.pruneOrphansNow hio hpool
  have hevict : (s.pruneOrphansNow env).evictOrphan = s.pruneOrphansNow env := by
    refine evictOrphan_of_room ?_
    rw [hkeep]
    exact Nat.lt_of_le_of_lt hpool.size_le hd.blocks.few
  unfold Node.cacheOrphanBlock
  simp only [hd.blocks.height_ne block hblock, if_false,
    orphanIsTooFarAhead_eq_false _ (hd.blocks.near block hblock), Bool.false_eq_true]
  split
  · next hold =>
      rw [Bool.or_eq_true, hfc.contains_eq, BTreeMap.contains_eq_isSome] at hold
      exact ⟨hold, fun k hk => by rwa [hkeep]⟩
  · rw [hevict]
    refine ⟨.inr ?_, fun k hk => ?_⟩
    · rw [getElem?_storeOrphan, if_pos rfl]
      rfl
    · rw [getElem?_storeOrphan]
      split
      · rfl
      · rwa [hkeep]

include hfc hchain hrec hadmissible

/-- **A delivered block whose parent is known connects**, if it has not yet. -/
theorem Delivery.connects (h : Within s₀ g B s) (hio : s₀.io ≤ s.io) {block : P.Block}
    (hblock : block ∈ B)
    (hknown : (P.forkChoice.get s.forkChoice (P.block.previousHash block)).isSome) :
    (s.applyKnownParentBlock env block).2 = .ok () ∨
      (P.forkChoice.get s.forkChoice (P.block.hash block)).isSome := by
  obtain ⟨s', h', hknown', hvalid, hstate⟩ := hd.blocks.valid block hblock
  obtain ⟨hvalid', hstate'⟩ := h'.valid_transfer hfc hchain h hd.funded hknown' hknown
    (hvalid _ (hd.clock s.io hio)) hstate
  exact (applyKnownParentBlock_of_valid hfc hchain hrec hd.faultless h.synced
    (hadmissible block hblock) hvalid' hstate').imp_right And.left

/-- No delivered block is dropped. -/
theorem Delivery.not_dropped {s' : Node P} (hio : s₀.io ≤ s.io) (h' : Within s₀ g B s')
    (hs : Synced s (P.block.hash g)) {orphan : OrphanBlock P} (hb : orphan.block ∈ B)
    (htime : orphan.receivedAt ∈ times) : ¬ Dropped env s s' orphan := by
  rintro ⟨s₁, hrun, hrun', hwhy⟩
  have hgrown := hrun.grown hfc
  have hgrown' := hrun'.grown hfc
  have hio₁ := Nat.le_trans hio hgrown.io
  have h₁ : Within s₀ g B s₁ := ⟨hrun.synced hfc hchain hs,
    hgrown'.consensus.symm.trans h'.consensus,
    hgrown'.genesisAccounts.symm.trans h'.genesisAccounts,
    hgrown'.index.trans h'.index⟩
  rcases hwhy with hexpired | ⟨hparent, hnone, e, hreject⟩
  · rw [hd.not_expired hio₁ hb htime] at hexpired
    cases hexpired
  · rcases hd.connects hfc hchain hrec hadmissible h₁ hio₁ hb hparent with hok | hself
    · rw [hreject] at hok
      cases hok
    · rw [hnone] at hself
      cases hself

omit hfc hchain hrec hadmissible in
theorem Delivery.identified : Identified (P := P) (· ∈ B) := by
  intro b b' hb hb' hhash
  rw [hd.blocks.distinct b (List.mem_cons_of_mem _ hb) b' (List.mem_cons_of_mem _ hb') hhash]

omit hrec hadmissible in
theorem Delivery.start : Delivering s₀ g times B s₀ := by
  have hwithin := hd.genesis.within hfc hchain B
  refine ⟨hwithin, Nat.le_refl _, hd.genesis.idle.tidy hwithin.synced _, ?_⟩
  intro hash orphan horphan
  simp [hd.genesis.idle.orphanBlocks] at horphan

/-! ## One call -/

omit hadmissible in
/-- Only delivered blocks enter the index, and no orphan is older than the
delivery. -/
theorem Delivery.delivering (h : Delivering s₀ g times B s) {block : P.Block}
    (hblock : block ∈ B) : Delivering s₀ g times B (s.applyBlock env block).1 := by
  have htidy := h.tidy.applyBlock hfc hchain hrec hd.faultless hd.identified hblock
  have hreceived := h.tidy.received hfc hchain hrec hd.faultless hd.identified hblock
  have hgrown := (applyBlock_steps env s block).grown hfc
  have hsync := (pruneOrphansNow_onlySync env s).trans (OnlySync.tick _)
  generalize (s.applyBlock env block).1 = s' at *
  have hio : s₀.io ≤ (s.pruneOrphansNow env).tick.io := Nat.le_trans h.io hsync.io
  refine ⟨h.within.grow hfc hd.blocks.distinct htidy.synced hgrown ?_,
    Nat.le_trans h.io hgrown.io, htidy, ?_⟩
  · intro hash entry hentry
    cases hreceived with
    | connected _ haccounted _ =>
        refine (haccounted.index hentry).imp_right fun hnew => ?_
        rcases hnew with hnew | ⟨orphan, horphan, heq⟩
        · exact List.mem_singleton.mp hnew ▸ hblock
        · exact heq ▸ h.tidy.delivered horphan
    | cached _ =>
        rw [(cacheOrphanBlock_onlySync env _ block).forkChoice, hsync.forkChoice] at hentry
        exact .inl hentry
    | rejected _ _ =>
        rw [hsync.forkChoice] at hentry
        exact .inl hentry
  · intro hash orphan horphan
    refine ⟨(htidy.pool.keyed horphan).1, htidy.delivered horphan, ?_⟩
    cases hreceived with
    | connected _ haccounted _ => exact (h.pool (haccounted.pool horphan)).2.2
    | cached _ =>
        rcases getElem?_of_cacheOrphanBlock horphan with hold | ⟨-, rfl, -⟩
        · exact (h.pool (getElem?_of_pruneOrphansNow hold)).2.2
        · exact hd.clock _ hio
    | rejected _ _ => exact (h.pool (getElem?_of_pruneOrphansNow horphan)).2.2

/-- A block that is rejected, other than for its parent, is in the index
already. -/
theorem Delivery.rejected_known (h : Delivering s₀ g times B s) {block : P.Block}
    (hblock : block ∈ B) {e : NodeError}
    (hreject : (s.pruneOrphansNow env).applyKnownParentBlock env block =
      ((s.pruneOrphansNow env).tick, .error e)) (hne : e ≠ .forkChoice .missingParent) :
    (P.forkChoice.get (s.pruneOrphansNow env).forkChoice (P.block.hash block)).isSome := by
  have hprune := pruneOrphansNow_onlySync env s
  have hwithin : Within s₀ g B (s.pruneOrphansNow env) :=
    ⟨h.within.synced.congr hprune.ledger hprune.forkChoice hprune.genesisAccounts,
      hprune.consensus.trans h.within.consensus,
      hprune.genesisAccounts.trans h.within.genesisAccounts,
      hprune.forkChoice ▸ h.within.index⟩
  cases hparent : P.forkChoice.get (s.pruneOrphansNow env).forkChoice
      (P.block.previousHash block) with
  | none =>
      rw [applyKnownParentBlock_of_missing env (hd.blocks.height_ne block hblock) hparent]
        at hreject
      cases hreject
      exact absurd rfl hne
  | some parent =>
      rcases hd.connects hfc hchain hrec hadmissible hwithin (Nat.le_trans h.io hprune.io) hblock
        (by rw [hparent]; rfl) with hok | hself
      · rw [hreject] at hok
        cases hok
      · exact hself

/-- **No call loses a block**: the delivered one arrives, and what has arrived
before is still there. -/
theorem Delivery.arrived (h : Delivering s₀ g times B s) {block : P.Block} (hblock : block ∈ B)
    {b : P.Block} (hb : Arrived s b ∨ b = block) : Arrived (s.applyBlock env block).1 b := by
  have h' := hd.delivering hfc hchain hrec h hblock
  have hreceived := h.tidy.received hfc hchain hrec hd.faultless hd.identified hblock
  have hprune := pruneOrphansNow_onlySync env s
  have hsync := hprune.trans (OnlySync.tick _)
  have hkeep := hd.pruneOrphansNow h.io h.pool
  have hpool : PoolOf times B (s.pruneOrphansNow env).tick := fun horphan =>
    h.pool (getElem?_of_pruneOrphansNow horphan)
  generalize (s.applyBlock env block).1 = s' at *
  cases hreceived with
  | connected hknown haccounted _ =>
      rcases hb with (hb | hb) | rfl
      · exact .inl (haccounted.run.known hfc hb)
      · obtain ⟨orphan, horphan⟩ := Option.isSome_iff_exists.mp hb
        obtain ⟨-, hmem, htime⟩ := h.pool horphan
        rcases haccounted.each horphan with hin | hin | hdropped
        · exact .inr (by rw [hin]; rfl)
        · exact .inl hin
        · exact absurd hdropped
            (hd.not_dropped hfc hchain hrec hadmissible h.io h'.within h.within.synced hmem htime)
      · exact .inl hknown
  | cached _ =>
      obtain ⟨hself, hothers⟩ := hd.cacheOrphanBlock hfc
        (Nat.le_trans h.io hsync.io) hpool hblock
      rcases hb with (hb | hb) | rfl
      · refine .inl ?_
        rwa [(cacheOrphanBlock_onlySync env _ block).forkChoice, hsync.forkChoice]
      · exact .inr (hothers _ (by rw [← hkeep] at hb; exact hb))
      · exact hself
  | rejected hreject hne =>
      rcases hb with (hb | hb) | rfl
      · exact .inl (by rwa [hsync.forkChoice])
      · exact .inr (by rw [← hkeep] at hb; exact hb)
      · exact .inl (hd.rejected_known hfc hchain hrec hadmissible h hblock hreject hne)

/-! ## The whole delivery -/

/-- What a delivery reaches, and that every block of it has arrived. -/
theorem Delivery.applyBlocks {blocks : List P.Block} (hblocks : ∀ b ∈ blocks, b ∈ B)
    (h : Delivering s₀ g times B s) :
    Delivering s₀ g times B (s.applyBlocks env blocks) ∧
      ∀ b, Arrived s b ∨ b ∈ blocks → Arrived (s.applyBlocks env blocks) b := by
  induction blocks generalizing s with
  | nil => exact ⟨h, fun b hb => hb.resolve_right List.not_mem_nil⟩
  | cons block rest ih =>
      have hblock := hblocks block List.mem_cons_self
      obtain ⟨hend, harrived⟩ := ih (fun b hb => hblocks b (List.mem_cons_of_mem _ hb))
        (hd.delivering hfc hchain hrec h hblock)
      refine ⟨hend, fun b hb => harrived b ?_⟩
      rcases hb with hb | hb
      · exact .inl (hd.arrived hfc hchain hrec hadmissible h hblock (.inl hb))
      · rcases List.mem_cons.mp hb with rfl | hb
        · exact .inl (hd.arrived hfc hchain hrec hadmissible h hblock (.inr rfl))
        · exact .inr hb

omit hrec hadmissible in
/-- Where every block has arrived, every block is in the index: an orphan would
wait for a lower block. -/
theorem Delivering.known (h : Delivering s₀ g times B s) (harrived : ∀ b ∈ B, Arrived s b)
    {b : P.Block} (hb : b ∈ g :: B) :
    (indexed s.forkChoice).item (P.block.hash b) = some b := by
  have hisSome : (P.forkChoice.get s.forkChoice (P.block.hash b)).isSome := by
    induction hn : (P.block.height b).toNat using Nat.strongRecOn generalizing b with
    | ind n ih =>
        rcases List.mem_cons.mp hb with rfl | hmem
        · rw [get_of_indexed hfc h.within.root]
          rfl
        obtain ⟨p, hp, hprevious⟩ := hd.blocks.closed b hmem
        obtain ⟨s', hwithin', hknown', -, hstate⟩ := hd.blocks.valid b hmem
        obtain ⟨entry, hentry⟩ := Option.isSome_iff_exists.mp hknown'
        have hitem := indexed_item_eq_some.mpr ⟨entry, hentry, rfl⟩
        have hsame := hwithin'.index.item hitem
        rw [← hprevious, (blockTree_item hd.blocks.distinct).mpr ⟨hp, rfl⟩, Option.some.injEq]
          at hsame
        have hnext := hwithin'.synced.height_next hfc hchain (hsame ▸ hitem) hstate
        have hparent := ih (P.block.height p).toNat (by omega) hp rfl
        rcases harrived b hmem with hknown | hpooled
        · exact hknown
        · obtain ⟨orphan, horphan⟩ := Option.isSome_iff_exists.mp hpooled
          obtain ⟨hhash, horphanMem, -⟩ := h.pool horphan
          have heq := hd.blocks.distinct orphan.block (List.mem_cons_of_mem _ horphanMem) b hb hhash
          have hwaiting := h.tidy.resolved.waiting horphan
          rw [heq, ← hprevious] at hwaiting
          rw [hwaiting] at hparent
          cases hparent
  obtain ⟨entry, hentry⟩ := Option.isSome_iff_exists.mp hisSome
  have hitem := indexed_item_eq_some.mpr ⟨entry, hentry, rfl⟩
  have hsame := h.within.index.item hitem
  rw [(blockTree_item hd.blocks.distinct).mpr ⟨hb, rfl⟩, Option.some.injEq] at hsame
  rw [hitem, hsame]

/-- **A complete delivery ends with the tree in the index and an empty pool.** -/
theorem Delivery.complete {blocks : List P.Block} (hblocks : ∀ b, b ∈ blocks ↔ b ∈ B) :
    indexed (s₀.applyBlocks env blocks).forkChoice = blockTree g B ∧
      (s₀.applyBlocks env blocks).orphanBlocks = ∅ := by
  obtain ⟨h, harrived⟩ := hd.applyBlocks hfc hchain hrec hadmissible (fun b hb => (hblocks b).mp hb)
    (hd.start hfc hchain)
  have hknown := fun b (hb : b ∈ g :: B) => h.known hfc hchain hd
    (fun b hb => harrived b (.inr ((hblocks b).mpr hb))) hb
  generalize s₀.applyBlocks env blocks = s at *
  constructor
  · have hitems : (indexed s.forkChoice).item = (blockTree g B).item := by
      funext hash
      cases hitem : (blockTree g B).item hash with
      | none => exact h.within.index.unknown hitem
      | some b =>
          obtain ⟨hb, rfl⟩ := (blockTree_item hd.blocks.distinct).mp hitem
          exact hknown b hb
    rw [← show forest (indexed s.forkChoice).item = indexed s.forkChoice from rfl, hitems]
    rfl
  · refine BTreeMap.eq_empty_of_getElem?_eq_none fun k => ?_
    cases horphan : s.orphanBlocks[k]? with
    | none => rfl
    | some orphan =>
        obtain ⟨rfl, hmem, -⟩ := h.pool horphan
        have hnone := indexed_item_eq_none.mpr (h.tidy.resolved.apart horphan)
        rw [hknown _ (List.mem_cons_of_mem _ hmem)] at hnone
        cases hnone

omit hrec hadmissible in
/-- A node that knows only the genesis block is at its best tip. -/
theorem Delivery.atBestTip {work : P.Block → Nat} {totalWork : P.ForkChoice → BlockHash → Nat}
    (hwork : WorkLaws P work totalWork) : AtBestTip s₀ := by
  obtain ⟨best, hbest, -⟩ := hwork.bestTip_max
    (get_of_indexed hfc (hd.genesis.within hfc hchain B).root)
  have hentry := hfc.bestTip_get hbest
  rw [hd.genesis.index] at hentry
  split at hentry
  · next heq =>
      rw [AtBestTip, hbest, (hchain.insert_tip _ hd.genesis.chain).1, heq]
      rfl
  · cases hentry

/-- **The heaviest branch is the active one** when the delivery is complete. -/
theorem Delivery.ledger {work : P.Block → Nat} {totalWork : P.ForkChoice → BlockHash → Nat}
    (hwork : WorkLaws P work totalWork) {blocks : List P.Block}
    (hblocks : ∀ b, b ∈ blocks ↔ b ∈ B) {tip : BlockHash} {bs : List P.Block}
    (hheaviest : Heaviest work g B tip bs) :
    replay s₀.genesisAccounts g bs = .ok (s₀.applyBlocks env blocks).ledger := by
  obtain ⟨h, -⟩ := hd.applyBlocks hfc hchain hrec hadmissible (fun b hb => (hblocks b).mp hb)
    (hd.start hfc hchain)
  obtain ⟨htree, -⟩ := hd.complete hfc hchain hrec hadmissible hblocks
  have hbest := (applyBlocks_steps env blocks s₀).atBestTip hfc hchain
    (hd.genesis.within hfc hchain B).synced (hd.atBestTip hfc hchain hwork)
  generalize s₀.applyBlocks env blocks = s at *
  obtain ⟨hbranch, hother⟩ := hheaviest
  obtain ⟨t, bs', htip, hbranch', hreplay⟩ := h.within.synced.replayed
  have ht : t = tip := by
    by_contra hne
    have hlt := hother t bs' (htree ▸ hbranch') hne
    -- but the ledger is at a tip of maximal work
    rw [← htree] at hbranch
    obtain ⟨b, hb⟩ := hbranch.tip_known
    obtain ⟨best, hbestTip, hle⟩ := hwork.bestTip_max (get_of_indexed hfc hb)
    rw [AtBestTip, htip, hbestTip, Option.map_some, Option.some.injEq] at hbest
    rw [← hbest, totalWork_eq hfc hwork hbranch h.within.root,
      totalWork_eq hfc hwork hbranch' h.within.root] at hle
    omega
  subst ht
  obtain ⟨-, rfl⟩ := (htree ▸ hbranch').unique hbranch
  rw [← h.within.genesisAccounts, ← ledgerForBranchTip_eq_ok hfc hbranch' h.within.root]
  exact hreplay

end Laws

/-- **The order of delivery does not matter.**  Two complete deliveries of one
set of blocks of admissible difficulty to one node, in any orders and with any repetitions, both end
with exactly the genesis block and these blocks in the index and with an
empty orphan pool; and if one branch has strictly the most work, both end
with the same ledger. -/
theorem delivery_order_irrelevant (hfc : ForkChoiceLaws P) (hchain : ChainLaws P)
    (hrec : RecordLaws P) {work : P.Block → Nat} {totalWork : P.ForkChoice → BlockHash → Nat}
    (hwork : WorkLaws P work totalWork) {s₀ : Node P} {g : P.Block} {times times' : Set UInt64}
    {B : List P.Block} {env env' : Env} (hd : Delivery s₀ g times B env)
    (hd' : Delivery s₀ g times' B env') (hadmissible : ∀ b ∈ B, Admissible b)
    {blocks blocks' : List P.Block}
    (hblocks : ∀ b, b ∈ blocks ↔ b ∈ B) (hblocks' : ∀ b, b ∈ blocks' ↔ b ∈ B) :
    (indexed (s₀.applyBlocks env blocks).forkChoice = blockTree g B ∧
        (s₀.applyBlocks env blocks).orphanBlocks = ∅) ∧
      (indexed (s₀.applyBlocks env' blocks').forkChoice = blockTree g B ∧
        (s₀.applyBlocks env' blocks').orphanBlocks = ∅) ∧
      ∀ tip bs, Heaviest work g B tip bs →
        (s₀.applyBlocks env blocks).ledger = (s₀.applyBlocks env' blocks').ledger := by
  refine ⟨hd.complete hfc hchain hrec hadmissible hblocks,
    hd'.complete hfc hchain hrec hadmissible hblocks', ?_⟩
  intro tip bs hheaviest
  have hledger := hd.ledger hfc hchain hrec hadmissible hwork hblocks hheaviest
  have hledger' := hd'.ledger hfc hchain hrec hadmissible hwork hblocks' hheaviest
  exact Except.ok.inj (hledger.symm.trans hledger')

end Node

namespace Reference

theorem sideBranchWins_distinct : HashesDistinct (P := paqus) (genesis :: sideBranchWins) := by
  have h : ∀ b ∈ genesis :: sideBranchWins, ∀ b' ∈ genesis :: sideBranchWins,
      b.hash = b'.hash → b = b' := by decide +kernel
  exact h

/-- The node with the first block of the side branch. -/
def sideNode : Node paqus := (genesisNode.applyKnownParentBlock calm (block 3 1 1 [])).1

theorem genesisNode_genesisOnly : genesisNode.GenesisOnly genesis :=
  Node.genesisOnly_of_initOrLoad forkChoiceLaws chainLaws recordLaws (opened_eq_some opened_calm)

/-- The node knows nothing but genesis and those blocks. -/
theorem sideNode_within : Node.Within genesisNode genesis sideBranchWins sideNode := by
  have hstart := genesisNode_genesisOnly.within forkChoiceLaws chainLaws sideBranchWins
  have hstep : Node.Step calm genesisNode sideNode := .connect genesisNode (block 3 1 1 [])
  refine hstart.grow forkChoiceLaws sideBranchWins_distinct
    (hstep.synced forkChoiceLaws chainLaws hstart.synced).1 (hstep.grown forkChoiceLaws) ?_
  intro hash entry hentry
  rw [sideNode] at hentry
  rcases Node.applyKnownParentBlock_get forkChoiceLaws calm genesisNode (block 3 1 1 []) hash with
    heq | ⟨-, -, heq⟩
  · rw [heq] at hentry
    exact .inl hentry
  · have hmem : block 3 1 1 [] ∈ sideBranchWins := by decide +kernel
    rw [heq, Option.some.injEq] at hentry
    rw [← hentry]
    exact .inr hmem

theorem sideBranchWins_valid : ∀ b ∈ sideBranchWins,
    (paqus.forkChoice.get sideNode.forkChoice b.previousHash).isSome ∧
      sideNode.validateBlockForKnownParent 0 b = .ok () ∧
      sideNode.validateBlockStateForKnownParent b = .ok () := by
  decide +kernel

/-- The conditions on a delivery hold of the three blocks. -/
theorem sideBranchWins_delivery : Node.Delivery genesisNode genesis {0} sideBranchWins calm where
  genesis := genesisNode_genesisOnly
  funded := by decide +kernel
  blocks := {
    height_ne := by decide +kernel
    distinct := sideBranchWins_distinct
    closed := by decide +kernel
    near := by decide +kernel
    few := by decide
    valid := by
      intro b hb
      obtain ⟨hknown, hvalid, hstate⟩ := sideBranchWins_valid b hb
      refine ⟨sideNode, sideNode_within, hknown, ?_, hstate⟩
      rintro now rfl
      exact hvalid }
  faultless := calm_faultless
  clock _ _ := rfl
  ttl := by
    rintro t rfl t' rfl
    decide

theorem sideBranchWins_admissible (b : paqus.Block) (hb : b ∈ sideBranchWins) : Admissible b := by
  have h : ∀ b ∈ sideBranchWins, 1 ≤ b.difficulty ∧ b.difficulty ≤ 256 := by decide
  exact h b hb

/-- The branch of two blocks is the heaviest. -/
theorem sideBranchWins_heaviest :
    Heaviest (P := paqus) work genesis sideBranchWins 4 [block 3 1 1 [], block 4 2 3 []] := by
  have hroot : (blockTree (P := paqus) genesis sideBranchWins).Branch 1 1 [] :=
    .root (b := genesis) (by decide +kernel) ⟨by decide +kernel, by decide +kernel⟩
  have htwo : (blockTree (P := paqus) genesis sideBranchWins).Branch 1 2 [block 2 1 1 []] :=
    .step hroot (by decide +kernel) (by decide +kernel)
  have hthree : (blockTree (P := paqus) genesis sideBranchWins).Branch 1 3 [block 3 1 1 []] :=
    .step hroot (by decide +kernel) (by decide +kernel)
  have hfour : (blockTree (P := paqus) genesis sideBranchWins).Branch 1 4
      [block 3 1 1 [], block 4 2 3 []] :=
    .step hthree (by decide +kernel) (by decide +kernel)
  refine ⟨hfour, ?_⟩
  intro tip' bs' hbranch' hne
  obtain ⟨b, hb⟩ := hbranch'.tip_known
  obtain ⟨hmem, rfl⟩ := (blockTree_item sideBranchWins_distinct).mp hb
  have hcases : b = genesis ∨ b = block 2 1 1 [] ∨ b = block 4 2 3 [] ∨ b = block 3 1 1 [] := by
    simpa [sideBranchWins] using hmem
  rcases hcases with rfl | rfl | rfl | rfl
  · rw [← (hroot.unique hbranch').2]
    decide
  · rw [← (htwo.unique hbranch').2]
    decide
  · exact absurd (by decide +kernel) hne
  · rw [← (hthree.unique hbranch').2]
    decide

end Reference

namespace Node

/-- The blocks of the side branch in the order of their arrival and backwards,
when one of them is an orphan twice. -/
theorem delivery_order_irrelevant_of_sideBranchWins :
    (Reference.genesisNode.applyBlocks Reference.calm Reference.sideBranchWins.reverse).orphanBlocks
        = ∅ ∧
      (Reference.genesisNode.applyBlocks Reference.calm Reference.sideBranchWins).ledger =
        (Reference.genesisNode.applyBlocks Reference.calm
          Reference.sideBranchWins.reverse).ledger := by
  obtain ⟨-, ⟨-, hempty⟩, hledger⟩ := delivery_order_irrelevant Reference.forkChoiceLaws
    Reference.chainLaws Reference.recordLaws Reference.workLaws
    Reference.sideBranchWins_delivery Reference.sideBranchWins_delivery
    Reference.sideBranchWins_admissible (fun _ => Iff.rfl) (fun _ => List.mem_reverse)
  exact ⟨hempty, hledger 4 _ Reference.sideBranchWins_heaviest⟩

end Node

namespace Reference

/-- The genesis node of a network whose configured difficulty is 0. -/
def lenientNode : Node paqus :=
  (Node.initOrLoad calm 0 Storage.empty ⟨⟨0⟩⟩).2.toOption.get (by decide +kernel)

theorem lenientNode_genesisOnly : lenientNode.GenesisOnly genesis :=
  Node.genesisOnly_of_initOrLoad forkChoiceLaws chainLaws recordLaws
    (eq_mk_ok_of_toOption (Option.some_get _).symm)

/-- A block of difficulty 0, on top of the genesis block. -/
def effortlessBlock : Block := { block 2 1 1 [] with difficulty := 0 }

theorem effortlessBlock_distinct : HashesDistinct (P := paqus) [genesis, effortlessBlock] := by
  have h : ∀ b ∈ [genesis, effortlessBlock], ∀ b' ∈ [genesis, effortlessBlock],
      b.hash = b'.hash → b = b' := by decide +kernel
  exact h

theorem effortlessBlock_valid :
    (paqus.forkChoice.get lenientNode.forkChoice effortlessBlock.previousHash).isSome ∧
      lenientNode.validateBlockForKnownParent 0 effortlessBlock = .ok () ∧
      lenientNode.validateBlockStateForKnownParent effortlessBlock = .ok () := by
  decide +kernel

/-- All conditions but the one on the difficulty hold of the block. -/
theorem effortlessBlock_delivery :
    Node.Delivery lenientNode genesis {0} [effortlessBlock] calm where
  genesis := lenientNode_genesisOnly
  funded := by decide +kernel
  blocks := {
    height_ne := by decide +kernel
    distinct := effortlessBlock_distinct
    closed := by decide +kernel
    near := by decide +kernel
    few := by decide
    valid := by
      intro b hb
      obtain rfl := List.mem_singleton.mp hb
      obtain ⟨hknown, hvalid, hstate⟩ := effortlessBlock_valid
      refine ⟨lenientNode, lenientNode_genesisOnly.within forkChoiceLaws chainLaws _, hknown, ?_,
        hstate⟩
      rintro now rfl
      exact hvalid }
  faultless := calm_faultless
  clock _ _ := rfl
  ttl := by
    rintro t rfl t' rfl
    decide

end Reference

namespace Node

/-- Without a bound on the difficulties the delivery may lose a block: where the
configured difficulty is 0, a block of difficulty 0 passes both validations,
and the index refuses it. -/
theorem effortless_block_refused :
    Delivery Reference.lenientNode Reference.genesis {0} [Reference.effortlessBlock]
        Reference.calm ∧
      (Reference.lenientNode.applyBlock Reference.calm Reference.effortlessBlock).2 =
        .error (.forkChoice .invalidDifficulty) ∧
      indexed (Reference.lenientNode.applyBlocks Reference.calm
        [Reference.effortlessBlock]).forkChoice ≠
        blockTree Reference.genesis [Reference.effortlessBlock] := by
  refine ⟨Reference.effortlessBlock_delivery, by decide +kernel, fun htree => ?_⟩
  have hknown := (blockTree_item Reference.effortlessBlock_distinct).mpr
    ⟨List.mem_cons_of_mem _ List.mem_cons_self, rfl⟩
  rw [← htree, indexed_item_eq_some] at hknown
  obtain ⟨entry, hentry, -⟩ := hknown
  have hnone : Reference.paqus.forkChoice.get (Reference.lenientNode.applyBlocks Reference.calm
      [Reference.effortlessBlock]).forkChoice 2 = none := by decide +kernel
  exact absurd (hentry.symm.trans hnone) (by simp)

end Node

end PaqusNode
