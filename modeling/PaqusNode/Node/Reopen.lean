import PaqusNode.Node.Invariant
import PaqusNode.Node.Open
import PaqusNode.Storage.Roundtrip

/-!
# PaqusNode.Node.Reopen

Opening a node over a database that a node has written (`Stored`): the
ledger comes back, and the index is rebuilt from the ledger's chain and the
stored blocks.  The fixpoint loop over the stored blocks leaves out exactly
those whose parent never turns up, so over a database whose blocks form a
tree it leaves out none.
-/

namespace PaqusNode

variable {P : Paqus}

variable {forkChoice : P.ForkChoice} {db : Storage P} {ledger : P.Ledger} {block g : P.Block}
  {chain : Chain P.Block} {branch : List P.Block}

/-! ## Rebuilding the index -/

section Laws

variable (hfc : ForkChoiceLaws P)

include hfc

/-- A new block is accepted if its parent is known or it names none. -/
theorem insertBlock_of_fresh (hinsertable : Insertable block)
    (hfresh : (indexed forkChoice).item (P.block.hash block) = none) (hparent : ¬Parentless block →
      (indexed forkChoice).item (P.block.previousHash block) ≠ none) :
    ∃ forkChoice', P.forkChoice.insertBlock forkChoice block =
      .ok (P.block.hash block, forkChoice') := by
  cases h : P.forkChoice.insertBlock forkChoice block with
  | ok result =>
      obtain ⟨hash, forkChoice'⟩ := result
      obtain rfl := (hfc.insert_ok h).1
      exact ⟨forkChoice', rfl⟩
  | error e =>
      obtain ⟨-, hnot, hnone⟩ :=
        hfc.insert_error_of_fresh hinsertable (indexed_item_eq_none.mp hfresh) h
      exact absurd (indexed_item_eq_none.mpr hnone) (hparent hnot)

/-- What indexing a list of blocks does to an index: it grows, by blocks of
the list only, and stays a tree if no block of the list is a second root. -/
structure Grows (forkChoice forkChoice' : P.ForkChoice) (blocks : List P.Block) : Prop where
  ext : (indexed forkChoice).Extends (indexed forkChoice')
  origin : ∀ {hash b}, (indexed forkChoice').item hash = some b →
    (indexed forkChoice).item hash = some b ∨ b ∈ blocks ∧ P.block.hash b = hash
  rooted : ∀ {r}, (indexed forkChoice).Rooted r →
    (∀ b ∈ blocks, P.block.height b = 0 → P.block.hash b = r) → (indexed forkChoice').Rooted r

omit hfc in
theorem Grows.refl (forkChoice : P.ForkChoice) (blocks : List P.Block) :
    Grows forkChoice forkChoice blocks :=
  ⟨.refl _, .inl, fun h _ => h⟩

omit hfc in
/-- One stretch of insertions after the other. -/
theorem Grows.trans {fc₁ fc₂ fc₃ : P.ForkChoice} {blocks blocks' : List P.Block}
    (h : Grows fc₁ fc₂ blocks) (h' : Grows fc₂ fc₃ blocks') (hsub : ∀ b ∈ blocks', b ∈ blocks) :
    Grows fc₁ fc₃ blocks where
  ext := h.ext.trans h'.ext
  origin hitem := by
    rcases h'.origin hitem with hold | ⟨hb, hhash⟩
    · exact h.origin hold
    · exact .inr ⟨hsub _ hb, hhash⟩
  rooted hr hroots := h'.rooted (h.rooted hr hroots) fun b hb => hroots b (hsub b hb)

/-- What one round over `blocks` does: every block is then indexed or left
over, and without progress all of them miss their parent. -/
structure RoundOf (before after : P.ForkChoice) (blocks remaining : List P.Block)
    (progressed : Bool) : Prop where
  grows : Grows before after blocks
  settled : ∀ b ∈ blocks, (indexed after).item (P.block.hash b) ≠ none ∨ b ∈ remaining
  subset : ∀ b ∈ remaining, b ∈ blocks
  stuck : progressed = false → after = before ∧ ∀ b ∈ blocks,
    ¬Parentless b ∧ (indexed before).item (P.block.previousHash b) = none

/-- Inserting one of the blocks grows the index. -/
theorem grows_insert {forkChoice' : P.ForkChoice} {hash : BlockHash} {blocks : List P.Block}
    (h : P.forkChoice.insertBlock forkChoice block = .ok (hash, forkChoice'))
    (hmem : block ∈ blocks) : Grows forkChoice forkChoice' blocks where
  ext := indexed_extends hfc h
  origin {k b} hitem := by
    obtain ⟨rfl, -, -, -⟩ := hfc.insert_ok h
    rw [indexed_insert hfc h] at hitem
    by_cases hk : P.block.hash block = k
    · subst hk
      rw [Forest.insert_item_self] at hitem
      cases hitem
      exact .inr ⟨hmem, rfl⟩
    · rw [Forest.insert_item_of_ne hk] at hitem
      exact .inl hitem
  rooted {r} hr hroots := by
    obtain ⟨rfl, hfresh, hparent, -⟩ := hfc.insert_ok h
    have hheight : P.block.height block ≠ 0 := by
      intro hzero
      obtain ⟨g, hg, -⟩ := hr.root
      rw [← hroots block hmem hzero, indexed_item_eq_none.mpr hfresh] at hg
      cases hg
    obtain ⟨entry, hentry⟩ := Option.isSome_iff_exists.mp (hparent (not_parentless hheight))
    rw [indexed_insert hfc h]
    exact hr.insert (indexed_item_eq_none.mpr hfresh) (parentHash_eq_some.mpr ⟨hheight, rfl⟩)
      (indexed_item_eq_some.mpr ⟨entry, hentry, rfl⟩)

/-- Indexing a chain from its genesis block on succeeds and indexes just its
blocks. -/
theorem indexChain_of_chainOf {bs : List P.Block} (hof : ChainOf chain bs)
    (hadmissible : ∀ b ∈ bs, Admissible b)
    (hroot : ∀ b ∈ bs, P.block.height b = 0 → P.block.previousHash b = 0)
    (hdistinct : ∀ b ∈ bs, ∀ c ∈ bs, P.block.hash b = P.block.hash c → b = c) {k : Nat}
    (hk : k ≤ bs.length) :
    ∃ forkChoice, indexChain P.forkChoice.new (bs.take k) = .ok forkChoice ∧
      ∀ hash b, (indexed forkChoice).item hash = some b ↔
        b ∈ bs.take k ∧ P.block.hash b = hash := by
  induction k with
  | zero =>
      refine ⟨P.forkChoice.new, rfl, ?_⟩
      intro hash b
      rw [indexed_item_eq_none.mpr (hfc.get_new hash)]
      simp
  | succ k ih =>
      obtain ⟨before, hbefore, hitems⟩ := ih (by omega)
      have hget := List.getElem?_eq_getElem (show k < bs.length by omega)
      set block := bs[k] with hblock
      have hmem : block ∈ bs := List.mem_of_getElem? hget
      have hfresh : (indexed before).item (P.block.hash block) = none := by
        cases hitem : (indexed before).item (P.block.hash block) with
        | none => rfl
        | some c =>
            obtain ⟨hc, hhash⟩ := (hitems _ _).mp hitem
            obtain rfl := hdistinct c (List.mem_of_mem_take hc) block hmem hhash
            exact absurd hc (hof.notMem_take hget)
      have hparent : ¬Parentless block →
          (indexed before).item (P.block.previousHash block) ≠ none := by
        intro hnot
        cases k with
        | zero =>
            have hzero : P.block.height block = 0 :=
              UInt64.toNat_inj.mp ((hof.height hget).trans rfl)
            exact absurd ⟨hzero, hroot block hmem hzero⟩ hnot
        | succ k =>
            have hp := List.getElem?_eq_getElem (show k < bs.length by omega)
            rw [hof.link hget hp, (hitems _ bs[k]).mpr ⟨?_, rfl⟩]
            · simp
            · rw [List.mem_take_iff_getElem]
              exact ⟨k, by omega, rfl⟩
      obtain ⟨after, hinsert⟩ := insertBlock_of_fresh hfc
        (hfc.insert_error (hadmissible block hmem)) hfresh hparent
      have htake : bs.take (k + 1) = bs.take k ++ [block] := by
        rw [List.take_add_one, hget, Option.toList_some]
      refine ⟨after, ?_, ?_⟩
      · rw [htake, indexChain, foldlM_concat_eq_ok]
        exact ⟨before, hbefore, by rw [hinsert]; rfl⟩
      · intro hash b
        rw [htake, List.mem_append, List.mem_singleton]
        constructor
        · intro hitem
          rcases (grows_insert hfc hinsert List.mem_cons_self).origin hitem with hold | ⟨hb, hhash⟩
          · exact ((hitems _ _).mp hold).imp_left .inl
          · exact ⟨.inr (List.mem_singleton.mp hb), hhash⟩
        · rintro ⟨hb | rfl, rfl⟩
          · exact (indexed_extends hfc hinsert).item ((hitems _ b).mpr ⟨hb, rfl⟩)
          · exact indexed_item_of_insert hfc hinsert

omit hfc in
/-- The first block of the list is indexed. -/
theorem RoundOf.indexed_head {before middle after : P.ForkChoice} {rest remaining : List P.Block}
    {progressed : Bool} (h : RoundOf middle after rest remaining progressed)
    (hgrows : Grows before middle (block :: rest))
    (hblock : (indexed middle).item (P.block.hash block) ≠ none) :
    RoundOf before after (block :: rest) remaining true where
  grows := hgrows.trans h.grows fun _ hb => List.mem_cons_of_mem _ hb
  settled b hb := by
    rcases List.mem_cons.mp hb with rfl | hb
    · obtain ⟨c, hc⟩ := Option.ne_none_iff_exists'.mp hblock
      exact .inl (by rw [h.grows.ext.item hc]; simp)
    · exact h.settled b hb
  subset b hb := List.mem_cons_of_mem _ (h.subset b hb)
  stuck := nofun

omit hfc in
/-- The first block of the list misses its parent. -/
theorem RoundOf.left_head {before after : P.ForkChoice} {rest remaining : List P.Block}
    {progressed : Bool} (h : RoundOf before after rest remaining progressed)
    (hnot : ¬Parentless block)
    (hmissing : (indexed before).item (P.block.previousHash block) = none) :
    RoundOf before after (block :: rest) (block :: remaining) progressed where
  grows := (Grows.refl _ _).trans h.grows fun _ hb => List.mem_cons_of_mem _ hb
  settled b hb := by
    rcases List.mem_cons.mp hb with rfl | hb
    · exact .inr List.mem_cons_self
    · exact (h.settled b hb).imp id (List.mem_cons_of_mem _)
  subset b hb := by
    rcases List.mem_cons.mp hb with rfl | hb
    · exact List.mem_cons_self
    · exact List.mem_cons_of_mem _ (h.subset b hb)
  stuck hp := by
    obtain ⟨hsame, hall⟩ := h.stuck hp
    refine ⟨hsame, fun b hb => ?_⟩
    rcases List.mem_cons.mp hb with rfl | hb
    · exact ⟨hnot, hmissing⟩
    · exact hall b hb

/-- **One round** never fails. -/
theorem indexRound_ok (blocks : List P.Block) (hblocks : ∀ b ∈ blocks, Insertable b)
    (forkChoice : P.ForkChoice) :
    ∃ forkChoice' remaining progressed,
      indexRound forkChoice blocks = .ok (forkChoice', remaining, progressed) ∧
      RoundOf forkChoice forkChoice' blocks remaining progressed := by
  induction blocks generalizing forkChoice with
  | nil => exact ⟨forkChoice, [], false, rfl, .refl _ _, by simp, by simp, by simp⟩
  | cons block rest ih =>
      obtain ⟨hblock, hrest⟩ := List.forall_mem_cons.mp hblocks
      unfold indexRound
      split
      · next hcontains =>
          obtain ⟨fc, rem, p, hround, h⟩ := ih hrest forkChoice
          refine ⟨fc, rem, true, by rw [hround]; rfl, h.indexed_head (.refl _ _) ?_⟩
          rw [hfc.contains_eq] at hcontains
          obtain ⟨entry, hentry⟩ := Option.isSome_iff_exists.mp hcontains
          rw [indexed_item_eq_some.mpr ⟨entry, hentry, rfl⟩]
          exact Option.some_ne_none _
      next hcontains =>
      split
      · next hash fc₁ hinsert =>
          obtain ⟨fc, rem, p, hround, h⟩ := ih hrest fc₁
          refine ⟨fc, rem, true, by rw [hround]; rfl,
            h.indexed_head (grows_insert hfc hinsert List.mem_cons_self) ?_⟩
          rw [indexed_item_of_insert hfc hinsert]
          exact Option.some_ne_none _
      · next hinsert =>
          obtain ⟨fc, rem, p, hround, h⟩ := ih hrest forkChoice
          obtain ⟨hnot, hnone⟩ := hfc.insert_missing hinsert
          exact ⟨fc, block :: rem, p, by rw [hround]; rfl,
            h.left_head hnot (indexed_item_eq_none.mpr hnone)⟩
      · next e hne hinsert =>
          rw [Bool.not_eq_true, hfc.contains_eq_false] at hcontains
          exact absurd (hfc.insert_error_of_fresh hblock hcontains hinsert).1 hne

/-- **All rounds**: indexing never fails, and a block left out at the end
misses its parent. -/
theorem indexRounds_ok (blocks : List P.Block) (hblocks : ∀ b ∈ blocks, Insertable b)
    (forkChoice : P.ForkChoice) :
    ∃ forkChoice', indexRounds forkChoice blocks = .ok forkChoice' ∧
      Grows forkChoice forkChoice' blocks ∧
      ∀ b ∈ blocks, (indexed forkChoice').item (P.block.hash b) ≠ none ∨
        ¬Parentless b ∧ (indexed forkChoice').item (P.block.previousHash b) = none := by
  induction hlen : blocks.length using Nat.strongRecOn generalizing blocks forkChoice with
  | _ n ih =>
      obtain ⟨fc, rem, p, hround, hgrows, hsettled, hrem, hstuck⟩ :=
        indexRound_ok hfc blocks hblocks forkChoice
      cases p with
      | false =>
          obtain ⟨rfl, hall⟩ := hstuck rfl
          refine ⟨fc, ?_, hgrows, fun b hb => .inr (hall b hb)⟩
          unfold indexRounds
          split
          · next h => rw [hround] at h; cases h
          · next h => rw [hround] at h; cases h; rfl
          · next h => rw [hround] at h; cases h
      | true =>
          have hlt := indexRound_remaining hround
          simp only [Bool.toNat_true] at hlt
          obtain ⟨fc', hrounds, hgrows', hend⟩ := ih rem.length (by omega) rem
            (fun b hb => hblocks b (hrem b hb)) fc rfl
          refine ⟨fc', ?_, hgrows.trans hgrows' hrem, ?_⟩
          · unfold indexRounds
            split
            · next h => rw [hround] at h; cases h
            · next h => rw [hround] at h; cases h
            · next h => rw [hround] at h; cases h; exact hrounds
          · intro b hb
            rcases hsettled b hb with hknown | hleft
            · obtain ⟨c, hc⟩ := Option.ne_none_iff_exists'.mp hknown
              exact .inl (by rw [hgrows'.ext.item hc]; simp)
            · exact hend b hleft

end Laws

/-! ## Databases a node has written -/

/-- A database that holds the replay of `g :: branch`, all of it among the
stored blocks, and no second root; `blocks` are the stored blocks, which are
blocks an index takes. -/
structure Stored (db : Storage P) (ledger : P.Ledger)
    (genesisAccounts : BTreeMap Address P.Account) (g : P.Block) (branch : List P.Block)
    (blocks : BlockHash → Option P.Block) : Prop where
  holds : db.Holds ledger genesisAccounts blocks
  keyed : AccountsKeyed P genesisAccounts
  founded : Founded genesisAccounts g
  replayed : replay genesisAccounts g branch = .ok ledger
  chained : ∀ b ∈ g :: branch, blocks (P.block.hash b) = some b
  hashed : ∀ {hash b}, blocks hash = some b → P.block.hash b = hash
  roots : ∀ {hash b}, blocks hash = some b → P.block.height b = 0 → hash = P.block.hash g
  admissible : ∀ {hash b}, blocks hash = some b → Admissible b

/-- The blocks of an indexed chain up to any of them are the branch of that
one. -/
theorem branch_of_chainOf (hof : ChainOf chain (g :: branch))
    (hitems : ∀ b ∈ g :: branch, (indexed forkChoice).item (P.block.hash b) = some b) {k : Nat}
    {b : P.Block} (hk : (g :: branch)[k]? = some b) :
    (indexed forkChoice).Branch (P.block.hash g) (P.block.hash b) (branch.take k) := by
  induction k generalizing b with
  | zero =>
      cases hk
      exact .root (hitems g List.mem_cons_self) hof.parentless
  | succ k ih =>
      have hlt : k < (g :: branch).length := by
        have := (List.getElem?_eq_some_iff.mp hk).1
        omega
      have hp := List.getElem?_eq_getElem hlt
      have hk' : branch[k]? = some b := by simpa using hk
      have hne : P.block.height b ≠ 0 := by
        intro hzero
        have := hof.height hk
        rw [hzero] at this
        simp at this
      rw [List.take_add_one, hk', Option.toList_some]
      exact .step (ih hp) (hitems b (List.mem_of_getElem? hk))
        (parentHash_eq_some.mpr ⟨hne, hof.link hk hp⟩)

/-- An index of just the blocks of a chain is a tree. -/
theorem rooted_of_chainOf (hof : ChainOf chain (g :: branch))
    (hitems : ∀ hash b, (indexed forkChoice).item hash = some b ↔
      b ∈ g :: branch ∧ P.block.hash b = hash) : (indexed forkChoice).Rooted (P.block.hash g) := by
  have hchained : ∀ b ∈ g :: branch, (indexed forkChoice).item (P.block.hash b) = some b :=
    fun b hb => (hitems _ _).mpr ⟨hb, rfl⟩
  refine ⟨⟨g, hchained g List.mem_cons_self, hof.parentless⟩, ?_⟩
  intro hash b hb
  obtain ⟨hmem, rfl⟩ := (hitems _ _).mp hb
  obtain ⟨k, hk⟩ := List.getElem?_of_mem hmem
  exact ⟨_, branch_of_chainOf hof hchained hk⟩

/-- Two indexed chains with a common block agree up to it. -/
theorem ChainOf.agree {chain' : Chain P.Block} {a : P.Block} {bs bs' : List P.Block}
    (hof : ChainOf chain (g :: bs)) (hof' : ChainOf chain' (g :: bs'))
    (hitems : ∀ b ∈ g :: bs, (indexed forkChoice).item (P.block.hash b) = some b)
    (hitems' : ∀ b ∈ g :: bs', (indexed forkChoice).item (P.block.hash b) = some b)
    (ha : a ∈ g :: bs) (ha' : a ∈ g :: bs') {height : UInt64}
    (hle : height.toNat ≤ (P.block.height a).toNat) :
    chain'.blocks[height]? = chain.blocks[height]? := by
  obtain ⟨i, hi⟩ := List.getElem?_of_mem ha
  obtain ⟨i', hi'⟩ := List.getElem?_of_mem ha'
  have hheight := hof.height hi
  obtain rfl : i = i' := hheight.symm.trans (hof'.height hi')
  obtain ⟨-, htake⟩ := (branch_of_chainOf hof hitems hi).unique (branch_of_chainOf hof' hitems' hi')
  have hlt : height.toNat < i + 1 := by omega
  rw [hof.lookup, hof'.lookup, ← List.getElem?_take_of_lt hlt,
    ← List.getElem?_take_of_lt (l := g :: bs) hlt, List.take_succ_cons, List.take_succ_cons, htake]

namespace Node

/-- A node just opened over a database holding the replay of `g :: branch`
and the blocks `blocks`. -/
structure Opened (s : Node P) (db : Storage P) (ledger : P.Ledger)
    (genesisAccounts : BTreeMap Address P.Account) (g : P.Block) (branch : List P.Block)
    (blocks : BlockHash → Option P.Block) : Prop where
  storage : s.storage = db
  ledger : s.ledger = ledger
  genesisAccounts : s.genesisAccounts = genesisAccounts
  durable : s.durable = ⟨s.ledger, s.forkChoice⟩
  mempool : s.mempool = Mempool.new
  idle : s.Idle
  synced : Synced s (P.block.hash g)
  chained : ∀ b ∈ g :: branch, (indexed s.forkChoice).item (P.block.hash b) = some b
  stored : ∀ {hash b}, (indexed s.forkChoice).item hash = some b → blocks hash = some b
  /-- When the stored blocks form a tree, all of them are indexed. -/
  complete : (forest blocks).Rooted (P.block.hash g) →
    ∀ {hash b}, blocks hash = some b → (indexed s.forkChoice).item hash = some b

section Laws

variable (hfc : ForkChoiceLaws P) (hchain : ChainLaws P) (hrec : RecordLaws P)

include hfc hchain

/-- The two indexing passes over a stored ledger: they succeed, give a tree
of stored blocks, and leave no stored block out whose branch is stored. -/
theorem index_of_stored {genesisAccounts : BTreeMap Address P.Account}
    {blocks : BlockHash → Option P.Block} (h : Stored db ledger genesisAccounts g branch blocks)
    {stored : List P.Block} (hstored : ∀ b, b ∈ stored ↔ ∃ hash, blocks hash = some b) :
    ∃ fc₁ fc, indexChain P.forkChoice.new ledger.chain.blocks.valuesList = .ok fc₁ ∧
      indexRounds fc₁ stored = .ok fc ∧ (indexed fc).Rooted (P.block.hash g) ∧
      (∃ t bs, P.ledger.tipHash ledger = some t ∧ (indexed fc).Branch (P.block.hash g) t bs ∧
        ledgerForBranchTip fc genesisAccounts t = .ok ledger) ∧
      (∀ b ∈ g :: branch, (indexed fc).item (P.block.hash b) = some b) ∧
      (∀ {hash b}, (indexed fc).item hash = some b → blocks hash = some b) ∧
      ((forest blocks).Rooted (P.block.hash g) →
        ∀ {hash b}, blocks hash = some b → (indexed fc).item hash = some b) := by
  have hreplay := h.replayed
  have hin := h.chained
  obtain ⟨hof, htips⟩ := chainOf_of_foldlM hchain (replay_chain hchain hreplay)
  have hlast : (g :: branch).getLast? = some ((g :: branch).getLast (by simp)) :=
    List.getLast?_eq_some_getLast (by simp)
  -- first pass: the chain
  obtain ⟨fc₁, hindex, hitems⟩ := indexChain_of_chainOf hfc hof
    (fun b hb => h.admissible (hin b hb)) (by
    intro b hb hzero
    have hroot := h.roots (hin b hb) hzero
    have hsame := hin b hb
    rw [hroot, hin g List.mem_cons_self] at hsame
    rw [← Option.some.inj hsame]
    exact (replay_parentless hchain hreplay).2) (by
    intro b hb c hc heq
    have hbb := hin b hb
    rw [heq, hin c hc] at hbb
    exact (Option.some.inj hbb).symm) (Nat.le_refl _)
  rw [List.take_length] at hindex hitems
  have hchained : ∀ b ∈ g :: branch, (indexed fc₁).item (P.block.hash b) = some b :=
    fun b hb => (hitems _ _).mpr ⟨hb, rfl⟩
  -- second pass: everything stored
  obtain ⟨fc, hrounds, hgrows, hend⟩ := indexRounds_ok hfc stored (fun b hb => by
    obtain ⟨k, hk⟩ := (hstored b).mp hb
    exact hfc.insert_error (h.admissible hk)) fc₁
  have horigin : ∀ {hash b}, (indexed fc).item hash = some b → blocks hash = some b := by
    intro hash b hb
    rcases hgrows.origin hb with hold | ⟨hmem, rfl⟩
    · obtain ⟨hmem, rfl⟩ := (hitems _ _).mp hold
      exact hin b hmem
    · obtain ⟨k, hk⟩ := (hstored b).mp hmem
      rwa [h.hashed hk]
  have hrooted : (indexed fc).Rooted (P.block.hash g) := by
    refine hgrows.rooted (rooted_of_chainOf hof hitems) ?_
    intro b hb hzero
    obtain ⟨k, hk⟩ := (hstored b).mp hb
    rw [h.hashed hk]
    exact h.roots hk hzero
  refine ⟨fc₁, fc, by rw [hof.values]; exact hindex, hrounds, hrooted, ?_,
    fun b hb => hgrows.ext.item (hchained b hb), horigin, ?_⟩
  · have hbranch := branch_of_chainOf hof (fun b hb => hgrows.ext.item (hchained b hb))
      (List.getLast?_eq_getElem? ▸ hlast)
    rw [List.length_cons, Nat.add_sub_cancel, List.take_length] at hbranch
    refine ⟨_, _, (htips ledger.accounts _ hlast).hash, hbranch, ?_⟩
    rw [ledgerForBranchTip_eq_ok hfc hbranch
      (hgrows.ext.item (hchained g List.mem_cons_self))]
    exact hreplay
  · intro htree hash b hb
    -- along the branch of a stored block each parent is indexed, so the block is
    have hknown : (indexed fc).item hash ≠ none := by
      refine htree.induction (fun k => (indexed fc).item k ≠ none) ?_ ?_ hb
      · obtain ⟨c, hc, -⟩ := hrooted.root
        simp [hc]
      · intro k parent c hitem hparent hne
        rcases hend _ ((hstored _).mpr ⟨_, hitem⟩) with hne' | ⟨-, hnone⟩
        · rwa [h.hashed hitem] at hne'
        · rw [(parentHash_eq_some.mp hparent).2] at hnone
          exact absurd hnone hne
    obtain ⟨c, hc⟩ := Option.ne_none_iff_exists'.mp hknown
    have hsame := horigin hc
    rw [hb] at hsame
    rw [hc, Option.some.inj hsame]

include hrec

/-- The reading half of `init_or_load` succeeds on a stored ledger. -/
theorem assemble_of_stored {genesisAccounts : BTreeMap Address P.Account}
    {blocks : BlockHash → Option P.Block} (h : Stored db ledger genesisAccounts g branch blocks)
    (io : Nat) (consensus : Consensus) :
    ∃ s, assemble io db consensus ledger = .ok s ∧ s.io = io ∧ s.consensus = consensus ∧
      Opened s db ledger genesisAccounts g branch blocks := by
  obtain ⟨stored, hload, hstored⟩ := Storage.loadBlocksByHash_of_holds hrec h.holds
  have hsorted : ∀ b, b ∈ stored.insertionSort (fun a b => P.block.height a ≤ P.block.height b) ↔
      ∃ hash, blocks hash = some b := by
    intro b
    rw [List.mem_insertionSort, hstored]
  obtain ⟨fc₁, fc, hindex, hrounds, hrooted, hreplayed, hchained, horigin, hcomplete⟩ :=
    index_of_stored hfc hchain h hsorted
  unfold assemble withGenesisAccounts indexStoredBlocks
  simp only [Storage.loadGenesisAccounts_of_holds hrec h.holds, Option.getD_some, hindex, hload,
    hrounds]
  exact ⟨_, rfl, rfl, rfl, ⟨rfl, rfl, rfl, rfl, rfl, ⟨rfl, rfl, rfl, rfl, rfl⟩,
    ⟨hrooted, hreplayed⟩, hchained, horigin, hcomplete⟩⟩

/-- **Opening a stored database gives the stored ledger back**, without
writing. -/
theorem initOrLoad_of_stored {genesisAccounts : BTreeMap Address P.Account}
    {blocks : BlockHash → Option P.Block} (h : Stored db ledger genesisAccounts g branch blocks)
    (env : Env) (io : Nat) (consensus : Consensus) :
    ∃ s, initOrLoad env io db consensus = (db, .ok s) ∧ s.io = io + 3 ∧
      s.consensus = consensus ∧ Opened s db ledger genesisAccounts g branch blocks := by
  have hreplay := h.replayed
  have hfold := replay_chain hchain hreplay
  obtain ⟨hof, htips⟩ := chainOf_of_foldlM hchain hfold
  have hlast : (g :: branch).getLast? = some ((g :: branch).getLast (by simp)) :=
    List.getLast?_eq_some_getLast (by simp)
  have htip := htips ledger.accounts _ hlast
  have hkeyed := replay_keyed hrec h.keyed hreplay
  have hversion := Storage.loadStorageVersion_of_stamp hrec h.holds.version
  obtain ⟨s, hassemble, hio, hconsensus, hopened⟩ :=
    assemble_of_stored hfc hchain hrec h (io + 3) consensus
  refine ⟨s, ?_, hio, hconsensus, hopened⟩
  unfold initOrLoad openLedger
  simp only [Storage.ensureStorageVersion_of_version env io hversion,
    Storage.loadTip_of_rows hrec h.holds.rows htip,
    Storage.loadLedger_of_rows hrec env (io + 1) hversion h.holds.rows hkeyed hof hfold hlast htip,
    hassemble]

end Laws

/-! ## The first opening -/

/-- An empty database with the storage version written. -/
def stamped : Storage P :=
  { Storage.empty with metaStorageVersion := some (P.borsh.encode .version storageVersion) }

/-- Nothing has been written but, perhaps, the storage version. -/
def Blank (db : Storage P) : Prop := db = Storage.empty ∨ db = stamped

/-- The genesis block alone, by hash. -/
def genesisOnly (hash : BlockHash) : Option P.Block :=
  if P.block.hash P.genesisBlock = hash then some P.genesisBlock else none

theorem genesisOnly_eq_some {hash : BlockHash} {b : P.Block} :
    genesisOnly hash = some b ↔ b = P.genesisBlock ∧ P.block.hash P.genesisBlock = hash := by
  unfold genesisOnly
  split
  · next h => exact ⟨fun hb => ⟨(Option.some.inj hb).symm, h⟩, fun ⟨hb, _⟩ => by rw [hb]⟩
  · next h => exact ⟨fun hb => by (cases hb), fun ⟨_, hh⟩ => absurd hh h⟩

section Laws

variable (hfc : ForkChoiceLaws P) (hchain : ChainLaws P) (hrec : RecordLaws P)

include hrec

/-- Stamping a blank database leaves it blank, and stamped when it succeeds. -/
theorem ensureStorageVersion_of_blank (h : Blank db) (env : Env) (io : Nat) :
    Blank (db.ensureStorageVersion env io).1 ∧
      ((db.ensureStorageVersion env io).2 = .ok () →
        (db.ensureStorageVersion env io).1 = stamped) := by
  rcases h with rfl | rfl
  · have hempty : Storage.isEmptyDatabase (Storage.empty : Storage P) = true := rfl
    have hversion : (Storage.empty : Storage P).loadStorageVersion = .ok none := rfl
    unfold Storage.ensureStorageVersion Storage.commit
    simp only [hversion, hempty, if_true]
    cases env.commitFault io with
    | some code => exact ⟨.inl rfl, fun hok => by cases hok⟩
    | none => exact ⟨.inr rfl, fun _ => rfl⟩
  · rw [Storage.ensureStorageVersion_of_version env io
      (Storage.loadStorageVersion_of_stamp hrec rfl)]
    exact ⟨.inr rfl, fun _ => rfl⟩

include hfc hchain

/-- The genesis ledger, written to a stamped blank database, is stored. -/
theorem stored_of_writeGenesis
    (happly : P.ledger.applyBlock (Ledger.new P.Account P.Block) P.genesisBlock = .ok ledger)
    (hwrite : stamped.writeLedger ledger = .ok db) :
    Stored db ledger ledger.accounts P.genesisBlock [] genesisOnly := by
  have hinsert : P.ledger.insertBlock (Chain.new P.Block) P.genesisBlock = .ok ledger.chain :=
    hchain.apply_chain happly
  have hreplay : replay ledger.accounts P.genesisBlock [] = .ok ledger := by
    unfold replay
    rw [hinsert]
    rfl
  have hkeyed : AccountsKeyed P ledger.accounts := by
    refine hrec.apply_keyed happly ?_
    intro address account haccount
    simp [Ledger.new] at haccount
  obtain ⟨hof, htips⟩ := chainOf_of_foldlM hchain (replay_chain hchain hreplay)
  have htip := htips ledger.accounts P.genesisBlock rfl
  have hgenesis : ∀ b ∈ [P.genesisBlock], genesisOnly (P.block.hash b) = some b := by
    intro b hb
    rw [List.mem_singleton.mp hb]
    exact genesisOnly_eq_some.mpr ⟨rfl, rfl⟩
  have hother : ∀ hash, (∀ b ∈ [P.genesisBlock], P.block.hash b ≠ hash) →
      genesisOnly (P := P) hash = none := by
    intro hash hne
    exact if_neg (hne _ List.mem_cons_self)
  have hrows : ∀ hash : BlockHash, (stamped : Storage P).blocksByHash[hash]? =
      (none : Option P.Block).map (P.borsh.encode .block) := by
    intro hash
    simp [stamped, Storage.empty]
  have hholds := Storage.writeLedger_holds rfl (.inr (hchain.insert_first hinsert).1) (fun _ => rfl)
    hrows hgenesis hother hkeyed hof htip hwrite
  refine ⟨hholds, hkeyed, ⟨ledger.chain, happly⟩, hreplay, hgenesis, ?_, ?_, ?_⟩
  · intro hash b hb
    obtain ⟨rfl, hh⟩ := genesisOnly_eq_some.mp hb
    exact hh
  · intro hash b hb _
    exact (genesisOnly_eq_some.mp hb).2.symm
  · intro hash b hb
    rw [(genesisOnly_eq_some.mp hb).1]
    exact hfc.genesis_admissible

/-- The ledger `init_or_load` creates: either nothing is written, or the
genesis ledger is. -/
theorem openLedger_of_stamped (env : Env) (io : Nat) :
    ((openLedger (P := P) env io stamped).1 = stamped ∧
        ∀ ledger, (openLedger (P := P) env io stamped).2 ≠ .ok ledger) ∨
      ∃ ledger, Stored (openLedger (P := P) env io stamped).1 ledger ledger.accounts
          P.genesisBlock [] genesisOnly ∧
        ∀ ledger', (openLedger (P := P) env io stamped).2 = .ok ledger' → ledger' = ledger := by
  have htip : (stamped : Storage P).loadTip = .ok none := rfl
  unfold openLedger
  simp only [htip]
  split
  · exact .inl ⟨rfl, fun _ h => by cases h⟩
  cases happly : P.ledger.applyBlock (Ledger.new P.Account P.Block) P.genesisBlock with
  | error e => exact .inl ⟨rfl, fun _ h => by cases h⟩
  | ok ledger =>
      simp only
      cases hsave : stamped.saveLedger env io ledger with
      | mk db result =>
          have hcases := Storage.saveLedger_cases env io stamped ledger
          rw [hsave] at hcases
          rcases hcases with ⟨rfl, hne⟩ | hwrite
          · cases result with
            | error e => exact .inl ⟨rfl, fun _ h => by cases h⟩
            | ok u => exact absurd rfl hne
          · have hstored := stored_of_writeGenesis hfc hchain hrec happly hwrite
            -- the genesis accounts were part of that write already
            have hagain : { db with
                genesisAccounts := some (P.borsh.encode .accounts ledger.accounts) } = db := by
              rw [← hstored.holds.genesis]
            refine .inr ⟨ledger, ?_⟩
            cases result with
            | error e => exact ⟨hstored, fun _ h => by cases h⟩
            | ok u =>
                simp only [Storage.saveGenesisAccounts, Storage.commit]
                cases env.commitFault (io + 1) with
                | some code => exact ⟨hstored, fun _ h => by cases h⟩
                | none =>
                    simp only [hagain]
                    exact ⟨hstored, fun _ h => (Except.ok.inj h).symm⟩

/-- **Opening a blank database** leaves it blank or holding the genesis
ledger, the latter if it succeeds. -/
theorem initOrLoad_of_blank (h : Blank db) (env : Env) (io : Nat) (consensus : Consensus) :
    (Blank (initOrLoad env io db consensus).1 ∧
        ∀ s, (initOrLoad env io db consensus).2 ≠ .ok s) ∨
      ∃ ledger, Stored (initOrLoad env io db consensus).1 ledger ledger.accounts
          P.genesisBlock [] genesisOnly ∧
        ∀ s, (initOrLoad env io db consensus).2 = .ok s → s.io = io + 3 ∧
          s.consensus = consensus ∧
          Opened s (initOrLoad env io db consensus).1 ledger ledger.accounts P.genesisBlock []
            genesisOnly := by
  obtain ⟨hblank, hstamped⟩ := ensureStorageVersion_of_blank hrec h env io
  unfold initOrLoad
  cases hensure : db.ensureStorageVersion env io with
  | mk db₁ result =>
      rw [hensure] at hblank hstamped
      cases result with
      | error e => exact .inl ⟨hblank, fun s hs => by cases hs⟩
      | ok u =>
          obtain rfl : db₁ = stamped := hstamped rfl
          have hopen := openLedger_of_stamped hfc hchain hrec env (io + 1)
          cases hledger : openLedger (P := P) env (io + 1) stamped with
          | mk db₂ result =>
              rw [hledger] at hopen
              simp only [hledger]
              rcases hopen with ⟨rfl, hne⟩ | ⟨ledger, hstored, heq⟩
              · cases result with
                | error e => exact .inl ⟨.inr rfl, fun s hs => by cases hs⟩
                | ok ledger => exact absurd rfl (hne ledger)
              · refine .inr ⟨ledger, ?_⟩
                cases result with
                | error e => exact ⟨hstored, fun s hs => by cases hs⟩
                | ok ledger' =>
                    obtain rfl := heq ledger' rfl
                    obtain ⟨s, hassemble, hs⟩ :=
                      assemble_of_stored hfc hchain hrec hstored (io + 3) consensus
                    refine ⟨hstored, ?_⟩
                    intro s' hs'
                    simp only [hassemble] at hs'
                    cases hs'
                    exact hs

/-- The node opened over an empty database knows the genesis block only. -/
theorem genesisOnly_of_initOrLoad {env : Env} {io : Nat} {consensus : Consensus} {s : Node P}
    (hopen : initOrLoad env io Storage.empty consensus = (db, .ok s)) :
    s.GenesisOnly P.genesisBlock := by
  rcases initOrLoad_of_blank hfc hchain hrec (.inl rfl) env io consensus with
    ⟨-, hfail⟩ | ⟨ledger, hstored, hok⟩
  · exact absurd (by rw [hopen]) (hfail s)
  obtain ⟨-, -, hopened⟩ := hok s (by rw [hopen])
  have hheight := replay_root hchain hstored.replayed
  refine ⟨hheight, ?_, ?_, ?_, hopened.idle⟩
  · intro hash
    split
    · next hhash =>
        have hitem := hopened.chained P.genesisBlock List.mem_cons_self
        obtain ⟨⟨h, height, b⟩, hget, hblock⟩ := indexed_item_eq_some.mp hitem
        obtain ⟨rfl, -, hentry⟩ := hfc.get_entry hget
        simp only at hblock hentry
        subst hblock
        rw [← hhash, hget, hentry, hheight]
    · next hhash =>
        cases hget : P.forkChoice.get s.forkChoice hash with
        | none => rfl
        | some entry =>
            have hblock := hopened.stored (indexed_item_eq_some.mpr ⟨entry, hget, rfl⟩)
            exact absurd (genesisOnly_eq_some.mp hblock).2 hhash
  · rw [hopened.ledger]
    exact (replay_nil hstored.replayed).2
  · rw [hopened.genesisAccounts, hopened.ledger]

end Laws

end Node

end PaqusNode
