import PaqusNode.Node.Atomic
import PaqusNode.Node.Restart
import PaqusNode.Node.Validated

/-!
# PaqusNode.Node.Redelivery

A block that is delivered again.  `apply_block` notices a duplicate only at
the insertion into the fork-choice index, after all checks have been made
once more; so a known block is accepted again exactly if it still passes
them.  Its state checks do pass, also in a node that has found the block in
its database and has never checked it: whoever wrote it there had.  That
leaves the header rules, which depend on the clock and on the
configuration, and the genesis block, which has no parent to be checked
against.
-/

namespace PaqusNode

namespace Node

variable {P : Paqus}

variable {env : Env} {s : Node P} {db : Storage P} {r hash : BlockHash} {block : P.Block}
  {genesisAccounts : BTreeMap Address P.Account}

/-! ## Checked blocks -/

/-- Somebody has checked the block against the replay of its branch, whose
blocks are all known by their hashes. -/
structure Checked (block : P.Block) : Prop where
  checkpoint : P.consensus.validateCheckpoint (P.block.height block) (P.block.hash block) = true
  replayed : ∃ genesisAccounts branch before after, Founded genesisAccounts P.genesisBlock ∧
    (∀ b ∈ branch ++ [block],
      HeaderValid b ∧ P.block.hash b ≠ P.block.hash P.genesisBlock) ∧
    replay genesisAccounts P.genesisBlock branch = .ok before ∧
    validateCanonicalStateRoot before block = .ok () ∧
    P.ledger.applyBlock before block = .ok after

/-- The genesis block, or a checked block above it. -/
def Endorsed (block : P.Block) : Prop :=
  P.block.height block = 0 ∧ block = P.genesisBlock ∨ P.block.height block ≠ 0 ∧ Checked block

theorem endorsed_genesisOnly (hroot : Parentless P.genesisBlock) (hash : BlockHash)
    (b : P.Block) (hb : genesisOnly hash = some b) : Endorsed b := by
  obtain ⟨rfl, -⟩ := genesisOnly_eq_some.mp hb
  exact .inl ⟨hroot.1, rfl⟩

/-- All blocks of a database are endorsed. -/
def EndorsedRows (db : Storage P) : Prop :=
  ∀ (hash : BlockHash) bytes, db.blocksByHash[hash]? = some bytes →
    ∃ block, bytes = P.borsh.encode .block block ∧ Endorsed block

/-- All blocks the node knows are endorsed. -/
structure AllEndorsed (s : Node P) : Prop where
  founded : Founded s.genesisAccounts P.genesisBlock
  index : ∀ {hash block}, (indexed s.forkChoice).item hash = some block → Endorsed block
  rows : EndorsedRows s.storage

theorem AllEndorsed.congr {s' : Node P} (h : AllEndorsed s)
    (hgenesis : s'.genesisAccounts = s.genesisAccounts) (hfork : s'.forkChoice = s.forkChoice)
    (hstorage : s'.storage = s.storage) : AllEndorsed s' where
  founded := hgenesis ▸ h.founded
  index := hfork ▸ h.index
  rows := hstorage ▸ h.rows

/-- The genesis block determines the first accounts. -/
theorem founded_unique {genesisAccounts' : BTreeMap Address P.Account} {genesis : P.Block}
    (h : Founded genesisAccounts genesis) (h' : Founded genesisAccounts' genesis) :
    genesisAccounts = genesisAccounts' := by
  obtain ⟨chain, happly⟩ := h
  obtain ⟨chain', happly'⟩ := h'
  rw [happly] at happly'
  cases happly'
  rfl

/-- Nothing is indexed under the root but the genesis block. -/
theorem AllEndorsed.root (h : AllEndorsed s) (hs : Synced s r) :
    (indexed s.forkChoice).item r = some P.genesisBlock := by
  obtain ⟨g, hg, hroot⟩ := hs.rooted.root
  rcases h.index hg with ⟨-, rfl⟩ | ⟨hne, -⟩
  · exact hg
  · exact absurd hroot.1 hne

/-- The blocks of a branch of the index are valid, none of them with the hash
of the genesis block. -/
theorem AllEndorsed.branch {t : BlockHash} {bs : List P.Block} (h : AllEndorsed s)
    (hbranch : (indexed s.forkChoice).Branch r t bs) :
    ∀ b ∈ bs, HeaderValid b ∧ P.block.hash b ≠ P.block.hash P.genesisBlock := by
  intro b hb
  obtain ⟨k, p, hitem, hparent⟩ := hbranch.mem_known hb
  obtain ⟨hheight, -⟩ := parentHash_eq_some.mp hparent
  rcases h.index hitem with ⟨hzero, -⟩ | ⟨-, -, _, _, _, _, -, hvalid, -⟩
  · exact absurd hzero hheight
  · exact hvalid b (by simp)

/-! ## Every known block is endorsed -/

section Laws

variable (hfc : ForkChoiceLaws P) (hchain : ChainLaws P) (hrec : RecordLaws P)

include hfc in
/-- A block that enters the index has been checked. -/
theorem AllEndorsed.checked {forkChoice : P.ForkChoice} {parent child : P.Ledger} {now : UInt64}
    (h : AllEndorsed s) (hs : Synced s r)
    (hvalid : s.validateBlockForKnownParent now block = .ok ())
    (hinsert : P.forkChoice.insertBlock s.forkChoice block = .ok (P.block.hash block, forkChoice))
    (hacc : Accepted s block forkChoice parent child) : Checked block := by
  obtain ⟨entry, hentry, hnext, hcheckpoint, -⟩ :=
    validateBlockForKnownParent_ok hacc.height_ne hvalid
  have hroot := h.root hs
  obtain ⟨bs, hbranch⟩ := hs.rooted.branch (indexed_item_eq_some.mpr ⟨entry, hentry, rfl⟩)
  refine ⟨hcheckpoint, s.genesisAccounts, bs, parent, child, h.founded, ?_,
    (ledgerForBranchTip_eq_ok hfc hbranch hroot).mp hacc.parent_replay, hacc.state_root,
    hacc.apply⟩
  intro b hb
  rcases List.mem_append.mp hb with hb | hb
  · exact h.branch hbranch b hb
  · rw [List.mem_singleton.mp hb]
    refine ⟨⟨_, _, _, hnext⟩, ?_⟩
    -- the genesis block is indexed, and the block was not
    intro heq
    have hfresh := (hfc.insert_ok hinsert).2.1
    rw [heq, hash_of_indexed hfc hroot] at hfresh
    rw [indexed_item_eq_none.mpr hfresh] at hroot
    cases hroot

include hfc hchain

/-- Writing the ledger writes indexed blocks. -/
theorem AllEndorsed.saveLedger (h : AllEndorsed s) (hs : Synced s r) :
    AllEndorsed (s.saveLedger env).1 := by
  obtain ⟨storage, durable, hsave⟩ := saveLedger_fst env s
  have hrows : EndorsedRows (s.saveLedger env).1.storage := by
    rw [saveLedger_storage]
    rcases Storage.saveLedger_cases env s.io s.storage s.ledger with ⟨hsame, -⟩ | hwrite
    · rw [hsame]
      exact h.rows
    · obtain ⟨g, branch, -, hreplay, hin⟩ := hs.chain hfc
      have hof := (chainOf_of_foldlM hchain (replay_chain hchain hreplay)).1
      intro hash bytes hbytes
      rw [(Storage.writeLedger_written hwrite).byHash, hof.values] at hbytes
      rcases BTreeMap.exists_of_getElem?_foldl_insert P.block.hash (P.borsh.encode .block) hbytes
        with ⟨b, hb, -, rfl⟩ | hold
      · exact ⟨b, rfl, h.index (hin b hb)⟩
      · exact h.rows hash bytes hold
  refine ⟨?_, ?_, hrows⟩
  · rw [hsave]
    exact h.founded
  · rw [hsave]
    exact h.index

omit hfc hchain in
/-- Storing an endorsed block keeps everything endorsed. -/
theorem AllEndorsed.saveSideBlock (h : AllEndorsed s) (hblock : Endorsed block) :
    AllEndorsed (s.saveSideBlock env block).1 := by
  obtain ⟨storage, durable, hsave⟩ := saveSideBlock_fst env s block
  have hrows : EndorsedRows (s.saveSideBlock env block).1.storage := by
    rw [saveSideBlock_storage]
    rcases Storage.saveSideBlock_cases env s.io s.storage block with ⟨hsame, -⟩ | hwrite
    · rw [hsame]
      exact h.rows
    · rw [hwrite]
      intro hash bytes hbytes
      rw [Storage.withBlock, BTreeMap.getElem?_insert_eq] at hbytes
      split at hbytes
      · cases hbytes
        exact ⟨block, rfl, hblock⟩
      · exact h.rows hash bytes hbytes
  refine ⟨?_, ?_, hrows⟩
  · rw [hsave]
    exact h.founded
  · rw [hsave]
    exact h.index

/-- **One step keeps every known block endorsed.** -/
theorem Step.allEndorsed {s' : Node P} (hs : Synced s r) (h : AllEndorsed s)
    (hstep : Step env s s') : AllEndorsed s' := by
  cases hstep with
  | save => exact h.saveLedger hfc hchain hs
  | sync hsync => exact h.congr hsync.genesisAccounts hsync.forkChoice hsync.storage
  | pool _ => exact h.congr rfl rfl rfl
  | connect block =>
      rcases applyKnownParentBlock_connected hfc hchain env hs block with
        ⟨e, hrej⟩ | ⟨fc, parent, child, hvalid, hinsert, hacc, hconn⟩
      · rw [hrej]
        exact h.congr rfl rfl rfl
      have hblock : Endorsed block := .inr ⟨hacc.height_ne, h.checked hfc hs hvalid hinsert hacc⟩
      have hgrown : ∀ {hash b}, (indexed fc).item hash = some b → Endorsed b := by
        intro hash b hitem
        rcases (grows_insert hfc hinsert List.mem_cons_self).origin hitem with hold | ⟨hb, -⟩
        · exact h.index hold
        · exact List.mem_singleton.mp hb ▸ hblock
      generalize s.applyKnownParentBlock env block = result at hconn
      cases hconn with
      | side hbest =>
          have h₁ : AllEndorsed { s.tick with forkChoice := fc } := ⟨h.founded, hgrown, h.rows⟩
          exact h₁.saveSideBlock hblock
      | active hbest mempool mempool' cache k hwrite =>
          have hs₁ : Synced { s.tick with
              forkChoice := fc, ledger := child, mempool := mempool, cache := cache } r :=
            hs.active hfc hchain hacc hinsert rfl rfl
          have h₁ : AllEndorsed { s.tick with
              forkChoice := fc, ledger := child, mempool := mempool, cache := cache } :=
            ⟨h.founded, hgrown, h.rows⟩
          subst hwrite
          exact (h₁.saveLedger hfc hchain hs₁).congr rfl rfl rfl

theorem Steps.allEndorsed {s' : Node P} (hs : Synced s r) (h : AllEndorsed s)
    (hrun : Steps env s s') : AllEndorsed s' :=
  (hrun.invariant (fun s => Synced s r ∧ AllEndorsed s)
    (fun h hstep => ⟨(hstep.synced hfc hchain h.1).1, hstep.allEndorsed hfc hchain h.1 h.2⟩)
    ⟨hs, h⟩).2

omit hfc in
/-- A node that has just read endorsed blocks. -/
theorem Opened.allEndorsed {ledger : P.Ledger} {g : P.Block} {branch : List P.Block}
    {blocks : BlockHash → Option P.Block} (h : s.Opened db ledger genesisAccounts g branch blocks)
    (hstored : Stored db ledger genesisAccounts g branch blocks)
    (hblocks : ∀ {hash b}, blocks hash = some b → Endorsed b) : AllEndorsed s := by
  have hg : g = P.genesisBlock := by
    rcases hblocks (hstored.chained g List.mem_cons_self) with ⟨-, hg⟩ | ⟨hne, -⟩
    · exact hg
    · exact absurd (replay_root hchain hstored.replayed) hne
  refine ⟨?_, fun hitem => hblocks (h.stored hitem), ?_⟩
  · rw [h.genesisAccounts, ← hg]
    exact hstored.founded
  · rw [h.storage]
    intro hash bytes hbytes
    rw [hstored.holds.byHash] at hbytes
    obtain ⟨b, hb, rfl⟩ := Option.map_eq_some_iff.mp hbytes
    exact ⟨b, rfl, hblocks hb⟩

omit hfc hchain in
include hrec in
/-- What is stored in endorsed rows is endorsed. -/
theorem EndorsedRows.blocks {ledger : P.Ledger} {g : P.Block} {branch : List P.Block}
    {blocks : BlockHash → Option P.Block} (h : EndorsedRows db)
    (hstored : Stored db ledger genesisAccounts g branch blocks) {b : P.Block}
    (hb : blocks hash = some b) : Endorsed b := by
  obtain ⟨b', hbytes, hb'⟩ := h hash (P.borsh.encode .block b) (by
    rw [hstored.holds.byHash, hb]
    rfl)
  have hdecode := congrArg (P.borsh.decode .block) hbytes
  rw [hrec.decode_encode, hrec.decode_encode, Option.some.injEq] at hdecode
  rwa [hdecode]

include hrec

/-- **The blocks of a written database are endorsed.** -/
theorem Written.endorsed {E : Env → Prop} (h : Written E db) :
    BlankOrStored (fun _ blocks => ∀ hash b, blocks hash = some b → Endorsed b) db := by
  induction h with
  | empty => exact .inl (.inl rfl)
  | opening io consensus _ _ ih =>
      exact (ih.initOrLoad hfc hchain hrec endorsed_genesisOnly _ io consensus).1
  | @running db db' env io consensus s _ _ hopen operations ih =>
      obtain ⟨ledger, genesisAccounts, g, branch, blocks, hstored, hblocks, hopened⟩ :=
        (ih.initOrLoad hfc hchain hrec endorsed_genesisOnly _ _ _).2 _ _ hopen
      have hendorsed := (runAll_steps env operations s).allEndorsed hfc hchain hopened.synced
        (hopened.allEndorsed hchain hstored (hblocks _ _))
      obtain ⟨ledger', g', branch', blocks', -, hstored', -⟩ := (runAll_steps _ operations _).backed
        hfc hchain hrec hopened.synced (hopened.backed hstored)
      exact .inr ⟨_, _, _, _, _, hstored', fun _ _ => hendorsed.rows.blocks hrec hstored'⟩

/-- The blocks of every running node are endorsed. -/
theorem allEndorsed_of_written {E : Env → Prop} {db' : Storage P} (hdb : Written E db) {io : Nat}
    {consensus : Consensus} (hopen : initOrLoad env io db consensus = (db', .ok s))
    (operations : List (Operation P)) :
    ∃ r, Synced (s.runAll env operations) r ∧ AllEndorsed (s.runAll env operations) := by
  obtain ⟨ledger, genesisAccounts, g, branch, blocks, hstored, hblocks, hopened⟩ :=
    ((hdb.endorsed hfc hchain hrec).initOrLoad hfc hchain hrec endorsed_genesisOnly _ _ _).2
      _ _ hopen
  have hrun := runAll_steps env operations s
  exact ⟨_, hrun.synced hfc hchain hopened.synced, hrun.allEndorsed hfc hchain hopened.synced
    (hopened.allEndorsed hchain hstored (hblocks _ _))⟩

end Laws

/-! ## The branch of an endorsed block -/

section Hashes

variable (hfc : ForkChoiceLaws P) (hchain : ChainLaws P) (hhashes : HashLaws P)

include hfc hchain hhashes

/-- A branch of the index and a replay that end in one hash are the same
blocks. -/
theorem branch_eq_of_replay {forkChoice : P.ForkChoice} {t : BlockHash} {bs branch : List P.Block}
    {ledger : P.Ledger} (hbranch : (indexed forkChoice).Branch r t bs)
    (hroot : (indexed forkChoice).item r = some P.genesisBlock)
    (hbs : ∀ b ∈ bs, HeaderValid b ∧ P.block.hash b ≠ P.block.hash P.genesisBlock)
    (hreplay : replay genesisAccounts P.genesisBlock branch = .ok ledger)
    (hvalid : ∀ b ∈ branch, HeaderValid b ∧ P.block.hash b ≠ P.block.hash P.genesisBlock)
    (htip : P.ledger.tipHash ledger = some t) : bs = branch := by
  induction hbranch generalizing branch ledger with
  | root _ _ =>
      rcases List.eq_nil_or_concat branch with rfl | ⟨rest, last, rfl⟩
      · rfl
      · rw [List.concat_eq_append] at hreplay hvalid
        obtain ⟨before, -, happly⟩ := replay_concat.mp hreplay
        rw [(applyBlock_tip hchain happly).1, ← hash_of_indexed hfc hroot] at htip
        exact absurd (Option.some.inj htip) (hvalid last (by simp)).2
  | @step t p b bs _ hitem hparent ih =>
      have hb := hbs b (by simp)
      have hhash := hash_of_indexed hfc hitem
      rcases List.eq_nil_or_concat branch with rfl | ⟨rest, last, rfl⟩
      · rw [(replay_tip hchain hreplay).1, ← hhash] at htip
        exact absurd (Option.some.inj htip).symm hb.2
      · rw [List.concat_eq_append] at hreplay hvalid ⊢
        obtain ⟨before, hbefore, happly⟩ := replay_concat.mp hreplay
        rw [(applyBlock_tip hchain happly).1, ← hhash] at htip
        obtain rfl : last = b :=
          hhashes.hash_inj (hvalid last (by simp)).1 hb.1 (Option.some.inj htip)
        obtain ⟨tipHash, tipHeight, htipHash, htipHeight⟩ :=
          (⟨_, _, replay_tip hchain hbefore⟩ : ∃ tipHash tipHeight,
            P.ledger.tipHash before = some tipHash ∧ P.ledger.tipHeight before = some tipHeight)
        have hlink := (applyBlock_link hchain happly htipHash htipHeight).1
        rw [(parentHash_eq_some.mp hparent).2] at hlink
        rw [ih (fun c hc => hbs c (List.mem_append_left _ hc)) hbefore
          (fun c hc => hvalid c (List.mem_append_left _ hc)) (hlink ▸ htipHash)]

/-- **The checks on an endorsed block pass again**, all but those that depend
on the clock and the configuration. -/
theorem AllEndorsed.state_valid (h : AllEndorsed s) (hs : Synced s r)
    (hitem : (indexed s.forkChoice).item hash = some block) (hheight : P.block.height block ≠ 0) :
    (∃ before after, Applies s block before after) ∧
      P.consensus.validateCheckpoint (P.block.height block) (P.block.hash block) = true := by
  rcases h.index hitem with ⟨hzero, -⟩ | ⟨-, hchecked⟩
  · exact absurd hzero hheight
  obtain ⟨genesisAccounts, branch, before, after, hfounded, hvalid, hreplay, hroot, happly⟩ :=
    hchecked.replayed
  obtain rfl := founded_unique h.founded hfounded
  obtain ⟨bs, hbranch⟩ := hs.rooted.branch_parent hitem (parentHash_eq_some.mpr ⟨hheight, rfl⟩)
  obtain ⟨htipHash, htipHeight⟩ := replay_tip hchain hreplay
  have hlink := (applyBlock_link hchain happly htipHash htipHeight).1
  obtain rfl := branch_eq_of_replay hfc hchain hhashes hbranch (h.root hs) (h.branch hbranch)
    hreplay (fun b hb => hvalid b (List.mem_append_left _ hb)) (hlink ▸ htipHash)
  exact ⟨⟨before, after, (ledgerForBranchTip_eq_ok hfc hbranch (h.root hs)).mpr hreplay, hroot,
    happly⟩, hchecked.checkpoint⟩

omit hchain in
/-- No block is known by the hash of zeros. -/
theorem AllEndorsed.item_zero (h : AllEndorsed s) : (indexed s.forkChoice).item 0 = none := by
  cases hitem : (indexed s.forkChoice).item 0 with
  | none => rfl
  | some b =>
      have hzero := hash_of_indexed hfc hitem
      rcases h.index hitem with ⟨-, rfl⟩ | ⟨-, -, _, _, _, _, -, hvalid, -⟩
      · exact absurd hzero hhashes.genesis_ne_zero
      · exact absurd hzero (hhashes.hash_ne_zero (hvalid b (by simp)).1)

/-- The genesis block has no parent to be replayed. -/
theorem AllEndorsed.genesis_rejected (h : AllEndorsed s) (hs : Synced s r) :
    s.validateBlockStateForKnownParent P.genesisBlock = .error .missingGenesisState ∨
      s.validateBlockStateForKnownParent P.genesisBlock = .error .reorgRequired := by
  have hunknown := h.item_zero hfc hhashes
  obtain ⟨chain, happly⟩ := h.founded
  have hprevious := (hchain.insert_first (hchain.apply_chain happly)).2
  obtain ⟨t, bs, htip, hbranch, -⟩ := hs.replayed
  obtain ⟨b, hb⟩ := hbranch.tip_known
  have hextends : extendsActiveTip s.ledger P.genesisBlock = false := by
    simp only [extendsActiveTip, htip, hprevious, beq_eq_false_iff_ne]
    rintro rfl
    rw [hunknown] at hb
    cases hb
  have hget := indexed_item_eq_none.mp hunknown
  have hreplay : ledgerForBranchTip s.forkChoice s.genesisAccounts 0 =
      .error .reorgRequired := by
    unfold ledgerForBranchTip
    simp only [hhashes.ancestorHashes_unknown hget, List.getLast?_nil, Option.getD_none, hget]
  unfold validateBlockStateForKnownParent
  rw [hextends, hprevious, hreplay]
  cases s.genesisAccounts.isEmpty with
  | true => exact .inl rfl
  | false => exact .inr rfl

end Hashes

/-! ## Delivering a block again -/

/-- Delivering the block returns `Ok(())` and changes nothing but the expired
orphans. -/
structure Ignored (env : Env) (s : Node P) (block : P.Block) : Prop where
  ok : (s.applyBlock env block).2 = .ok ()
  preserved : s.Preserved (s.applyBlock env block).1 (env.clock s.io)
  storage : (s.applyBlock env block).1.storage = s.storage

/-- What a known block has to pass again: it has a parent, the header rules
accept it above that parent at `now`, it has the difficulty the node's
configuration asks for, and the node has what it takes to replay the
parent. -/
structure StillValid (s : Node P) (now : UInt64) (block : P.Block) : Prop where
  height_ne : P.block.height block ≠ 0
  header : ∀ parent, P.forkChoice.get s.forkChoice (P.block.previousHash block) = some parent →
    P.consensus.validateNextBlockWithTipAt s.consensus block parent.block now = .ok ()
  difficulty : s.consensus.config.difficulty ≠ 0 →
    nextDifficultyAfterBranchTip s.consensus s.forkChoice (P.block.previousHash block) =
      .ok (P.block.difficulty block)
  state : s.genesisAccounts.isEmpty = false ∨
    P.ledger.tipHash s.ledger = some (P.block.previousHash block)

/-- A known block that passes both validations is a duplicate. -/
theorem ignored_of_valid (hfc : ForkChoiceLaws P)
    (hitem : (indexed s.forkChoice).item (P.block.hash block) = some block)
    (hheight : P.block.height block ≠ 0)
    (hvalid : s.validateBlockForKnownParent (env.clock (s.io + 1)) block = .ok ())
    (hstate : s.validateBlockStateForKnownParent block = .ok ()) : Ignored env s block := by
  have hsync := pruneOrphansNow_onlySync env s
  have hio := (pruneOrphansNow_requests env s).2.2.2
  have hinsert : P.forkChoice.insertBlock s.forkChoice block = .error .duplicateBlock := by
    cases h : P.forkChoice.insertBlock s.forkChoice block with
    | ok result =>
        obtain ⟨hhash, hfresh, -, -⟩ := hfc.insert_ok h
        rw [← hhash, indexed_item_eq_none.mpr hfresh] at hitem
        cases hitem
    | error e =>
        rcases hfc.insert_error (admissible_of_indexed hfc hitem) h with rfl | rfl
        · obtain ⟨parent, hparent, -⟩ := validateBlockForKnownParent_ok hheight hvalid
          rw [(hfc.insert_missing h).2] at hparent
          cases hparent
        · rfl
  have hconnect : (s.pruneOrphansNow env).applyKnownParentBlock env block =
      ((s.pruneOrphansNow env).tick, .error (.forkChoice .duplicateBlock)) := by
    unfold applyKnownParentBlock
    rw [hio, hsync.validateBlockForKnownParent, hvalid, hsync.validateBlockStateForKnownParent,
      hstate, hsync.forkChoice, hinsert]
  have happly : s.applyBlock env block = ((s.pruneOrphansNow env).tick, .ok ()) := by
    unfold applyBlock
    rw [hconnect]
  refine ⟨by rw [happly], ?_, by rw [happly]; exact hsync.storage⟩
  rw [happly]
  refine ⟨hsync.ledger, hsync.forkChoice, hsync.mempool, hsync.cache, ?_⟩
  intro hash
  exact getElem?_pruneExpiredOrphans s.tick (env.clock s.io) hash

/-- An error other than a duplicate or a missing parent is returned. -/
theorem not_ignored_of_error {e : NodeError}
    (h : s.validateBlockForKnownParent (env.clock (s.io + 1)) block = .error e ∨
      s.validateBlockForKnownParent (env.clock (s.io + 1)) block = .ok () ∧
        s.validateBlockStateForKnownParent block = .error e)
    (hfork : ∀ error, e ≠ .forkChoice error) (hledger : ∀ error, e ≠ .ledger error) :
    ¬Ignored env s block := by
  have hsync := pruneOrphansNow_onlySync env s
  have hio := (pruneOrphansNow_requests env s).2.2.2
  have hconnect : ((s.pruneOrphansNow env).applyKnownParentBlock env block).2 = .error e := by
    unfold applyKnownParentBlock
    rw [hio, hsync.validateBlockForKnownParent, hsync.validateBlockStateForKnownParent]
    rcases h with h | ⟨h, h'⟩
    · rw [h]
    · rw [h, h']
  have herror := applyBlock_eq_error.mpr ⟨hconnect, hfork _, hfork _, hledger _⟩
  intro hignored
  rw [hignored.ok] at herror
  cases herror

section Redelivery

variable (hfc : ForkChoiceLaws P) (hchain : ChainLaws P) (hrec : RecordLaws P)
  (hhashes : HashLaws P)

include hfc hchain hhashes

/-- The genesis block delivered again is an error. -/
theorem AllEndorsed.genesis_not_ignored (h : AllEndorsed s) (hs : Synced s r)
    (hheight : P.block.height P.genesisBlock = 0) : ¬Ignored env s P.genesisBlock := by
  cases hvalid : s.validateBlockForKnownParent (env.clock (s.io + 1)) P.genesisBlock with
  | error e =>
      obtain ⟨error, rfl⟩ : ∃ error, e = .consensus error := by
        unfold validateBlockForKnownParent at hvalid
        rw [if_pos hheight] at hvalid
        split at hvalid
        · cases hvalid
          exact ⟨_, rfl⟩
        · cases hvalid
      exact not_ignored_of_error (.inl hvalid) nofun nofun
  | ok u =>
      rcases h.genesis_rejected hfc hchain hhashes hs with hstate | hstate
      · exact not_ignored_of_error (.inr ⟨hvalid, hstate⟩) nofun nofun
      · exact not_ignored_of_error (.inr ⟨hvalid, hstate⟩) nofun nofun

/-- **A known block is ignored exactly if it is still valid.** -/
theorem AllEndorsed.ignored_iff (h : AllEndorsed s) (hs : Synced s r)
    (hitem : (indexed s.forkChoice).item hash = some block) :
    Ignored env s block ↔ StillValid s (env.clock (s.io + 1)) block := by
  by_cases hheight : P.block.height block = 0
  · refine ⟨fun hignored => ?_, fun hvalid => absurd hheight hvalid.height_ne⟩
    rcases h.index hitem with ⟨-, rfl⟩ | ⟨hne, -⟩
    · exact absurd hignored (h.genesis_not_ignored hfc hchain hhashes hs hheight)
    · exact absurd hheight hne
  have hhash := hash_of_indexed hfc hitem
  obtain ⟨bs, hbranch⟩ := hs.rooted.branch_parent hitem (parentHash_eq_some.mpr ⟨hheight, rfl⟩)
  obtain ⟨b, hb⟩ := hbranch.tip_known
  obtain ⟨parent, hparent, -⟩ := indexed_item_eq_some.mp hb
  have hparentHash := (hfc.get_entry hparent).1
  obtain ⟨⟨before, after, happlies⟩, hcheckpoint⟩ :=
    h.state_valid hfc hchain hhashes hs hitem hheight
  -- the state check fails only for want of a genesis state
  have hstate := happlies.validateBlockStateForKnownParent hs
  have hvalid : s.validateBlockForKnownParent (env.clock (s.io + 1)) block = .ok () ↔ _ :=
    validateBlockForKnownParent_eq_ok hheight hparent
  rw [hparentHash] at hvalid
  constructor
  · intro hignored
    cases hresult : s.validateBlockForKnownParent (env.clock (s.io + 1)) block with
    | error e =>
        rcases validateBlockForKnownParent_error hfc hparent hresult with
          ⟨error, rfl⟩ | rfl | rfl
        all_goals exact absurd hignored (not_ignored_of_error (.inl hresult) nofun nofun)
    | ok u =>
        obtain ⟨hheader, -, hdifficulty⟩ := hvalid.mp hresult
        refine ⟨hheight, ?_, hdifficulty, ?_⟩
        · intro parent' hparent'
          rw [hparent, Option.some.injEq] at hparent'
          exact hparent' ▸ hheader
        · refine Decidable.not_not.mp fun hno => ?_
          rw [if_neg hno] at hstate
          exact not_ignored_of_error (.inr ⟨hresult, hstate⟩) nofun nofun hignored
  · rintro ⟨-, hheader, hdifficulty, hreplay⟩
    rw [if_pos hreplay] at hstate
    exact ignored_of_valid hfc (hhash.symm ▸ hitem) hheight
      (hvalid.mpr ⟨hheader parent hparent, hcheckpoint, hdifficulty⟩) hstate

include hrec

/-- **Re-delivery is idempotent exactly for the blocks that are still valid.**
In any state a node reaches over a database written by nodes, delivering a
block of the index again returns `Ok(())` and changes nothing if the header
rules and the difficulty still accept it and its parent can be replayed.
Otherwise it fails, and it always fails for the genesis block. -/
theorem redelivery_ignored_iff {db db' : Storage P} (hdb : Written (fun _ => True) db)
    {env : Env} {io : Nat} {consensus : Consensus} {s₀ : Node P}
    (hopen : initOrLoad env io db consensus = (db', .ok s₀)) (operations : List (Operation P))
    {hash : BlockHash} {entry : ForkNode P.Block}
    (hget : P.forkChoice.get (s₀.runAll env operations).forkChoice hash = some entry) :
    Ignored env (s₀.runAll env operations) entry.block ↔
      StillValid (s₀.runAll env operations) (env.clock ((s₀.runAll env operations).io + 1))
        entry.block := by
  obtain ⟨r, hs, hendorsed⟩ := allEndorsed_of_written hfc hchain hrec hdb hopen operations
  exact hendorsed.ignored_iff hfc hchain hhashes hs (indexed_item_eq_some.mpr ⟨entry, hget, rfl⟩)

end Redelivery

/-- The genesis block is refused by the node that has just been opened with
it. -/
theorem genesis_redelivered :
    Reference.opened Reference.calm = some Reference.genesisNode ∧
      Reference.paqus.forkChoice.contains Reference.genesisNode.forkChoice
        (Reference.paqus.block.hash Reference.genesis) = true ∧
      (Reference.genesisNode.applyBlock Reference.calm Reference.genesis).2 =
        .error .reorgRequired :=
  ⟨Reference.opened_calm, by decide +kernel, by decide +kernel⟩

end Node

namespace Reference

/-- The crate with header rules that accept the blocks of a list only. -/
abbrev listing (valid : List Block) : Paqus := { paqus with
  consensus := { paqus.consensus with
    validateNextBlockWithTipAt := fun consensus block tip now =>
      if block ∈ valid then paqus.consensus.validateNextBlockWithTipAt consensus block tip now
      else .error (.other 1) } }

theorem mem_of_headerValid {valid : List Block} {block : Block}
    (h : HeaderValid (P := listing valid) block) : block ∈ valid := by
  obtain ⟨consensus, tip, now, hok⟩ := h
  simp only at hok
  split at hok
  · next hmem => exact hmem
  · cases hok

/-- An unknown hash has no ancestors in the witness. -/
theorem ancestors_unknown {blocks : List Block} {hash : BlockHash} (h : find hash blocks = none) :
    ancestors blocks hash = [] := by
  induction blocks with
  | nil => rfl
  | cons block rest ih =>
      unfold find at h
      unfold ancestors
      split at h
      · cases h
      · next hne => rw [if_neg hne, ih h]

/-- **Listed blocks with different hashes satisfy the hash laws.** -/
theorem hashLaws : HashLaws (listing sideBranchWins) where
  hash_inj {block block'} h h' hhash := by
    have hinj : ∀ b ∈ sideBranchWins, ∀ b' ∈ sideBranchWins, b.hash = b'.hash → b = b' := by
      decide +kernel
    exact hinj block (mem_of_headerValid h) block' (mem_of_headerValid h') hhash
  hash_ne_zero {block} h := by
    have hne : ∀ b ∈ sideBranchWins, b.hash ≠ 0 := by decide +kernel
    exact hne block (mem_of_headerValid h)
  genesis_ne_zero := by decide +kernel
  ancestorHashes_unknown h := ancestors_unknown (Option.map_eq_none_iff.mp h)

theorem listing_forkChoiceLaws (valid : List Block) : ForkChoiceLaws (listing valid) :=
  { forkChoiceLaws with }

theorem listing_chainLaws (valid : List Block) : ChainLaws (listing valid) :=
  { chainLaws with }

theorem listing_recordLaws (valid : List Block) : RecordLaws (listing valid) :=
  { recordLaws with }

def listedNode : Node (listing sideBranchWins) :=
  (Node.initOrLoad calm 0 Storage.empty consensus).2.toOption.get (by decide +kernel)

theorem initOrLoad_listedNode :
    Node.initOrLoad calm 0 Storage.empty consensus =
      ((Node.initOrLoad (P := listing sideBranchWins) calm 0 Storage.empty consensus).1,
        .ok listedNode) :=
  eq_mk_ok_of_toOption (Option.some_get _).symm

end Reference

/-- The block that lost the active chain is delivered once more. -/
theorem Node.redelivery_ignored_of_side_block :
    Node.Ignored Reference.calm (Reference.listedNode.runAll Reference.calm
      (Reference.sideBranchWins.map .applyBlock)) (Reference.block 2 1 1 []) :=
  have hget : (Reference.listing Reference.sideBranchWins).forkChoice.get
      (Reference.listedNode.runAll Reference.calm
        (Reference.sideBranchWins.map .applyBlock)).forkChoice 2 =
      some ⟨2, 1, Reference.block 2 1 1 []⟩ := by
    decide +kernel
  have hiff := Node.redelivery_ignored_iff (Reference.listing_forkChoiceLaws _)
    (Reference.listing_chainLaws _) (Reference.listing_recordLaws _) Reference.hashLaws .empty
    Reference.initOrLoad_listedNode (Reference.sideBranchWins.map .applyBlock) hget
  have hparent : (Reference.listing Reference.sideBranchWins).forkChoice.get
      (Reference.listedNode.runAll Reference.calm
        (Reference.sideBranchWins.map .applyBlock)).forkChoice
      ((Reference.listing Reference.sideBranchWins).block.previousHash
        (Reference.block 2 1 1 [])) = some ⟨1, 0, Reference.genesis⟩ := by
    decide +kernel
  have hdifficulty : nextDifficultyAfterBranchTip (P := Reference.listing Reference.sideBranchWins)
      (Reference.listedNode.runAll Reference.calm
        (Reference.sideBranchWins.map .applyBlock)).consensus
      (Reference.listedNode.runAll Reference.calm
        (Reference.sideBranchWins.map .applyBlock)).forkChoice 1 = .ok 1 :=
    Except.eq_ok_of_toOption (by decide +kernel)
  hiff.mpr {
    height_ne := by decide
    header := fun parent h => by
      rw [hparent, Option.some.injEq] at h
      rw [← h]
      decide +kernel
    difficulty := fun _ => hdifficulty
    state := .inl (by decide +kernel) }

end PaqusNode
