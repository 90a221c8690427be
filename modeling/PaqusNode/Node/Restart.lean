import PaqusNode.Node.Reopen
import PaqusNode.Node.Run

/-!
# PaqusNode.Node.Restart

The database along a run.  Whatever writes fail, the database of a running
node always holds the replay of a branch, so it can be reopened; and as long
as no write fails before the process stops, reopening gives back exactly
what the last write saw: the ledger, the genesis accounts and every indexed
block.
-/

namespace PaqusNode

variable {P : Paqus}

variable {env : Env} {db : Storage P} {s s' : Node P} {ledger : P.Ledger} {r : BlockHash}
  {g block : P.Block} {genesisAccounts : BTreeMap Address P.Account} {branch : List P.Block}
  {blocks : BlockHash → Option P.Block}

/-- The process stops at some point: a commit that fails is followed by
failures only.  A process that never stops is the case of no failure. -/
structure Env.Crash (env : Env) : Prop where
  stays : ∀ {i j}, i ≤ j → env.commitFault i ≠ none → env.commitFault j ≠ none
  flush : ∀ i, env.flushFault i = none

/-! ## One write -/

section Writes

variable (hchain : ChainLaws P) (hrec : RecordLaws P)

include hchain hrec in
/-- Writing a replayed ledger with the same genesis block over a stored one. -/
theorem Stored.write {db' : Storage P} {ledger' : P.Ledger} {g' : P.Block} {branch' : List P.Block}
    {blocks' : BlockHash → Option P.Block} (h : Stored db ledger genesisAccounts g branch blocks)
    (hreplay : replay genesisAccounts g' branch' = .ok ledger') (hroot : g' = g)
    (hadmissible : ∀ b ∈ g' :: branch', Admissible b)
    (hnew : ∀ b ∈ g' :: branch', blocks' (P.block.hash b) = some b)
    (hold : ∀ hash, (∀ b ∈ g' :: branch', P.block.hash b ≠ hash) → blocks' hash = blocks hash)
    (hwrite : db.writeLedger ledger' = .ok db') :
    Stored db' ledger' genesisAccounts g' branch' blocks' := by
  obtain ⟨hof, htips⟩ := chainOf_of_foldlM hchain (replay_chain hchain hreplay)
  have hlast : (g' :: branch').getLast? = some ((g' :: branch').getLast (by simp)) :=
    List.getLast?_eq_some_getLast (by simp)
  -- a block stored afterwards is one of the chain or was stored before
  have hsplit : ∀ {hash b}, blocks' hash = some b →
      b ∈ g' :: branch' ∧ P.block.hash b = hash ∨ blocks hash = some b := by
    intro hash b hb
    by_cases hin : ∃ c ∈ g' :: branch', P.block.hash c = hash
    · obtain ⟨c, hc, rfl⟩ := hin
      rw [hnew c hc] at hb
      cases hb
      exact .inl ⟨hc, rfl⟩
    · rw [hold hash fun c hc hh => hin ⟨c, hc, hh⟩] at hb
      exact .inr hb
  refine ⟨?_, h.keyed, hroot ▸ h.founded, hreplay, hnew, ?_, ?_, ?_⟩
  · refine Storage.writeLedger_holds h.holds.version (.inl h.holds.genesis) ?_ h.holds.byHash hnew
      hold (replay_keyed hrec h.keyed hreplay) hof (htips ledger'.accounts _ hlast) hwrite
    -- a tip of height 0 is the genesis block, and nothing has been applied
    intro hz
    rw [List.getLast?_eq_getElem?] at hlast
    have hheight := hof.height hlast
    rw [hz, List.length_cons, Nat.add_sub_cancel] at hheight
    obtain rfl : branch' = [] := List.length_eq_zero_iff.mp hheight.symm
    exact (replay_nil hreplay).1
  · intro hash b hb
    rcases hsplit hb with ⟨-, hh⟩ | hb
    · exact hh
    · exact h.hashed hb
  · intro hash b hb hz
    rcases hsplit hb with ⟨hmem, hh⟩ | hb
    · cases hof.eq_first hmem hz
      exact hh.symm
    · rw [hroot]
      exact h.roots hb hz
  · intro hash b hb
    rcases hsplit hb with ⟨hmem, -⟩ | hb
    · exact hadmissible b hmem
    · exact h.admissible hb

/-- Writing a side block over a stored ledger whose chain does not have its
hash. -/
theorem Stored.writeSideBlock (h : Stored db ledger genesisAccounts g branch blocks)
    (hadmissible : Admissible block) (hheight : P.block.height block ≠ 0)
    (hfresh : ∀ b ∈ g :: branch, P.block.hash block ≠ P.block.hash b) :
    Stored (db.withBlock block) ledger genesisAccounts g branch
      ((forest blocks).insert (P.block.hash block) block).item := by
  have hself : ((forest blocks).insert (P.block.hash block) block).item
      (P.block.hash block) = some block := Forest.insert_item_self _ _
  have hother : ∀ {hash}, P.block.hash block ≠ hash →
      ((forest blocks).insert (P.block.hash block) block).item hash = blocks hash :=
    fun hne => Forest.insert_item_of_ne hne
  have hholds := h.holds
  refine ⟨⟨hholds.version, hholds.accounts, hholds.byHeight, ?_, hholds.genesis, hholds.tip⟩,
    h.keyed, h.founded, h.replayed, ?_, ?_, ?_, ?_⟩
  · intro hash
    rw [Storage.withBlock, BTreeMap.getElem?_insert_eq]
    split
    · next heq =>
        subst heq
        rw [hself]
        rfl
    · next hne => rw [hother hne, hholds.byHash]
  · intro b hb
    rw [hother (hfresh b hb)]
    exact h.chained b hb
  · intro hash b hb
    by_cases heq : P.block.hash block = hash
    · subst heq
      rw [hself] at hb
      cases hb
      rfl
    · rw [hother heq] at hb
      exact h.hashed hb
  · intro hash b hb hz
    by_cases heq : P.block.hash block = hash
    · subst heq
      rw [hself] at hb
      cases hb
      exact absurd hz hheight
    · rw [hother heq] at hb
      exact h.roots hb hz
  · intro hash b hb
    by_cases heq : P.block.hash block = hash
    · subst heq
      rw [hself] at hb
      cases hb
      exact hadmissible
    · rw [hother heq] at hb
      exact h.admissible hb

end Writes

namespace Node

/-- What a failed or successful write leaves in the database. -/
theorem saveLedger_storage (env : Env) (s : Node P) :
    (s.saveLedger env).1.storage = (s.storage.saveLedger env s.io s.ledger).1 := by
  unfold saveLedger
  split <;> simp_all

theorem saveSideBlock_storage (env : Env) (s : Node P) (block : P.Block) :
    (s.saveSideBlock env block).1.storage = (s.storage.saveSideBlock env s.io block).1 := by
  unfold saveSideBlock
  split <;> simp_all

/-- The replayed blocks behind the ledger are indexed. -/
theorem Synced.chain (hfc : ForkChoiceLaws P) (h : Synced s r) :
    ∃ g branch, P.block.hash g = r ∧ replay s.genesisAccounts g branch = .ok s.ledger ∧
      ∀ b ∈ g :: branch, (indexed s.forkChoice).item (P.block.hash b) = some b := by
  obtain ⟨t, branch, -, hbranch, hreplay⟩ := h.replayed
  obtain ⟨g, hg, -⟩ := hbranch.root_item
  exact ⟨g, branch, hash_of_indexed hfc hg, (ledgerForBranchTip_eq_ok hfc hbranch hg).mp hreplay,
    fun _ hb => indexed_of_mem_branch hfc hbranch hg hb⟩

/-! ## Whatever fails, the database stays usable -/

/-- The database holds `ledger`, the replay of an indexed branch. -/
def Backs (ledger : P.Ledger) (s : Node P) (r : BlockHash) : Prop :=
  ∃ g branch blocks, P.block.hash g = r ∧
    Stored s.storage ledger s.genesisAccounts g branch blocks ∧
    ∀ b ∈ g :: branch, (indexed s.forkChoice).item (P.block.hash b) = some b

/-- The database holds the replay of an indexed branch. -/
def Backed (s : Node P) (r : BlockHash) : Prop := ∃ ledger, Backs ledger s r

theorem Backs.congr (h : Backs ledger s r) (hstorage : s'.storage = s.storage)
    (hgenesis : s'.genesisAccounts = s.genesisAccounts)
    (hext : (indexed s.forkChoice).Extends (indexed s'.forkChoice)) : Backs ledger s' r := by
  obtain ⟨g, branch, blocks, hg, hstored, hin⟩ := h
  refine ⟨g, branch, blocks, hg, ?_, fun b hb => hext.item (hin b hb)⟩
  rw [hstorage, hgenesis]
  exact hstored

theorem Backed.congr (h : Backed s r) (hstorage : s'.storage = s.storage)
    (hgenesis : s'.genesisAccounts = s.genesisAccounts)
    (hext : (indexed s.forkChoice).Extends (indexed s'.forkChoice)) : Backed s' r := by
  obtain ⟨ledger, h⟩ := h
  exact ⟨ledger, Backs.congr h hstorage hgenesis hext⟩

section Laws

variable (hfc : ForkChoiceLaws P) (hchain : ChainLaws P) (hrec : RecordLaws P)

include hfc hchain hrec

/-- A write that goes through leaves the ledger in memory in the database. -/
theorem saveLedger_backs (hs : Synced s r) (h : Backed s r)
    (hwrite : s.storage.writeLedger s.ledger = .ok (s.storage.saveLedger env s.io s.ledger).1) :
    Backs s.ledger (s.saveLedger env).1 r := by
  obtain ⟨storage, durable, hsave⟩ := saveLedger_fst env s
  obtain ⟨ledger, g, branch, blocks, hg, hstored, hin₀⟩ := h
  obtain ⟨g', branch', hg', hreplay, hin⟩ := hs.chain hfc
  have hroot : g' = g := by
    have hitem := hin g' List.mem_cons_self
    rw [hg', ← hg, hin₀ g List.mem_cons_self] at hitem
    exact (Option.some.inj hitem).symm
  -- the written chain on top of what was there
  classical
  have hnew : ∀ b ∈ g' :: branch',
      (if ∃ c ∈ g' :: branch', P.block.hash c = P.block.hash b then
        (indexed s.forkChoice).item (P.block.hash b) else blocks (P.block.hash b)) = some b := by
    intro b hb
    rw [if_pos ⟨b, hb, rfl⟩]
    exact hin b hb
  have hold : ∀ hash, (∀ b ∈ g' :: branch', P.block.hash b ≠ hash) →
      (if ∃ c ∈ g' :: branch', P.block.hash c = hash then (indexed s.forkChoice).item hash
        else blocks hash) = blocks hash := by
    intro hash hne
    rw [if_neg]
    rintro ⟨c, hc, hh⟩
    exact hne c hc hh
  have hstored' := hstored.write hchain hrec hreplay hroot
    (fun b hb => admissible_of_indexed hfc (hin b hb)) hnew hold hwrite
  rw [← saveLedger_storage env s] at hstored'
  have hgenesis : (s.saveLedger env).1.genesisAccounts = s.genesisAccounts := by rw [hsave]; rfl
  have hfork : (s.saveLedger env).1.forkChoice = s.forkChoice := by rw [hsave]; rfl
  rw [← hgenesis] at hstored'
  rw [← hfork] at hin
  exact ⟨g', branch', _, hg', hstored', hin⟩

theorem saveLedger_backed (hs : Synced s r) (h : Backed s r) : Backed (s.saveLedger env).1 r := by
  rcases Storage.saveLedger_cases env s.io s.storage s.ledger with ⟨hsame, -⟩ | hwrite
  · obtain ⟨storage, durable, hsave⟩ := saveLedger_fst env s
    refine h.congr ((saveLedger_storage env s).trans hsame) (by rw [hsave]; rfl) ?_
    rw [hsave]
    exact .refl _
  · exact ⟨s.ledger, saveLedger_backs hfc hchain hrec hs h hwrite⟩

omit hchain hrec in
/-- A side block `block`, indexed since `s`, is written from `s₁`. -/
theorem saveSideBlock_backs {s₁ : Node P} {hash : BlockHash} (h : Backs ledger s r)
    (hstorage : s₁.storage = s.storage) (hgenesis : s₁.genesisAccounts = s.genesisAccounts)
    (hinsert : P.forkChoice.insertBlock s.forkChoice block = .ok (hash, s₁.forkChoice))
    (hheight : P.block.height block ≠ 0) : Backs ledger (s₁.saveSideBlock env block).1 r := by
  obtain ⟨storage, durable, hsave⟩ := saveSideBlock_fst env s₁ block
  have hdb := saveSideBlock_storage env s₁ block
  have hext := indexed_extends hfc hinsert
  obtain ⟨hhash, hfresh, -, -⟩ := hfc.insert_ok hinsert
  have hext' : (indexed s.forkChoice).Extends
      (indexed (s₁.saveSideBlock env block).1.forkChoice) := by
    rw [hsave]
    exact hext
  have hgenesis' : (s₁.saveSideBlock env block).1.genesisAccounts = s.genesisAccounts := by
    rw [hsave]
    exact hgenesis
  rcases Storage.saveSideBlock_cases env s₁.io s₁.storage block with ⟨hsame, -⟩ | hwrite
  · exact h.congr (hdb.trans (hsame.trans hstorage)) hgenesis' hext'
  · obtain ⟨g, branch, blocks, hg, hstored, hin⟩ := h
    have hnew := hstored.writeSideBlock (hfc.insert_admissible hinsert) hheight (by
      intro b hb heq
      have hitem := hin b hb
      rw [← heq, ← hhash, indexed_item_eq_none.mpr hfresh] at hitem
      cases hitem)
    have hdb' : (s₁.saveSideBlock env block).1.storage = s.storage.withBlock block := by
      rw [hdb, hwrite, hstorage]
    rw [← hdb', ← hgenesis'] at hnew
    exact ⟨g, branch, _, hg, hnew, fun b hb => hext'.item (hin b hb)⟩

/-- **One step keeps the database usable.** -/
theorem Step.backed (hs : Synced s r) (h : Backed s r) (hstep : Step env s s') : Backed s' r := by
  cases hstep with
  | save => exact saveLedger_backed hfc hchain hrec hs h
  | sync hsync =>
      refine h.congr hsync.storage hsync.genesisAccounts ?_
      rw [hsync.forkChoice]
      exact .refl _
  | pool _ => exact h.congr rfl rfl (.refl _)
  | connect block =>
      rcases applyKnownParentBlock_connected hfc hchain env hs block with
        ⟨e, hrej⟩ | ⟨fc, parent, child, -, hinsert, hacc, hconn⟩
      · rw [hrej]
        exact h.congr rfl rfl (.refl _)
      generalize s.applyKnownParentBlock env block = result at hconn
      cases hconn with
      | side hbest =>
          obtain ⟨ledger, h⟩ := h
          exact ⟨ledger, saveSideBlock_backs hfc h rfl rfl hinsert hacc.height_ne⟩
      | active hbest mempool mempool' cache k hwrite =>
          have hs₁ : Synced { s.tick with
              forkChoice := fc, ledger := child, mempool := mempool, cache := cache } r :=
            hs.active hfc hchain hacc hinsert rfl rfl
          have h₁ : Backed { s.tick with
              forkChoice := fc, ledger := child, mempool := mempool, cache := cache } r :=
            h.congr rfl rfl (indexed_extends hfc hinsert)
          subst hwrite
          exact (saveLedger_backed hfc hchain hrec hs₁ h₁).congr rfl rfl (.refl _)

end Laws

/-! ## Without failures, the database is up to date -/

/-- The database holds what the last write saw in memory, and that is still
what is in memory unless the process has stopped. -/
structure Kept (env : Env) (s : Node P) (r : BlockHash) : Prop where
  stored : ∃ g branch, P.block.hash g = r ∧ (indexed s.forkChoice).item r = some g ∧
    Stored s.storage s.durable.ledger s.genesisAccounts g branch
      (indexed s.durable.forkChoice).item
  rooted : (indexed s.durable.forkChoice).Rooted r
  live : env.commitFault s.io = none → s.durable = ⟨s.ledger, s.forkChoice⟩

/-- What is kept is about the files, the ledger and the index. -/
theorem Kept.congr (henv : env.Crash) (h : Kept env s r) (hstorage : s'.storage = s.storage)
    (hdurable : s'.durable = s.durable) (hgenesis : s'.genesisAccounts = s.genesisAccounts)
    (hledger : s'.ledger = s.ledger) (hfork : s'.forkChoice = s.forkChoice) (hio : s.io ≤ s'.io) :
    Kept env s' r where
  stored := by
    rw [hstorage, hdurable, hgenesis, hfork]
    exact h.stored
  rooted := by
    rw [hdurable]
    exact h.rooted
  live hlive := by
    rw [hdurable, hledger, hfork]
    exact h.live (Decidable.not_not.mp fun hfault => henv.stays hio hfault hlive)

theorem saveLedger_of_fault (h : env.commitFault s.io ≠ none) : (s.saveLedger env).1 = s.tick := by
  obtain ⟨code, hcode⟩ := Option.ne_none_iff_exists'.mp h
  unfold saveLedger Storage.saveLedger Storage.commit
  rw [hcode]
  cases s.storage.writeLedger s.ledger <;> rfl

theorem saveLedger_of_commit {after : Storage P} (hcommit : env.commitFault s.io = none)
    (hflush : env.flushFault s.io = none) (hwrite : s.storage.writeLedger s.ledger = .ok after) :
    s.saveLedger env =
      ({ s.tick with storage := after, durable := ⟨s.ledger, s.forkChoice⟩ }, .ok ()) := by
  unfold saveLedger Storage.saveLedger Storage.commit Storage.flush
  simp only [hwrite, hcommit, hflush]

theorem saveSideBlock_of_fault (h : env.commitFault s.io ≠ none) :
    (s.saveSideBlock env block).1 = s.tick := by
  obtain ⟨code, hcode⟩ := Option.ne_none_iff_exists'.mp h
  unfold saveSideBlock Storage.saveSideBlock Storage.commit
  rw [hcode]
  rfl

/-- A side block written without a fault. -/
theorem saveSideBlock_of_commit (hcommit : env.commitFault s.io = none) :
    s.saveSideBlock env block =
      ({ s.tick with
        storage := s.storage.withBlock block
        durable := { s.durable with forkChoice := s.forkChoice } }, .ok ()) := by
  unfold saveSideBlock Storage.saveSideBlock Storage.commit
  rw [hcommit]
  rfl

section Laws

variable (hfc : ForkChoiceLaws P) (hchain : ChainLaws P) (hrec : RecordLaws P)

include hfc hchain hrec

/-- The ledger of a synced node can always be written. -/
theorem Synced.writeLedger_isOk (hs : Synced s r) (db : Storage P) :
    ∃ after, db.writeLedger s.ledger = .ok after := by
  obtain ⟨g, branch, -, hreplay, -⟩ := hs.chain hfc
  have hfold := replay_chain hchain hreplay
  obtain ⟨hof, -⟩ := chainOf_of_foldlM hchain hfold
  refine Storage.writeLedger_isOk db hof fun b hb => ?_
  obtain ⟨m, m', hm⟩ := foldlM_mem hfold hb
  exact hrec.insert_size hm

/-- Writing a ledger whose tip is the only block indexed since the last
write. -/
theorem saveLedger_kept (henv : env.Crash) (hs : Synced s r) (hg : P.block.hash g = r)
    (hitem : (indexed s.forkChoice).item r = some g)
    (hstored : Stored s.storage s.durable.ledger s.genesisAccounts g branch
      (indexed s.durable.forkChoice).item) (hrooted : (indexed s.durable.forkChoice).Rooted r)
    (hlive : env.commitFault s.io = none → ∀ hash, P.ledger.tipHash s.ledger ≠ some hash →
      (indexed s.forkChoice).item hash = (indexed s.durable.forkChoice).item hash) :
    Kept env (s.saveLedger env).1 r := by
  by_cases hcommit : env.commitFault s.io = none
  · obtain ⟨g', branch', hg', hreplay, hin⟩ := hs.chain hfc
    obtain ⟨hof, htips⟩ := chainOf_of_foldlM hchain (replay_chain hchain hreplay)
    obtain ⟨after, hwrite⟩ := hs.writeLedger_isOk hfc hchain hrec s.storage
    have hroot : g' = g := by
      have hitem' := hin g' List.mem_cons_self
      rw [hg', hitem] at hitem'
      exact (Option.some.inj hitem').symm
    rw [saveLedger_of_commit hcommit (henv.flush _) hwrite]
    refine ⟨⟨g', branch', hg', hroot ▸ hitem, ?_⟩, hs.rooted, fun _ => rfl⟩
    refine hstored.write hchain hrec hreplay hroot
      (fun b hb => admissible_of_indexed hfc (hin b hb)) hin ?_ hwrite
    intro hash hne
    refine hlive hcommit hash ?_
    rw [(htips s.ledger.accounts _ (List.getLast?_eq_some_getLast (by simp))).hash]
    intro heq
    exact hne _ (List.getLast_mem _) (Option.some.inj heq)
  · rw [saveLedger_of_fault hcommit]
    exact ⟨⟨g, branch, hg, hitem, hstored⟩, hrooted,
      fun h => absurd h (henv.stays (Nat.le_succ _) hcommit)⟩

omit hchain hrec in
/-- A side block `block`, indexed since `s`, is written from `s₁`. -/
theorem saveSideBlock_kept (henv : env.Crash) {s₁ : Node P} {hash : BlockHash} (hs : Synced s r)
    (h : Kept env s r) (hstorage : s₁.storage = s.storage) (hdurable : s₁.durable = s.durable)
    (hgenesis : s₁.genesisAccounts = s.genesisAccounts) (hledger : s₁.ledger = s.ledger)
    (hio : s.io ≤ s₁.io)
    (hinsert : P.forkChoice.insertBlock s.forkChoice block = .ok (hash, s₁.forkChoice))
    (hheight : P.block.height block ≠ 0) : Kept env (s₁.saveSideBlock env block).1 r := by
  obtain ⟨g, branch, hg, hroot, hstored⟩ := h.stored
  have hroot₁ := (indexed_extends hfc hinsert).item hroot
  by_cases hcommit : env.commitFault s₁.io = none
  · have hcur := h.live (Decidable.not_not.mp fun hfault => henv.stays hio hfault hcommit)
    obtain ⟨hhash, hfresh, -, -⟩ := hfc.insert_ok hinsert
    have hitem : ((forest (indexed s.forkChoice).item).insert (P.block.hash block)
        block).item = (indexed s₁.forkChoice).item := by
      rw [indexed_insert hfc hinsert, hhash]
      rfl
    have hnew := hstored.writeSideBlock (hfc.insert_admissible hinsert) hheight (by
      intro b hb heq
      have hin := hstored.chained b hb
      rw [hcur, ← heq, ← hhash, indexed_item_eq_none.mpr hfresh] at hin
      cases hin)
    rw [hcur, hitem] at hnew
    rw [saveSideBlock_of_commit hcommit]
    refine ⟨⟨g, branch, hg, hroot₁, ?_⟩, ?_, ?_⟩
    · simp only [tick, hstorage, hdurable, hgenesis, hcur]
      exact hnew
    · exact (insert_rooted hfc hs hheight hinsert).1
    · intro _
      simp only [tick, hdurable, hledger, hcur]
  · rw [saveSideBlock_of_fault hcommit]
    refine ⟨⟨g, branch, hg, hroot₁, ?_⟩, ?_,
      fun hn => absurd hn (henv.stays (Nat.le_succ _) hcommit)⟩
    · simp only [tick, hstorage, hdurable, hgenesis]
      exact hstored
    · simp only [tick, hdurable]
      exact h.rooted

/-- **One step keeps the database up to date.** -/
theorem Step.kept (henv : env.Crash) (hs : Synced s r) (h : Kept env s r) (hstep : Step env s s') :
    Kept env s' r := by
  obtain ⟨g, branch, hg, hroot, hstored⟩ := h.stored
  cases hstep with
  | save =>
      refine saveLedger_kept hfc hchain hrec henv hs hg hroot hstored h.rooted ?_
      intro hcommit hash _
      rw [h.live hcommit]
  | sync hsync =>
      exact h.congr henv hsync.storage hsync.durable hsync.genesisAccounts hsync.ledger
        hsync.forkChoice hsync.io
  | pool _ => exact h.congr henv rfl rfl rfl rfl rfl (Nat.le_refl _)
  | connect block =>
      rcases applyKnownParentBlock_connected hfc hchain env hs block with
        ⟨e, hrej⟩ | ⟨fc, parent, child, -, hinsert, hacc, hconn⟩
      · rw [hrej]
        exact h.congr henv rfl rfl rfl rfl rfl (Nat.le_succ _)
      generalize s.applyKnownParentBlock env block = result at hconn
      cases hconn with
      | side hbest =>
          exact saveSideBlock_kept hfc henv hs h rfl rfl rfl rfl (Nat.le_succ _) hinsert
            hacc.height_ne
      | active hbest mempool mempool' cache k hwrite =>
          have hs₁ : Synced { s.tick with
              forkChoice := fc, ledger := child, mempool := mempool, cache := cache } r :=
            hs.active hfc hchain hacc hinsert rfl rfl
          have hsaved := saveLedger_kept hfc hchain hrec henv hs₁ hg
            ((indexed_extends hfc hinsert).item hroot) hstored h.rooted (by
            intro hcommit hash hne
            rw [(applyBlock_tip hchain hacc.apply).1] at hne
            have hne : P.block.hash block ≠ hash := fun heq => hne (congrArg some heq)
            simp only [tick] at hcommit ⊢
            rw [h.live (Decidable.not_not.mp fun hfault =>
                henv.stays (Nat.le_succ _) hfault hcommit),
              indexed_insert hfc hinsert, Forest.insert_item_of_ne hne])
          subst hwrite
          exact hsaved.congr henv rfl rfl rfl rfl rfl (Nat.le_add_right _ _)

/-- From a freshly opened node on, the database can always be reopened. -/
theorem Steps.backed (hs : Synced s r) (h : Backed s r) (hrun : Steps env s s') : Backed s' r :=
  (hrun.invariant (fun s => Synced s r ∧ Backed s r)
    (fun h hstep => ⟨(hstep.synced hfc hchain h.1).1, hstep.backed hfc hchain hrec h.1 h.2⟩)
    ⟨hs, h⟩).2

theorem Steps.kept (henv : env.Crash) (hs : Synced s r) (h : Kept env s r) (hrun : Steps env s s') :
    Kept env s' r :=
  (hrun.invariant (fun s => Synced s r ∧ Kept env s r)
    (fun h hstep => ⟨(hstep.synced hfc hchain h.1).1, hstep.kept hfc hchain hrec henv h.1 h.2⟩)
    ⟨hs, h⟩).2

end Laws

/-! ## Databases written by a node -/

/-- The databases a node can leave behind, from an empty one on: each time it
is opened, used and stopped, under environments of kind `E`. -/
inductive Written (E : Env → Prop) : Storage P → Prop
  | empty : Written E Storage.empty
  | opening {db : Storage P} {env : Env} (io : Nat) (consensus : Consensus) (h : Written E db)
      (henv : E env) : Written E (initOrLoad env io db consensus).1
  | running {db db' : Storage P} {env : Env} {io : Nat} {consensus : Consensus} {s : Node P}
      (h : Written E db) (henv : E env) (hopen : initOrLoad env io db consensus = (db', .ok s))
      (operations : List (Operation P)) : Written E (s.runAll env operations).storage

/-- A database is blank or stores a ledger whose blocks satisfy `I`. -/
def BlankOrStored (I : BlockHash → (BlockHash → Option P.Block) → Prop) (db : Storage P) : Prop :=
  Blank db ∨ ∃ ledger genesisAccounts g branch blocks,
    Stored db ledger genesisAccounts g branch blocks ∧ I (P.block.hash g) blocks

/-- A node just opened can be reopened. -/
theorem Opened.backed (h : s.Opened db ledger genesisAccounts g branch blocks)
    (hstored : Stored db ledger genesisAccounts g branch blocks) : Backed s (P.block.hash g) := by
  refine ⟨ledger, g, branch, blocks, rfl, ?_, h.chained⟩
  rw [h.storage, h.genesisAccounts]
  exact hstored

/-- The stored blocks of a tree are exactly the indexed ones. -/
theorem Opened.blocks_eq (h : s.Opened db ledger genesisAccounts g branch blocks)
    (htree : (forest blocks).Rooted (P.block.hash g)) :
    (indexed s.forkChoice).item = blocks := by
  funext hash
  cases hitem : (indexed s.forkChoice).item hash with
  | some b => exact (h.stored hitem).symm
  | none =>
      cases hblock : blocks hash with
      | none => rfl
      | some b =>
          rw [h.complete htree hblock] at hitem
          cases hitem

/-- A node just opened is up to date. -/
theorem Opened.kept (h : s.Opened db ledger genesisAccounts g branch blocks)
    (hstored : Stored db ledger genesisAccounts g branch blocks)
    (htree : (forest blocks).Rooted (P.block.hash g)) (env : Env) :
    Kept env s (P.block.hash g) := by
  refine ⟨⟨g, branch, rfl, h.chained g List.mem_cons_self, ?_⟩, ?_, fun _ => h.durable⟩
  · rw [h.durable, h.storage, h.ledger, h.genesisAccounts, h.blocks_eq htree]
    exact hstored
  · rw [h.durable]
    exact h.synced.rooted

/-- The genesis block alone is a tree. -/
theorem rooted_genesisOnly (h : Parentless P.genesisBlock) :
    (forest (genesisOnly (P := P))).Rooted (P.block.hash P.genesisBlock) := by
  have hroot : genesisOnly (P := P) (P.block.hash P.genesisBlock) = some P.genesisBlock :=
    genesisOnly_eq_some.mpr ⟨rfl, rfl⟩
  refine ⟨⟨_, hroot, h⟩, ?_⟩
  intro hash b hb
  obtain ⟨rfl, rfl⟩ := genesisOnly_eq_some.mp hb
  exact ⟨[], .root hb h⟩

section Laws

variable (hfc : ForkChoiceLaws P) (hchain : ChainLaws P) (hrec : RecordLaws P)

include hfc hchain hrec

/-- Opening such a database: it stays such a database, and a node that opens
has just read a stored ledger. -/
theorem BlankOrStored.initOrLoad {I : BlockHash → (BlockHash → Option P.Block) → Prop}
    (hgenesis : Parentless P.genesisBlock → I (P.block.hash P.genesisBlock) genesisOnly)
    (h : BlankOrStored I db) (env : Env) (io : Nat) (consensus : Consensus) :
    BlankOrStored I (initOrLoad env io db consensus).1 ∧
      ∀ db' s, initOrLoad env io db consensus = (db', .ok s) →
        ∃ ledger genesisAccounts g branch blocks,
          Stored db' ledger genesisAccounts g branch blocks ∧ I (P.block.hash g) blocks ∧
          s.Opened db' ledger genesisAccounts g branch blocks := by
  rcases h with hblank | ⟨ledger, genesisAccounts, g, branch, blocks, hstored, hI⟩
  · rcases initOrLoad_of_blank hfc hchain hrec hblank env io consensus with
      ⟨hstill, hfail⟩ | ⟨ledger, hstored, hopen⟩
    · refine ⟨.inl hstill, ?_⟩
      intro db' s heq
      exact absurd (by rw [heq]) (hfail s)
    · have hI := hgenesis (replay_parentless hchain hstored.replayed)
      refine ⟨.inr ⟨_, _, _, _, _, hstored, hI⟩, ?_⟩
      intro db' s heq
      rw [heq] at hstored hopen
      exact ⟨_, _, _, _, _, hstored, hI, (hopen s rfl).2.2⟩
  · obtain ⟨s, hopen, -, -, hopened⟩ :=
      initOrLoad_of_stored hfc hchain hrec hstored env io consensus
    rw [hopen]
    refine ⟨.inr ⟨_, _, _, _, _, hstored, hI⟩, ?_⟩
    intro db' s' heq
    cases heq
    exact ⟨_, _, _, _, _, hstored, hI, hopened⟩

/-- Whatever failed on the way, a written database is blank or stores a
ledger. -/
theorem Written.usable {E : Env → Prop} (h : Written E db) :
    BlankOrStored (fun _ _ => True) db := by
  induction h with
  | empty => exact .inl (.inl rfl)
  | opening io consensus _ _ ih =>
      exact (ih.initOrLoad hfc hchain hrec (fun _ => trivial) _ io consensus).1
  | running _ _ hopen operations ih =>
      obtain ⟨ledger, genesisAccounts, g, branch, blocks, hstored, -, hopened⟩ :=
        (ih.initOrLoad hfc hchain hrec (fun _ => trivial) _ _ _).2 _ _ hopen
      obtain ⟨ledger', g', branch', blocks', -, hstored', -⟩ := (runAll_steps _ operations _).backed
        hfc hchain hrec hopened.synced (hopened.backed hstored)
      exact .inr ⟨_, _, _, _, _, hstored', trivial⟩

/-- A node opened from a written database holds what is stored there. -/
theorem Written.opened {E : Env → Prop} {db' : Storage P} (h : Written E db) {io : Nat}
    {consensus : Consensus} (hopen : initOrLoad env io db consensus = (db', .ok s)) :
    ∃ ledger genesisAccounts g branch blocks,
      Stored db' ledger genesisAccounts g branch blocks ∧
        s.Opened db' ledger genesisAccounts g branch blocks := by
  obtain ⟨ledger, genesisAccounts, g, branch, blocks, hstored, -, hopened⟩ :=
    ((h.usable hfc hchain hrec).initOrLoad hfc hchain hrec (fun _ => trivial) _ _ _).2 _ _ hopen
  exact ⟨ledger, genesisAccounts, g, branch, blocks, hstored, hopened⟩

/-- A database written by processes that only ever stopped is blank or stores
a ledger and a tree of blocks. -/
theorem Written.tree (h : Written Env.Crash db) :
    BlankOrStored (fun r blocks => (forest blocks).Rooted r) db := by
  induction h with
  | empty => exact .inl (.inl rfl)
  | opening io consensus _ _ ih =>
      exact (ih.initOrLoad hfc hchain hrec rooted_genesisOnly _ io consensus).1
  | running _ henv hopen operations ih =>
      obtain ⟨ledger, genesisAccounts, g, branch, blocks, hstored, htree, hopened⟩ :=
        (ih.initOrLoad hfc hchain hrec rooted_genesisOnly _ _ _).2 _ _ hopen
      have hkept := (runAll_steps _ operations _).kept hfc hchain hrec henv hopened.synced
        (hopened.kept hstored htree _)
      obtain ⟨g', branch', hg', -, hstored'⟩ := hkept.stored
      exact .inr ⟨_, _, _, _, _, hstored', hg' ▸ hkept.rooted⟩

/-- **The ledger is the replay of the best branch.**  A node opened with its
ledger at the best tip stays there, whatever blocks arrive and whatever
writes fail, and its ledger is the fold of `apply_block` from the genesis
accounts over the best branch. -/
theorem ledger_eq_replay_of_bestTip {db db' : Storage P} (hdb : Written (fun _ => True) db)
    {env : Env} {io : Nat} {consensus : Consensus} {s₀ : Node P}
    (hopen : initOrLoad env io db consensus = (db', .ok s₀)) (hbest : AtBestTip s₀)
    (blocks : List P.Block) :
    ∃ tip, P.forkChoice.bestTip (s₀.applyBlocks env blocks).forkChoice = some tip ∧
      P.ledger.tipHash (s₀.applyBlocks env blocks).ledger = some tip.hash ∧
      ledgerForBranchTip (s₀.applyBlocks env blocks).forkChoice
        (s₀.applyBlocks env blocks).genesisAccounts tip.hash =
        .ok (s₀.applyBlocks env blocks).ledger := by
  obtain ⟨_, _, g, _, _, -, hopened⟩ := hdb.opened hfc hchain hrec hopen
  have hrun := applyBlocks_steps env blocks s₀
  have hat := hrun.atBestTip hfc hchain hopened.synced hbest
  obtain ⟨t, bs, htip, -, hreplay⟩ := (hrun.synced hfc hchain hopened.synced).replayed
  rw [AtBestTip, htip] at hat
  obtain ⟨tip, hbestTip, rfl⟩ := Option.map_eq_some_iff.mp hat.symm
  exact ⟨tip, hbestTip, htip, hreplay⟩

end Laws

/-- After a reorg to the longer side branch, ledger and index agree on the tip. -/
theorem ledger_eq_replay_of_sideBranchWins :
    ∃ tip, Reference.paqus.forkChoice.bestTip
        (Reference.genesisNode.applyBlocks Reference.calm Reference.sideBranchWins).forkChoice =
          some tip ∧
      Reference.paqus.ledger.tipHash
        (Reference.genesisNode.applyBlocks Reference.calm Reference.sideBranchWins).ledger =
          some tip.hash :=
  have hbest : AtBestTip Reference.genesisNode := by
    unfold AtBestTip
    decide +kernel
  have ⟨tip, hbestTip, htip, _⟩ := ledger_eq_replay_of_bestTip Reference.forkChoiceLaws
    Reference.chainLaws Reference.recordLaws .empty
    (Reference.opened_eq_some Reference.opened_calm) hbest Reference.sideBranchWins
  ⟨tip, hbestTip, htip⟩

section Laws

variable (hfc : ForkChoiceLaws P) (hchain : ChainLaws P) (hrec : RecordLaws P)

include hfc hchain hrec

omit hchain hrec in
/-- Entries are determined by the indexed block. -/
theorem get_eq_of_item_eq {fc fc' : P.ForkChoice} {hash : BlockHash}
    (h : (indexed fc).item hash = (indexed fc').item hash) :
    P.forkChoice.get fc hash = P.forkChoice.get fc' hash := by
  cases hget : P.forkChoice.get fc hash with
  | none =>
      rw [indexed_item_eq_none.mpr hget] at h
      exact (indexed_item_eq_none.mp h.symm).symm
  | some entry =>
      rw [indexed_item_eq_some.mpr ⟨entry, hget, rfl⟩] at h
      obtain ⟨entry', hget', hblock⟩ := indexed_item_eq_some.mp h.symm
      obtain ⟨hhash, -, hheight⟩ := hfc.get_entry hget
      obtain ⟨hhash', -, hheight'⟩ := hfc.get_entry hget'
      rw [hget', Option.some.injEq]
      cases entry
      cases entry'
      simp_all

/-- **Restart and crash equivalence.**  Stop a node at any point of any run:
its database opens again, without a write, to the ledger of the last
committed `save_ledger`, the genesis accounts it started from, and exactly
the blocks that were indexed at the last commit. -/
theorem reopen_after_crash {db db' : Storage P} (hdb : Written Env.Crash db)
    {env : Env} (henv : env.Crash) {io : Nat} {consensus : Consensus} {s₀ : Node P}
    (hopen : initOrLoad env io db consensus = (db', .ok s₀)) (operations : List (Operation P))
    (env' : Env) (io' : Nat) (consensus' : Consensus) :
    ∃ s, initOrLoad env' io' (s₀.runAll env operations).storage consensus' =
        ((s₀.runAll env operations).storage, .ok s) ∧
      s.ledger = (s₀.runAll env operations).durable.ledger ∧
      s.genesisAccounts = s₀.genesisAccounts ∧
      (∀ hash, P.forkChoice.get s.forkChoice hash =
        P.forkChoice.get (s₀.runAll env operations).durable.forkChoice hash) ∧
      (env.commitFault (s₀.runAll env operations).io = none →
        (s₀.runAll env operations).durable =
          ⟨(s₀.runAll env operations).ledger, (s₀.runAll env operations).forkChoice⟩) := by
  obtain ⟨ledger, genesisAccounts, g, branch, blocks, hstored, htree, hopened⟩ :=
    ((hdb.tree hfc hchain hrec).initOrLoad hfc hchain hrec rooted_genesisOnly _ _ _).2 _ _ hopen
  have hrun := runAll_steps env operations s₀
  have hkept := hrun.kept hfc hchain hrec henv hopened.synced (hopened.kept hstored htree env)
  obtain ⟨g', branch', hg', -, hstored'⟩ := hkept.stored
  obtain ⟨s, hreopen, -, -, hopened'⟩ :=
    initOrLoad_of_stored hfc hchain hrec hstored' env' io' consensus'
  refine ⟨s, hreopen, hopened'.ledger,
    hopened'.genesisAccounts.trans (hrun.grown hfc).genesisAccounts, ?_, hkept.live⟩
  intro hash
  refine get_eq_of_item_eq hfc ?_
  rw [hopened'.blocks_eq (hg'.symm ▸ hkept.rooted)]

end Laws

theorem stopAt_crash (n : Nat) : (Reference.stopAt n).Crash where
  stays {i j} hij hfault := by
    simp only [Reference.stopAt, ne_eq, ite_eq_left_iff, reduceCtorEq, imp_false, not_not] at *
    omega
  flush _ := rfl

/-- Stopped after the side block has been written and before the ledger of
the reorg is. -/
theorem reopen_after_stop :
    ∃ s₀ s, Reference.opened (Reference.stopAt 15) = some s₀ ∧
      initOrLoad Reference.calm 0
        (s₀.runAll (Reference.stopAt 15) (Reference.sideBranchWins.map .applyBlock)).storage
        Reference.consensus = ((s₀.runAll (Reference.stopAt 15)
          (Reference.sideBranchWins.map .applyBlock)).storage, .ok s) ∧
      s.genesisAccounts = s₀.genesisAccounts :=
  have ⟨s₀, hs₀⟩ := Option.isSome_iff_exists.mp
    (show (Reference.opened (Reference.stopAt 15)).isSome by decide +kernel)
  have ⟨s, hopen, _, hgenesis, _, _⟩ := reopen_after_crash Reference.forkChoiceLaws
    Reference.chainLaws Reference.recordLaws .empty (stopAt_crash 15)
    (Reference.opened_eq_some hs₀) (Reference.sideBranchWins.map .applyBlock) Reference.calm 0
    Reference.consensus
  ⟨s₀, s, hs₀, hopen, hgenesis⟩

end Node

end PaqusNode
