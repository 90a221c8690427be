import Mathlib.Data.List.Find
import PaqusNode.Base.Except
import PaqusNode.Base.Forest
import PaqusNode.Paqus.Chain
import PaqusNode.Node.State

/-!
# PaqusNode.Node.Replay

The fork-choice index as a forest of blocks, and what it means to replay one
of its branches.  `ledger_for_branch_tip` computes exactly the replay of the
branch of its tip, so its result never changes once the tip is indexed.
-/

namespace PaqusNode

variable {P : Paqus}

variable {forkChoice forkChoice' : P.ForkChoice} {ledger ledger' : P.Ledger} {hash r t : BlockHash}
  {block g genesis : P.Block} {bs branch : List P.Block}
  {genesisAccounts : BTreeMap Address P.Account}

/-! ## The index as a forest -/

/-- The parent a block names: none for a block of height 0. -/
def parentHash (block : P.Block) : Option BlockHash :=
  if P.block.height block = 0 then none else some (P.block.previousHash block)

theorem parentHash_eq_none : parentHash block = none ↔ P.block.height block = 0 := by
  unfold parentHash
  split <;> simp_all

theorem parentHash_eq_some :
    parentHash block = some hash ↔
      P.block.height block ≠ 0 ∧ P.block.previousHash block = hash := by
  unfold parentHash
  split <;> simp_all

/-- Blocks by hash; a branch starts with one that names no parent. -/
def forest (blocks : BlockHash → Option P.Block) : Forest BlockHash P.Block where
  item := blocks
  parent := parentHash
  root := Parentless
  root_parent h := parentHash_eq_none.mpr h.1

/-- The indexed blocks, by hash. -/
def indexed (forkChoice : P.ForkChoice) : Forest BlockHash P.Block :=
  forest fun hash => (P.forkChoice.get forkChoice hash).map ForkNode.block

theorem indexed_item_eq_some :
    (indexed forkChoice).item hash = some block ↔
      ∃ entry, P.forkChoice.get forkChoice hash = some entry ∧ entry.block = block := by
  simp only [indexed, forest, Option.map_eq_some_iff]

theorem indexed_item_eq_none :
    (indexed forkChoice).item hash = none ↔ P.forkChoice.get forkChoice hash = none := by
  simp only [indexed, forest, Option.map_eq_none_iff]

section Laws

variable (hfc : ForkChoiceLaws P)

include hfc

/-- Inserting a block is learning one item. -/
theorem indexed_insert (h : P.forkChoice.insertBlock forkChoice block = .ok (hash, forkChoice')) :
    indexed forkChoice' = (indexed forkChoice).insert hash block := by
  obtain ⟨-, -, -, hget⟩ := hfc.insert_ok h
  simp only [indexed, forest, Forest.insert, Forest.mk.injEq, and_true]
  funext k
  rw [hget k]
  split <;> rfl

theorem indexed_item_of_insert
    (h : P.forkChoice.insertBlock forkChoice block = .ok (hash, forkChoice')) :
    (indexed forkChoice').item (P.block.hash block) = some block := by
  rw [indexed_insert hfc h, (hfc.insert_ok h).1]
  exact Forest.insert_item_self _ _

theorem indexed_extends (h : P.forkChoice.insertBlock forkChoice block = .ok (hash, forkChoice')) :
    (indexed forkChoice).Extends (indexed forkChoice') := by
  rw [indexed_insert hfc h]
  exact Forest.extends_insert (indexed_item_eq_none.mpr (hfc.insert_ok h).2.1)

/-- An indexed block is filed under its own hash, at its own height. -/
theorem hash_of_indexed (h : (indexed forkChoice).item hash = some block) :
    P.block.hash block = hash := by
  obtain ⟨entry, hentry, rfl⟩ := indexed_item_eq_some.mp h
  exact (hfc.get_entry hentry).2.1

theorem admissible_of_indexed (h : (indexed forkChoice).item hash = some block) :
    Admissible block := by
  obtain ⟨entry, hentry, rfl⟩ := indexed_item_eq_some.mp h
  exact hfc.get_admissible hentry

/-! ## Walking a branch -/

/-- The entry of an indexed block. -/
theorem get_of_indexed (h : (indexed forkChoice).item hash = some block) :
    P.forkChoice.get forkChoice hash = some ⟨hash, P.block.height block, block⟩ := by
  obtain ⟨entry, hentry, rfl⟩ := indexed_item_eq_some.mp h
  obtain ⟨hhash, -, hheight⟩ := hfc.get_entry hentry
  rw [hentry, ← hhash, ← hheight]

/-- The blocks of a branch and its root are indexed. -/
theorem indexed_of_mem_branch {b : P.Block} (hbranch : (indexed forkChoice).Branch r t bs)
    (hg : (indexed forkChoice).item r = some g) (hb : b ∈ g :: bs) :
    (indexed forkChoice).item (P.block.hash b) = some b := by
  rcases List.mem_cons.mp hb with rfl | hb
  · rw [hash_of_indexed hfc hg]
    exact hg
  · obtain ⟨k, p, hk, -⟩ := hbranch.mem_known hb
    rw [hash_of_indexed hfc hk]
    exact hk

/-- `ancestor_hashes` lists the branch backwards. -/
theorem ancestorHashes_eq (hbranch : (indexed forkChoice).Branch r t bs)
    (hg : (indexed forkChoice).item r = some g) :
    P.forkChoice.ancestorHashes forkChoice t = ((g :: bs).reverse).map P.block.hash := by
  induction hbranch with
  | root hitem hroot =>
      rw [hg] at hitem
      cases hitem
      rw [hfc.ancestorHashes_root (get_of_indexed hfc hg) hroot]
      simp [hash_of_indexed hfc hg]
  | @step t p b bs _ hitem hparent ih =>
      obtain ⟨hheight, rfl⟩ := parentHash_eq_some.mp hparent
      rw [hfc.ancestorHashes_step (get_of_indexed hfc hitem) hheight, ih]
      simp [hash_of_indexed hfc hitem]

/-- The root is the last of the ancestors. -/
theorem ancestorHashes_getLast (h : (indexed forkChoice).Branch r t bs) :
    (P.forkChoice.ancestorHashes forkChoice t).getLast? = some r := by
  obtain ⟨g, hg, -⟩ := h.root_item
  rw [ancestorHashes_eq hfc h hg]
  simp [hash_of_indexed hfc hg]

/-- A branch is what `branch_from_ancestor` returns from its root. -/
theorem branchFromAncestor_eq (h : (indexed forkChoice).Branch r t bs) :
    P.forkChoice.branchFromAncestor forkChoice r t = some bs := by
  have hroot := h.root_item
  induction h with
  | root hitem _ =>
      obtain ⟨entry, hentry, -⟩ := indexed_item_eq_some.mp hitem
      exact hfc.branch_self hentry
  | @step t p b bs _ hitem hparent ih =>
      have hne : r ≠ t := by
        rintro rfl
        obtain ⟨g, hg, hnone⟩ := hroot
        rw [hitem] at hg
        cases hg
        rw [Forest.root_parent _ hnone] at hparent
        cases hparent
      obtain ⟨entry, hentry, rfl⟩ := indexed_item_eq_some.mp hitem
      obtain ⟨hheight, rfl⟩ := parentHash_eq_some.mp hparent
      rw [hfc.branch_step hentry (by rwa [(hfc.get_entry hentry).2.2]) hne, ih]
      rfl

/-- From every ancestor of an indexed tip there is a branch to the tip. -/
theorem branchFromAncestor_isSome {a : BlockHash} (h : (indexed forkChoice).Branch r t bs)
    (ha : a ∈ P.forkChoice.ancestorHashes forkChoice t) :
    ∃ branch, P.forkChoice.branchFromAncestor forkChoice a t = some branch := by
  induction h with
  | root hitem hroot =>
      obtain ⟨entry, hentry, rfl⟩ := indexed_item_eq_some.mp hitem
      rw [hfc.ancestorHashes_root hentry hroot, List.mem_singleton] at ha
      subst ha
      exact ⟨[], hfc.branch_self hentry⟩
  | @step t p b bs _ hitem hparent ih =>
      obtain ⟨entry, hentry, rfl⟩ := indexed_item_eq_some.mp hitem
      obtain ⟨hne, rfl⟩ := parentHash_eq_some.mp hparent
      have hheight : entry.height ≠ 0 := by rwa [(hfc.get_entry hentry).2.2]
      by_cases hat : a = t
      · subst hat
        exact ⟨[], hfc.branch_self hentry⟩
      rw [hfc.ancestorHashes_step hentry hheight, List.mem_cons] at ha
      obtain ⟨branch, hbranch⟩ := ih (ha.resolve_left hat)
      exact ⟨branch ++ [entry.block], by rw [hfc.branch_step hentry hheight hat, hbranch]; rfl⟩

/-- In a tree any two indexed blocks have a common ancestor, and a branch
leads from it to the second. -/
theorem commonAncestor_of_rooted {old new : BlockHash} {bs' : List P.Block}
    (hold : (indexed forkChoice).Branch r old bs) (hnew : (indexed forkChoice).Branch r new bs') :
    ∃ ancestor branch, commonAncestor forkChoice (some old) new = some ancestor ∧
      P.forkChoice.branchFromAncestor forkChoice ancestor new = some branch := by
  have hrold := List.mem_of_getLast? (ancestorHashes_getLast hfc hold)
  have hrnew := List.mem_of_getLast? (ancestorHashes_getLast hfc hnew)
  cases hfind : commonAncestor forkChoice (some old) new with
  | none =>
      have hnone := List.find?_eq_none.mp hfind r hrnew
      simp only [List.contains_eq_mem, hrold, decide_true, not_true] at hnone
  | some ancestor =>
      obtain ⟨branch, hbranch⟩ :=
        branchFromAncestor_isSome hfc hnew (List.mem_of_find?_eq_some hfind)
      exact ⟨ancestor, branch, rfl, hbranch⟩

end Laws

/-! ## Difficulty of a branch -/

/-- The difficulty of the block after the chain `bs`, genesis first. -/
def difficultyAbove (consensus : Consensus) (bs : List P.Block) : Except NodeError UInt32 :=
  match bs.getLast? with
  | none => .error (.forkChoice .missingParent)
  | some tip =>
      if P.block.height tip < P.consensus.difficultyAdjustmentInterval then
        .ok consensus.config.difficulty
      else
        let firstHeight := P.block.height tip - P.consensus.difficultyAdjustmentInterval
        match bs.reverse.find? fun block => P.block.height block == firstHeight with
        | none => .error .reorgRequired
        | some first =>
            (P.consensus.retargetDifficulty consensus (P.block.difficulty tip)
              (P.block.timestamp first) (P.block.timestamp tip)
              (satSub (P.block.height tip) (P.block.height first))).mapError .consensus

/-- A branch ends in its tip. -/
theorem getLast?_branch {F : Forest BlockHash P.Block} {tip : P.Block} (hbranch : F.Branch r t bs)
    (hg : F.item r = some g) (htip : F.item t = some tip) : (g :: bs).getLast? = some tip := by
  cases hbranch with
  | root hitem _ =>
      rw [hg] at htip
      exact htip
  | step _ hitem _ =>
      rw [hitem] at htip
      rw [← List.cons_append, List.getLast?_concat]
      exact htip

/-- **The validator's difficulty is that of the branch.** -/
theorem nextDifficultyAfterBranchTip_eq (hfc : ForkChoiceLaws P) (consensus : Consensus)
    (hbranch : (indexed forkChoice).Branch r t bs) (hg : (indexed forkChoice).item r = some g) :
    nextDifficultyAfterBranchTip consensus forkChoice t = difficultyAbove consensus (g :: bs) := by
  obtain ⟨tip, htip⟩ := hbranch.tip_known
  have hget : ∀ b ∈ (g :: bs).reverse,
      P.forkChoice.get forkChoice (P.block.hash b) =
        some ⟨P.block.hash b, P.block.height b, b⟩ :=
    fun b hb => get_of_indexed hfc (indexed_of_mem_branch hfc hbranch hg (List.mem_reverse.mp hb))
  -- on the branch the search by hash is the search by block
  have hfind : ∀ height : UInt64,
      (P.forkChoice.ancestorHashes forkChoice t).find? (fun hash =>
        (P.forkChoice.get forkChoice hash).any fun node => node.height == height) =
      ((g :: bs).reverse.find? fun block => P.block.height block == height).map P.block.hash := by
    intro height
    rw [ancestorHashes_eq hfc hbranch hg, List.find?_map]
    congr 1
    refine List.find?_congr fun b hb => ?_
    simp only [Function.comp_apply, hget b hb, Option.any_some]
  unfold nextDifficultyAfterBranchTip difficultyAbove
  simp only [get_of_indexed hfc htip, getLast?_branch hbranch hg htip, hfind]
  split
  · rfl
  cases hfirst : (g :: bs).reverse.find? fun block =>
      P.block.height block == P.block.height tip - P.consensus.difficultyAdjustmentInterval with
  | none => rfl
  | some first =>
      simp only [Option.map_some, hget first (List.mem_of_find?_eq_some hfirst)]
      cases P.consensus.retargetDifficulty consensus (P.block.difficulty tip)
        (P.block.timestamp first) (P.block.timestamp tip)
        (satSub (P.block.height tip) (P.block.height first)) <;> rfl

/-- The difficulty expected above an indexed block is final. -/
theorem nextDifficultyAfterBranchTip_mono (hfc : ForkChoiceLaws P)
    (hext : (indexed forkChoice).Extends (indexed forkChoice')) (consensus : Consensus)
    (hbranch : (indexed forkChoice).Branch r t bs) :
    nextDifficultyAfterBranchTip consensus forkChoice' t =
      nextDifficultyAfterBranchTip consensus forkChoice t := by
  obtain ⟨g, hg, -⟩ := hbranch.root_item
  rw [nextDifficultyAfterBranchTip_eq hfc consensus hbranch hg,
    nextDifficultyAfterBranchTip_eq hfc consensus (hbranch.mono hext) (hext.item hg)]

/-! ## Replaying -/

/-- The ledger with the genesis accounts and the genesis block, and every
block of `branch` applied to it in order. -/
def replay (genesisAccounts : BTreeMap Address P.Account) (genesis : P.Block)
    (branch : List P.Block) : Except LedgerError P.Ledger :=
  match P.ledger.insertBlock (Chain.new P.Block) genesis with
  | .error e => .error e
  | .ok chain => branch.foldlM P.ledger.applyBlock ⟨genesisAccounts, chain⟩

/-- The genesis accounts are what the genesis block leaves behind. -/
def Founded (genesisAccounts : BTreeMap Address P.Account) (genesis : P.Block) : Prop :=
  ∃ chain, P.ledger.applyBlock (Ledger.new P.Account P.Block) genesis = .ok ⟨genesisAccounts, chain⟩

/-- Replaying no block inserts the genesis block only. -/
theorem replay_nil (h : replay genesisAccounts genesis [] = .ok ledger) :
    ledger.accounts = genesisAccounts ∧
      P.ledger.insertBlock (Chain.new P.Block) genesis = .ok ledger.chain := by
  unfold replay at h
  cases hins : P.ledger.insertBlock (Chain.new P.Block) genesis with
  | error e =>
      simp only [hins] at h
      contradiction
  | ok chain =>
      simp only [hins] at h
      cases h
      exact ⟨rfl, rfl⟩

/-- Replaying one more block applies it to the replay so far. -/
theorem replay_concat :
    replay genesisAccounts genesis (branch ++ [block]) = .ok ledger' ↔
      ∃ ledger, replay genesisAccounts genesis branch = .ok ledger ∧
        P.ledger.applyBlock ledger block = .ok ledger' := by
  unfold replay
  cases P.ledger.insertBlock (Chain.new P.Block) genesis with
  | error e => simp
  | ok chain => exact foldlM_concat_eq_ok

/-- What starts a replayed branch can be replayed. -/
theorem replay_take (h : replay genesisAccounts genesis branch = .ok ledger) (k : Nat) :
    ∃ before, replay genesisAccounts genesis (branch.take k) = .ok before := by
  unfold replay at h ⊢
  cases hins : P.ledger.insertBlock (Chain.new P.Block) genesis with
  | error e =>
      simp only [hins] at h
      contradiction
  | ok chain =>
      simp only [hins] at h ⊢
      rw [← List.take_append_drop k branch] at h
      obtain ⟨before, hbefore, -⟩ := foldlM_append_eq_ok.mp h
      exact ⟨before, hbefore⟩

theorem replay_keyed (hrec : RecordLaws P) (hkeyed : AccountsKeyed P genesisAccounts)
    (h : replay genesisAccounts genesis branch = .ok ledger) : AccountsKeyed P ledger.accounts := by
  induction branch using List.reverseRecOn generalizing ledger with
  | nil => exact (replay_nil h).1 ▸ hkeyed
  | append_singleton branch block ih =>
      obtain ⟨before, hbefore, happly⟩ := replay_concat.mp h
      exact hrec.apply_keyed happly (ih hbefore)

/-- Whatever the index, a ledger of `ledger_for_branch_tip` is a replay. -/
theorem ledgerForBranchTip_replay
    (h : ledgerForBranchTip forkChoice genesisAccounts t = .ok ledger) :
    ∃ genesis branch, replay genesisAccounts genesis branch = .ok ledger := by
  unfold ledgerForBranchTip at h
  simp only at h
  split at h
  · contradiction
  next genesis hgenesis =>
  split at h
  · contradiction
  next chain hins =>
  split at h
  · contradiction
  next branch hbranch =>
  split at h
  · contradiction
  next ledger' hfold =>
  cases h
  exact ⟨genesis.block, branch, by simp only [replay, hins, hfold]⟩

/-- **`ledger_for_branch_tip` replays the branch of its tip.** -/
theorem ledgerForBranchTip_eq (hfc : ForkChoiceLaws P)
    (hbranch : (indexed forkChoice).Branch r t bs) (hg : (indexed forkChoice).item r = some g) :
    ledgerForBranchTip forkChoice genesisAccounts t =
      (replay genesisAccounts g bs).mapError .ledger := by
  obtain ⟨entry, hentry, rfl⟩ := indexed_item_eq_some.mp hg
  unfold ledgerForBranchTip replay
  simp only [ancestorHashes_getLast hfc hbranch, Option.getD_some, hentry]
  cases P.ledger.insertBlock (Chain.new P.Block) entry.block with
  | error e => rfl
  | ok chain =>
      simp only [branchFromAncestor_eq hfc hbranch]
      cases List.foldlM P.ledger.applyBlock ⟨genesisAccounts, chain⟩ bs <;> rfl

theorem ledgerForBranchTip_eq_ok (hfc : ForkChoiceLaws P)
    (hbranch : (indexed forkChoice).Branch r t bs) (hg : (indexed forkChoice).item r = some g) :
    ledgerForBranchTip forkChoice genesisAccounts t = .ok ledger ↔
      replay genesisAccounts g bs = .ok ledger := by
  rw [ledgerForBranchTip_eq hfc hbranch hg]
  cases replay genesisAccounts g bs <;> simp [Except.mapError]

/-- **A verdict is final**: growth of the index does not change the replay
of a tip already in it. -/
theorem ledgerForBranchTip_mono (hfc : ForkChoiceLaws P)
    (hext : (indexed forkChoice).Extends (indexed forkChoice'))
    (genesisAccounts : BTreeMap Address P.Account) (hbranch : (indexed forkChoice).Branch r t bs) :
    ledgerForBranchTip forkChoice' genesisAccounts t =
      ledgerForBranchTip forkChoice genesisAccounts t := by
  obtain ⟨g, hg, -⟩ := hbranch.root_item
  rw [ledgerForBranchTip_eq hfc hbranch hg,
    ledgerForBranchTip_eq hfc (hbranch.mono hext) (hext.item hg)]

/-- The replay of a new leaf is its parent's replay with the leaf applied. -/
theorem ledgerForBranchTip_step (hfc : ForkChoiceLaws P) {p : BlockHash} {b : P.Block}
    (hbranch : (indexed forkChoice).Branch r p bs) (hitem : (indexed forkChoice).item t = some b)
    (hparent : parentHash b = some p) :
    ledgerForBranchTip forkChoice genesisAccounts t = .ok ledger' ↔
      ∃ ledger, ledgerForBranchTip forkChoice genesisAccounts p = .ok ledger ∧
        P.ledger.applyBlock ledger b = .ok ledger' := by
  obtain ⟨g, hg, -⟩ := hbranch.root_item
  rw [ledgerForBranchTip_eq_ok hfc (.step hbranch hitem hparent) hg, replay_concat]
  simp only [ledgerForBranchTip_eq_ok hfc hbranch hg]

/-! ## Tips of replayed ledgers -/

section ChainLaws

variable (hchain : ChainLaws P)

include hchain

theorem applyBlock_tip (h : P.ledger.applyBlock ledger block = .ok ledger') :
    P.ledger.tipHash ledger' = some (P.block.hash block) ∧
      P.ledger.tipHeight ledger' = some (P.block.height block) :=
  hchain.insert_tip ledger'.accounts (hchain.apply_chain h)

/-- A ledger with a tip only takes blocks above it. -/
theorem applyBlock_link {tipHash : BlockHash} {tipHeight : UInt64}
    (h : P.ledger.applyBlock ledger block = .ok ledger')
    (hhash : P.ledger.tipHash ledger = some tipHash)
    (hheight : P.ledger.tipHeight ledger = some tipHeight) :
    P.block.previousHash block = tipHash ∧
      (P.block.height block).toNat = tipHeight.toNat + 1 :=
  hchain.insert_next (hchain.apply_chain h) hhash hheight

/-- The chain of a replayed ledger is built from the replayed blocks. -/
theorem replay_chain (h : replay genesisAccounts genesis branch = .ok ledger) :
    (genesis :: branch).foldlM P.ledger.insertBlock (Chain.new P.Block) = .ok ledger.chain := by
  induction branch using List.reverseRecOn generalizing ledger with
  | nil => exact foldlM_cons_eq_ok.mpr ⟨_, (replay_nil h).2, rfl⟩
  | append_singleton branch block ih =>
      obtain ⟨before, hbefore, happly⟩ := replay_concat.mp h
      rw [← List.cons_append, foldlM_concat_eq_ok]
      exact ⟨before.chain, ih hbefore, hchain.apply_chain happly⟩

/-- A replay starts from a block without a parent. -/
theorem replay_parentless (h : replay genesisAccounts genesis branch = .ok ledger) :
    Parentless genesis := by
  obtain ⟨chain, hfirst, -⟩ := foldlM_cons_eq_ok.mp (replay_chain hchain h)
  exact hchain.insert_first hfirst

theorem replay_root (h : replay genesisAccounts genesis branch = .ok ledger) :
    P.block.height genesis = 0 :=
  (replay_parentless hchain h).1

/-- A replayed ledger has a tip. -/
theorem replay_tip (h : replay genesisAccounts genesis branch = .ok ledger) :
    P.ledger.tipHash ledger = some (P.block.hash ((genesis :: branch).getLast (by simp))) ∧
      P.ledger.tipHeight ledger =
        some (P.block.height ((genesis :: branch).getLast (by simp))) := by
  rcases List.eq_nil_or_concat branch with rfl | ⟨rest, last, rfl⟩
  · obtain ⟨-, hins⟩ := replay_nil h
    exact hchain.insert_tip ledger.accounts hins
  · rw [List.concat_eq_append] at h
    obtain ⟨before, -, happly⟩ := replay_concat.mp h
    simpa [List.getLast_cons] using applyBlock_tip hchain happly

theorem ledgerForBranchTip_tip (h : ledgerForBranchTip forkChoice genesisAccounts t = .ok ledger) :
    ∃ tipHash tipHeight, P.ledger.tipHash ledger = some tipHash ∧
      P.ledger.tipHeight ledger = some tipHeight := by
  obtain ⟨genesis, branch, hreplay⟩ := ledgerForBranchTip_replay h
  exact ⟨_, _, replay_tip hchain hreplay⟩

end ChainLaws

end PaqusNode
