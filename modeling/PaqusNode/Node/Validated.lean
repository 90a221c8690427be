import PaqusNode.Node.Reopen
import PaqusNode.Node.Run

/-!
# PaqusNode.Node.Validated

Only fully validated branches enter the fork-choice index.  A block is
judged against its parent, the difficulty of its branch and the replay of
its branch; all three are settled once the parent is indexed, so a verdict
given at insertion is still the verdict in every later state.
-/

namespace PaqusNode

variable {P : Paqus}

variable {env : Env} {s s' : Node P} {block : P.Block} {start : Nat}

/-- Entries survive the insertion of another block. -/
theorem get_of_insert (hfc : ForkChoiceLaws P) {forkChoice forkChoice' : P.ForkChoice}
    {hash k : BlockHash} {entry : ForkNode P.Block}
    (h : P.forkChoice.insertBlock forkChoice block = .ok (hash, forkChoice'))
    (hget : P.forkChoice.get forkChoice k = some entry) :
    P.forkChoice.get forkChoice' k = some entry := by
  obtain ⟨-, hfresh, -, hall⟩ := hfc.insert_ok h
  rw [hall k, if_neg, hget]
  rintro rfl
  rw [hfresh] at hget
  cases hget

namespace Node

/-! ## The verdict on a block -/

/-- What validation has established of an indexed block, `parent` being the
entry it names as its parent. -/
structure Validated (env : Env) (start : Nat) (s : Node P) (block : P.Block)
    (parent : ForkNode P.Block) : Prop where
  consensus : ∃ i, start ≤ i ∧ i < s.io ∧
    P.consensus.validateNextBlockWithTipAt s.consensus block parent.block (env.clock i) = .ok ()
  checkpoint : P.consensus.validateCheckpoint (P.block.height block) (P.block.hash block) = true
  difficulty : s.consensus.config.difficulty ≠ 0 →
    nextDifficultyAfterBranchTip s.consensus s.forkChoice parent.hash =
      .ok (P.block.difficulty block)
  stateRoot_ne : P.block.stateRoot block ≠ 0
  stateRoot : ∃ before after,
    ledgerForBranchTip s.forkChoice s.genesisAccounts parent.hash = .ok before ∧
      P.ledger.applyBlock before block = .ok after ∧
      P.block.stateRoot block = P.ledger.stateRoot after

/-- Every indexed block above the root has an indexed parent and has been
validated against it. -/
def AllValidated (env : Env) (start : Nat) (s : Node P) : Prop :=
  ∀ hash entry, P.forkChoice.get s.forkChoice hash = some entry →
    P.block.height entry.block ≠ 0 →
    ∃ parent, P.forkChoice.get s.forkChoice (P.block.previousHash entry.block) = some parent ∧
      Validated env start s entry.block parent

/-- What `validate_block_for_known_parent` checks above height 0. -/
theorem validateBlockForKnownParent_eq_ok {now : UInt64} {parent : ForkNode P.Block}
    (hheight : P.block.height block ≠ 0)
    (hparent : P.forkChoice.get s.forkChoice (P.block.previousHash block) = some parent) :
    s.validateBlockForKnownParent now block = .ok () ↔
      P.consensus.validateNextBlockWithTipAt s.consensus block parent.block now = .ok () ∧
      P.consensus.validateCheckpoint (P.block.height block) (P.block.hash block) = true ∧
      (s.consensus.config.difficulty ≠ 0 →
        nextDifficultyAfterBranchTip s.consensus s.forkChoice parent.hash =
          .ok (P.block.difficulty block)) := by
  unfold validateBlockForKnownParent
  simp only [hheight, if_false, hparent]
  by_cases hzero : s.consensus.config.difficulty = 0
  · cases P.consensus.validateNextBlockWithTipAt s.consensus block parent.block now <;>
      simp [hzero]
  simp only [ne_eq, hzero, not_false_eq_true, if_true, forall_const]
  cases nextDifficultyAfterBranchTip s.consensus s.forkChoice parent.hash with
  | error e => simp
  | ok expected =>
      by_cases heq : P.block.difficulty block = expected
      · cases P.consensus.validateNextBlockWithTipAt s.consensus block parent.block now <;>
          simp [heq]
      · simp [heq, Ne.symm heq]

/-- What a block above the genesis block has been checked for. -/
theorem validateBlockForKnownParent_ok {now : UInt64} (hheight : P.block.height block ≠ 0)
    (h : s.validateBlockForKnownParent now block = .ok ()) :
    ∃ parent, P.forkChoice.get s.forkChoice (P.block.previousHash block) = some parent ∧
      P.consensus.validateNextBlockWithTipAt s.consensus block parent.block now = .ok () ∧
      P.consensus.validateCheckpoint (P.block.height block) (P.block.hash block) = true ∧
      (s.consensus.config.difficulty ≠ 0 →
        nextDifficultyAfterBranchTip s.consensus s.forkChoice parent.hash =
          .ok (P.block.difficulty block)) := by
  cases hparent : P.forkChoice.get s.forkChoice (P.block.previousHash block) with
  | none =>
      unfold validateBlockForKnownParent at h
      simp [hheight, hparent] at h
  | some parent => exact ⟨parent, rfl, (validateBlockForKnownParent_eq_ok hheight hparent).mp h⟩

/-- What `validate_canonical_state_root` checks above height 0. -/
theorem validateCanonicalStateRoot_ok (hroots : StateRootLaws P) {before after : P.Ledger}
    (hheight : P.block.height block ≠ 0) (h : validateCanonicalStateRoot before block = .ok ())
    (happly : P.ledger.applyBlock before block = .ok after) :
    P.block.stateRoot block ≠ 0 ∧ P.block.stateRoot block = P.ledger.stateRoot after := by
  unfold validateCanonicalStateRoot at h
  split at h
  · contradiction
  next root hroot =>
  split at h
  · contradiction
  next heq =>
  split at h
  · contradiction
  next hzero =>
  have hgenesis : P.block.isGenesis block = false := by
    cases hg : P.block.isGenesis block with
    | false => rfl
    | true => exact absurd (hroots.genesis_height hg) hheight
  refine ⟨?_, ?_⟩
  · intro hz
    exact hzero ⟨by simp [hgenesis], hz⟩
  · rw [hroots.root_after hroot happly]
    exact Decidable.not_not.mp heq

/-! ## The verdicts along a run -/

section Laws

variable (hfc : ForkChoiceLaws P) (hchain : ChainLaws P) (hroots : StateRootLaws P)

/-- Verdicts do not depend on the ledger, the pools or the database. -/
theorem AllValidated.congr (h : AllValidated env start s) (hconsensus : s'.consensus = s.consensus)
    (hfork : s'.forkChoice = s.forkChoice) (hgenesis : s'.genesisAccounts = s.genesisAccounts)
    (hio : s.io ≤ s'.io) : AllValidated env start s' := by
  intro hash entry hget hheight
  rw [hfork] at hget ⊢
  obtain ⟨parent, hparent, hv⟩ := h hash entry hget hheight
  obtain ⟨i, hstart, hi, hnext⟩ := hv.consensus
  refine ⟨parent, hparent, ⟨i, hstart, Nat.lt_of_lt_of_le hi hio, ?_⟩, hv.checkpoint, ?_,
    hv.stateRoot_ne, ?_⟩
  · rw [hconsensus]
    exact hnext
  · rw [hconsensus, hfork]
    exact hv.difficulty
  · rw [hfork, hgenesis]
    exact hv.stateRoot

include hfc in
/-- A verdict survives the insertion of another block. -/
theorem Validated.insert {r hash : BlockHash} {new : P.Block} {parent : ForkNode P.Block}
    (h : Validated env start s block parent) (hs : Synced s r)
    (hparent : P.forkChoice.get s.forkChoice parent.hash = some parent)
    (hinsert : P.forkChoice.insertBlock s.forkChoice new = .ok (hash, s'.forkChoice))
    (hconsensus : s'.consensus = s.consensus) (hgenesis : s'.genesisAccounts = s.genesisAccounts)
    (hio : s.io ≤ s'.io) : Validated env start s' block parent := by
  obtain ⟨bs, hbs⟩ := hs.rooted.branch (indexed_item_eq_some.mpr ⟨parent, hparent, rfl⟩)
  obtain ⟨i, hstart, hi, hnext⟩ := h.consensus
  refine ⟨⟨i, hstart, Nat.lt_of_lt_of_le hi hio, hconsensus ▸ hnext⟩, h.checkpoint, ?_,
    h.stateRoot_ne, ?_⟩
  · rw [hconsensus, nextDifficultyAfterBranchTip_mono hfc (indexed_extends hfc hinsert) _ hbs]
    exact h.difficulty
  · rw [hgenesis, ledgerForBranchTip_mono hfc (indexed_extends hfc hinsert) _ hbs]
    exact h.stateRoot

include hfc hchain hroots

/-- **One step keeps the verdicts**: the block it indexes, if any, has just
been validated. -/
theorem Step.allValidated {r : BlockHash} (hs : Synced s r) (hstart : start ≤ s.io)
    (hv : AllValidated env start s) (hstep : Step env s s') :
    start ≤ s'.io ∧ AllValidated env start s' := by
  cases hstep with
  | save =>
      obtain ⟨storage, durable, hsave⟩ := saveLedger_fst env s
      rw [hsave]
      exact ⟨Nat.le_succ_of_le hstart, hv.congr rfl rfl rfl (Nat.le_succ _)⟩
  | sync h =>
      exact ⟨Nat.le_trans hstart h.io, hv.congr h.consensus h.forkChoice h.genesisAccounts h.io⟩
  | pool _ => exact ⟨hstart, hv.congr rfl rfl rfl (Nat.le_refl _)⟩
  | connect block =>
      rcases applyKnownParentBlock_connected hfc hchain env hs block with
        ⟨e, h⟩ | ⟨fc, before, after, hvalid, hinsert, hacc, hconn⟩
      · rw [h]
        exact ⟨Nat.le_succ_of_le hstart, hv.congr rfl rfl rfl (Nat.le_succ _)⟩
      obtain ⟨hfork, hgenesis, hconsensus, hio, -⟩ := hconn.fields
      simp only [tick] at hfork hgenesis hconsensus hio
      have hinsert' := hinsert
      rw [← hfork] at hinsert'
      have hio' : s.io < (s.applyKnownParentBlock env block).1.io := hio
      refine ⟨Nat.le_trans hstart (Nat.le_of_lt hio'), ?_⟩
      intro hash entry hget hheight
      rw [(hfc.insert_ok hinsert').2.2.2 hash] at hget
      split at hget
      · -- the block just accepted
        cases hget
        obtain ⟨parent, hparent, hnext, hcheckpoint, hdifficulty⟩ :=
          validateBlockForKnownParent_ok hacc.height_ne hvalid
        have hhash := (hfc.get_entry hparent).1
        obtain ⟨hne, hroot⟩ :=
          validateCanonicalStateRoot_ok hroots hacc.height_ne hacc.state_root hacc.apply
        obtain ⟨bs, hbs⟩ := hs.rooted.branch (indexed_item_eq_some.mpr ⟨parent, hparent, rfl⟩)
        refine ⟨parent, get_of_insert hfc hinsert' hparent, ⟨s.io, hstart, hio', ?_⟩, hcheckpoint,
          ?_, hne, before, after, ?_, hacc.apply, hroot⟩
        · rw [hconsensus]
          exact hnext
        · rw [hconsensus, hhash,
            nextDifficultyAfterBranchTip_mono hfc (indexed_extends hfc hinsert') _ hbs, ← hhash]
          exact hdifficulty
        · rw [hgenesis, hhash, ledgerForBranchTip_mono hfc (indexed_extends hfc hinsert') _ hbs]
          exact hacc.parent_replay
      · obtain ⟨parent, hparent, hval⟩ := hv hash entry hget hheight
        have hhash := (hfc.get_entry hparent).1
        exact ⟨parent, get_of_insert hfc hinsert' hparent,
          hval.insert hfc hs (by rw [hhash, hparent]) hinsert' hconsensus hgenesis
            (Nat.le_of_lt hio')⟩

theorem Steps.allValidated {r : BlockHash} (hs : Synced s r) (hstart : start ≤ s.io)
    (hv : AllValidated env start s) (hrun : Steps env s s') : AllValidated env start s' :=
  (hrun.invariant (fun s => Synced s r ∧ start ≤ s.io ∧ AllValidated env start s)
    (fun h hstep => ⟨(hstep.synced hfc hchain h.1).1,
      hstep.allValidated hfc hchain hroots h.1 h.2.1 h.2.2⟩)
    ⟨hs, hstart, hv⟩).2.2

/-- **Only fully validated branches enter fork choice.**  Whatever blocks a
genesis-only node receives, connected directly or out of the orphan pool,
every indexed block but the genesis block has its parent in the index, and
has passed the checks against it at a clock reading of the run. -/
theorem indexed_block_validated {env : Env} {s : Node P} {g : P.Block} (hs : s.GenesisOnly g)
    (blocks : List P.Block) {hash : BlockHash} {entry : ForkNode P.Block}
    (hget : P.forkChoice.get (s.applyBlocks env blocks).forkChoice hash = some entry)
    (hne : hash ≠ P.block.hash g) :
    ∃ parent, P.forkChoice.get (s.applyBlocks env blocks).forkChoice
        (P.block.previousHash entry.block) = some parent ∧
      Validated env s.io (s.applyBlocks env blocks) entry.block parent := by
  have hsynced := hs.synced hfc hchain
  have hrun := applyBlocks_steps env blocks s
  have hstart : AllValidated env s.io s := by
    intro k e hk hheight
    rw [hs.index k] at hk
    split at hk
    · cases hk
      exact absurd hs.height hheight
    · cases hk
  refine hrun.allValidated hfc hchain hroots hsynced (Nat.le_refl _) hstart hash entry hget ?_
  -- a second block of height 0 would be a second root
  intro hheight
  exact hne ((hrun.synced hfc hchain hsynced).rooted.eq_root
    (indexed_item_eq_some.mpr ⟨entry, hget, rfl⟩) (parentHash_eq_none.mpr hheight))

end Laws

/-- The tip of the side branch was checked against its parent. -/
theorem indexed_block_validated_of_sideBranchWins :
    ∃ parent, Reference.paqus.forkChoice.get (Reference.genesisNode.applyBlocks Reference.calm
        Reference.sideBranchWins).forkChoice
          (Reference.paqus.block.previousHash (Reference.block 4 2 3 [])) = some parent ∧
      Validated Reference.calm Reference.genesisNode.io (Reference.genesisNode.applyBlocks
        Reference.calm Reference.sideBranchWins) (Reference.block 4 2 3 []) parent :=
  have hget : Reference.paqus.forkChoice.get (Reference.genesisNode.applyBlocks Reference.calm
      Reference.sideBranchWins).forkChoice 4 = some ⟨4, 2, Reference.block 4 2 3 []⟩ := by
    decide +kernel
  have hvalid := indexed_block_validated Reference.forkChoiceLaws Reference.chainLaws
    Reference.stateRootLaws (genesisOnly_of_initOrLoad Reference.forkChoiceLaws
      Reference.chainLaws Reference.recordLaws (Reference.opened_eq_some Reference.opened_calm))
    Reference.sideBranchWins hget (by decide +kernel)
  hvalid

end Node

end PaqusNode
