import PaqusNode.Base.While
import PaqusNode.Node.Reopen

/-!
# PaqusNode.Node.Reindex

`index_stored_blocks` over any index and any stored blocks.  The loop ends,
because a round that progressed has used up a block; and the index it leaves
is a closure: a block is in it if and only if its parents lead, through
stored blocks, to a block that needs none of them.
-/

namespace PaqusNode

variable {P : Paqus}

/-! ## The loop -/

/-- The variables of the loop: the index, the blocks left over and
`progressed`; or the error `index_stored_blocks` returns from inside it. -/
abbrev IndexState (P : Paqus) : Type :=
  Except ForkChoiceError (P.ForkChoice × List P.Block × Bool)

/-- `progressed`. -/
def indexGuard : IndexState P → Bool
  | .ok (_, _, progressed) => progressed
  | .error _ => false

/-- One round. -/
def indexBody : IndexState P → IndexState P
  | .ok (forkChoice, blocks, _) => indexRound forkChoice blocks
  | .error e => .error e

/-- The blocks a round may still use up. -/
def indexVariant : IndexState P → Nat
  | .ok (_, blocks, true) => blocks.length + 1
  | _ => 0

/-- A round that has not got stuck leaves fewer blocks to index. -/
theorem indexVariant_indexBody {state : IndexState P} (hguard : indexGuard state = true) :
    indexVariant (indexBody state) < indexVariant state := by
  rcases state with e | ⟨forkChoice, blocks, _ | _⟩
  · cases hguard
  · cases hguard
  · rcases hround : indexRound forkChoice blocks with e | ⟨forkChoice', remaining, progressed⟩
    · simp [indexBody, indexVariant, hround]
    · have hremaining := indexRound_remaining hround
      cases progressed with
      | false => simp [indexBody, indexVariant, hround]
      | true =>
          simp only [indexBody, indexVariant, hround, Bool.toNat_true] at hremaining ⊢
          omega

/-- `indexRounds` is what the loop leaves. -/
theorem indexRounds_of_while {n : Nat} {forkChoice : P.ForkChoice} {blocks : List P.Block}
    {final : IndexState P}
    (h : While indexGuard indexBody n (.ok (forkChoice, blocks, true)) final) :
    indexRounds forkChoice blocks = final.map Prod.fst := by
  induction n generalizing forkChoice blocks with
  | zero =>
      cases h with
      | done hguard => cases hguard
  | succ n ih =>
      cases h with
      | round _ hrest =>
          simp only [indexBody] at hrest
          rcases hround : indexRound forkChoice blocks with e | ⟨forkChoice', remaining, _ | _⟩
          · rw [hround] at hrest
            rw [← (While.unique (.done rfl) hrest).2]
            unfold indexRounds
            split <;> simp_all [Except.map]
          · rw [hround] at hrest
            rw [← (While.unique (.done rfl) hrest).2]
            unfold indexRounds
            split <;> simp_all [Except.map]
          · rw [hround] at hrest
            rw [← ih hrest]
            conv_lhs => unfold indexRounds
            split <;> simp_all

/-! ## What the rounds keep -/

/-- What inserting a block of the list keeps, a round keeps. -/
theorem indexRound_invariant (I : P.ForkChoice → Prop) {blocks remaining : List P.Block}
    {forkChoice forkChoice' : P.ForkChoice} {progressed : Bool}
    (hinsert : ∀ fc block hash fc', block ∈ blocks →
      P.forkChoice.insertBlock fc block = .ok (hash, fc') → I fc → I fc')
    (h : indexRound forkChoice blocks = .ok (forkChoice', remaining, progressed))
    (hI : I forkChoice) : I forkChoice' ∧ ∀ block ∈ remaining, block ∈ blocks := by
  induction blocks generalizing forkChoice remaining progressed with
  | nil =>
      cases h
      exact ⟨hI, fun _ hblock => hblock⟩
  | cons block rest ih =>
      have hrest : ∀ fc block hash fc', block ∈ rest →
          P.forkChoice.insertBlock fc block = .ok (hash, fc') → I fc → I fc' :=
        fun fc b hash fc' hb => hinsert fc b hash fc' (List.mem_cons_of_mem _ hb)
      unfold indexRound at h
      split at h
      · obtain ⟨⟨fc, rem, p⟩, hround, heq⟩ := Except.map_eq_ok h
        cases heq
        obtain ⟨hI', hsub⟩ := ih hrest hround hI
        exact ⟨hI', fun b hb => List.mem_cons_of_mem _ (hsub b hb)⟩
      split at h
      · next hash fc₁ hok =>
          obtain ⟨⟨fc, rem, p⟩, hround, heq⟩ := Except.map_eq_ok h
          cases heq
          obtain ⟨hI', hsub⟩ := ih hrest hround (hinsert _ _ _ _ List.mem_cons_self hok hI)
          exact ⟨hI', fun b hb => List.mem_cons_of_mem _ (hsub b hb)⟩
      · obtain ⟨⟨fc, rem, p⟩, hround, heq⟩ := Except.map_eq_ok h
        cases heq
        obtain ⟨hI', hsub⟩ := ih hrest hround hI
        refine ⟨hI', fun b hb => ?_⟩
        rcases List.mem_cons.mp hb with rfl | hb
        · exact List.mem_cons_self
        · exact List.mem_cons_of_mem _ (hsub b hb)
      · cases h

/-- What inserting a block of the list keeps, the loop keeps. -/
theorem indexRounds_invariant (I : P.ForkChoice → Prop) {blocks : List P.Block}
    {forkChoice forkChoice' : P.ForkChoice}
    (hinsert : ∀ fc block hash fc', block ∈ blocks →
      P.forkChoice.insertBlock fc block = .ok (hash, fc') → I fc → I fc')
    (h : indexRounds forkChoice blocks = .ok forkChoice') (hI : I forkChoice) : I forkChoice' := by
  induction forkChoice, blocks using indexRounds.induct with
  | case1 forkChoice blocks e hround =>
      unfold indexRounds at h
      split at h <;> simp_all
  | case2 forkChoice blocks fc remaining hround =>
      have hfinal : forkChoice' = fc := by
        unfold indexRounds at h
        split at h <;> simp_all
      rw [hfinal]
      exact (indexRound_invariant I hinsert hround hI).1
  | case3 forkChoice blocks fc remaining hround ih =>
      obtain ⟨hI', hsub⟩ := indexRound_invariant I hinsert hround hI
      refine ih (fun fc b hash fc' hb => hinsert fc b hash fc' (hsub b hb)) ?_ hI'
      rw [← h]
      conv_rhs => unfold indexRounds
      split <;> simp_all

/-! ## The closure -/

/-- Following parents from `hash` through the blocks of the list leads to a
hash with `Start`. -/
inductive Linked (blocks : List P.Block) (Start : BlockHash → Prop) : BlockHash → Prop
  | start {hash : BlockHash} (hstart : Start hash) : Linked blocks Start hash
  | step {block : P.Block} (hmem : block ∈ blocks)
      (hparent : Linked blocks Start (P.block.previousHash block)) :
      Linked blocks Start (P.block.hash block)

/-- The hash is indexed. -/
def Indexed (forkChoice : P.ForkChoice) (hash : BlockHash) : Prop :=
  P.forkChoice.contains forkChoice hash = true

/-- The hash is indexed, or that of a block that names no parent. -/
def Anchored (forkChoice : P.ForkChoice) (blocks : List P.Block) (hash : BlockHash) : Prop :=
  Indexed forkChoice hash ∨ ∃ block ∈ blocks, Parentless block ∧ P.block.hash block = hash

/-- More blocks link more. -/
theorem Linked.mono {forkChoice : P.ForkChoice} {blocks blocks' : List P.Block} {hash : BlockHash}
    (h : Linked blocks (Anchored forkChoice blocks) hash) (hsub : ∀ b ∈ blocks, b ∈ blocks') :
    Linked blocks' (Anchored forkChoice blocks') hash := by
  induction h with
  | start hstart =>
      refine .start (hstart.imp_right ?_)
      rintro ⟨block, hmem, hblock⟩
      exact ⟨block, hsub block hmem, hblock⟩
  | step hmem _ ih => exact .step (hsub _ hmem) ih

section Laws

variable (hfc : ForkChoiceLaws P)

include hfc

/-- A block that is inserted is linked. -/
theorem linked_insert {forkChoice fc fc' : P.ForkChoice} {blocks : List P.Block} {block : P.Block}
    {hash : BlockHash} (hmem : block ∈ blocks)
    (hinsert : P.forkChoice.insertBlock fc block = .ok (hash, fc'))
    (hlinked : ∀ k, Indexed fc k → Linked blocks (Anchored forkChoice blocks) k) (k : BlockHash)
    (hk : Indexed fc' k) : Linked blocks (Anchored forkChoice blocks) k := by
  obtain ⟨rfl, -, hparent, hget⟩ := hfc.insert_ok hinsert
  rw [Indexed, hfc.contains_eq, hget] at hk
  split at hk
  · next heq =>
      subst heq
      by_cases hnone : Parentless block
      · exact .start (.inr ⟨block, hmem, hnone, rfl⟩)
      · refine .step hmem (hlinked _ ?_)
        rw [Indexed, hfc.contains_eq]
        exact hparent hnone
  · refine hlinked k ?_
    rwa [Indexed, hfc.contains_eq]

/-- **The loop computes the closure.** -/
theorem indexRounds_closure (forkChoice : P.ForkChoice) (blocks : List P.Block)
    (hblocks : ∀ b ∈ blocks, Insertable b) :
    ∃ forkChoice', indexRounds forkChoice blocks = .ok forkChoice' ∧
      (∀ hash, Indexed forkChoice' hash ↔ Linked blocks (Anchored forkChoice blocks) hash) ∧
      ∀ {hash entry}, P.forkChoice.get forkChoice hash = some entry →
        P.forkChoice.get forkChoice' hash = some entry := by
  obtain ⟨forkChoice', hrounds, hgrows, hend⟩ := indexRounds_ok hfc blocks hblocks forkChoice
  have hindexed : ∀ {fc : P.ForkChoice} {hash : BlockHash},
      Indexed fc hash ↔ (indexed fc).item hash ≠ none := by
    intro fc hash
    rw [Indexed, hfc.contains_eq, ne_eq, indexed_item_eq_none, Option.isSome_iff_ne_none]
  refine ⟨forkChoice', hrounds, fun hash => ⟨?_, ?_⟩, ?_⟩
  · have hlinked := indexRounds_invariant
      (fun fc => ∀ k, Indexed fc k → Linked blocks (Anchored forkChoice blocks) k)
      (fun fc block hash fc' hmem hinsert hI => linked_insert hfc hmem hinsert hI) hrounds
      (fun k hk => .start (.inl hk))
    exact hlinked hash
  · intro hlinked
    induction hlinked with
    | start hstart =>
        rcases hstart with hinitial | ⟨block, hmem, hnone, rfl⟩
        · obtain ⟨b, hb⟩ := Option.ne_none_iff_exists'.mp (hindexed.mp hinitial)
          exact hindexed.mpr (by rw [hgrows.ext.item hb]; simp)
        · exact hindexed.mpr ((hend block hmem).resolve_right fun hleft => hleft.1 hnone)
    | step hmem _ ih =>
        exact hindexed.mpr ((hend _ hmem).resolve_right fun hleft => hindexed.mp ih hleft.2)
  · intro hash entry hentry
    have hitem := indexed_item_eq_some.mpr ⟨entry, hentry, rfl⟩
    rw [get_of_indexed hfc (hgrows.ext.item hitem), ← get_of_indexed hfc hitem, hentry]

end Laws

namespace Node

/-- The node with another index. -/
def withIndex (s : Node P) (forkChoice : P.ForkChoice) : Node P :=
  { s with
    forkChoice := forkChoice
    durable := { s.durable with forkChoice := forkChoice } }

/-- The order `index_stored_blocks` goes through the blocks in. -/
def byHeight (blocks : List P.Block) : List P.Block :=
  blocks.insertionSort fun a b => P.block.height a ≤ P.block.height b

/-- Indexing the stored blocks sorts them by height and goes over them in rounds. -/
theorem indexStoredBlocks_eq {s : Node P} {blocks : List P.Block}
    (hload : s.storage.loadBlocksByHash = .ok blocks) :
    s.indexStoredBlocks =
      ((indexRounds s.forkChoice (byHeight blocks)).mapError .forkChoice).map s.withIndex := by
  unfold indexStoredBlocks
  simp only [hload]
  rw [byHeight]
  split
  · next hrounds => rw [hrounds]; rfl
  · next hrounds => rw [hrounds]; rfl

/-- **`index_stored_blocks` is a terminating closure.**  Whatever the index
and the stored blocks, the loop ends after at most one round more than there
are blocks.  If insertion fails for missing parents and duplicates only, the
index then has the blocks it had before and the stored blocks whose parents
lead, through stored blocks, to one of those or to a stored block of height 0
with the all-zero previous hash. -/
theorem indexStoredBlocks_closure {s : Node P} {blocks : List P.Block}
    (hload : s.storage.loadBlocksByHash = .ok blocks) :
    (∃ n final, n ≤ blocks.length + 1 ∧
      While indexGuard indexBody n (.ok (s.forkChoice, byHeight blocks, true)) final ∧
      s.indexStoredBlocks =
        ((final.map Prod.fst).mapError .forkChoice).map s.withIndex) ∧
    (ForkChoiceLaws P → (∀ b ∈ blocks, Insertable b) →
      ∃ forkChoice, s.indexStoredBlocks = .ok (s.withIndex forkChoice) ∧
      (∀ hash, Indexed forkChoice hash ↔ Linked blocks (Anchored s.forkChoice blocks) hash) ∧
      ∀ hash entry, P.forkChoice.get s.forkChoice hash = some entry →
        P.forkChoice.get forkChoice hash = some entry) := by
  constructor
  · obtain ⟨n, final, hn, hloop⟩ := While.of_variant indexVariant
      (fun state => indexVariant_indexBody)
      (.ok (s.forkChoice, byHeight blocks, true) : IndexState P)
    refine ⟨n, final, ?_, hloop, ?_⟩
    · have hlength : (byHeight blocks).length = blocks.length :=
        List.length_insertionSort _ _
      simpa [indexVariant, hlength] using hn
    · rw [indexStoredBlocks_eq hload, indexRounds_of_while hloop]
  · intro hfc hblocks
    obtain ⟨forkChoice, hrounds, hclosure, hkept⟩ :=
      indexRounds_closure hfc s.forkChoice (byHeight blocks)
        fun b hb => hblocks b (List.mem_insertionSort _ |>.mp hb)
    refine ⟨forkChoice, ?_, ?_, fun _ _ => hkept⟩
    · rw [indexStoredBlocks_eq hload, hrounds]
      rfl
    · intro hash
      rw [hclosure]
      exact ⟨fun h => h.mono fun b hb => List.mem_insertionSort _ |>.mp hb,
        fun h => h.mono fun b hb => List.mem_insertionSort _ |>.mpr hb⟩

end Node

/-! ## Stored blocks out of order, and a stored root -/

namespace Reference

/-- The genesis node with a side branch stored, and a block whose ancestors
are missing. -/
def scatteredNode : Node paqus :=
  { genesisNode with
    storage := [block 4 2 3 [], block 9 5 8 [], block 3 1 1 []].foldl
      (fun db b => (db.saveSideBlock calm 0 b).1) genesisNode.storage }

/-- What it loads. -/
def scatteredBlocks : List Block := [genesis, block 3 1 1 [], block 4 2 3 [], block 9 5 8 []]

theorem loadBlocksByHash_scatteredNode :
    scatteredNode.storage.loadBlocksByHash = .ok scatteredBlocks :=
  Except.eq_ok_of_toOption (by decide +kernel)

theorem insertable_scatteredBlocks : ∀ b ∈ scatteredBlocks, Insertable (P := paqus) b := by
  have hall : ∀ b ∈ scatteredBlocks, 1 ≤ b.difficulty ∧ b.difficulty ≤ 256 := by
    decide +kernel
  exact fun b hb => forkChoiceLaws.insert_error (hall b hb)

/-- A node with an empty ledger, so an empty index, over the database of the
genesis node. -/
def blankNode : Node paqus :=
  (Node.withGenesisAccounts (Ledger.new Account Block) genesisNode.storage consensus ∅
    0).toOption.get (by decide +kernel)

theorem not_indexed_blankNode (hash : BlockHash) : ¬Indexed blankNode.forkChoice hash := by
  have hempty : blankNode.forkChoice.blocks = [] := by decide +kernel
  change ¬(find hash blankNode.forkChoice.blocks).isSome = true
  rw [hempty]
  exact Bool.false_ne_true

/-- The same node after `index_stored_blocks`. -/
def replantedNode : Node paqus :=
  blankNode.indexStoredBlocks.toOption.get (by decide +kernel)

/-- With nothing indexed, nothing is linked to an indexed block. -/
theorem not_linked_blankNode {blocks : List Block} {hash : BlockHash} :
    ¬Linked (P := paqus) blocks (Indexed blankNode.forkChoice) hash := by
  intro h
  induction h with
  | start hstart => exact not_indexed_blankNode _ hstart
  | step _ _ ih => exact ih

end Reference

/-- The side branch is indexed. -/
theorem Node.indexStoredBlocks_closure_of_scattered :
    ∃ forkChoice, Reference.scatteredNode.indexStoredBlocks =
        .ok (Reference.scatteredNode.withIndex forkChoice) ∧
      Indexed forkChoice (Reference.paqus.block.hash (Reference.block 4 2 3 [])) := by
  obtain ⟨forkChoice, hindex, hclosure, -⟩ := (Node.indexStoredBlocks_closure
    Reference.loadBlocksByHash_scatteredNode).2 Reference.forkChoiceLaws
    Reference.insertable_scatteredBlocks
  refine ⟨forkChoice, hindex, (hclosure _).mpr ?_⟩
  have hfirst : Reference.block 3 1 1 [] ∈ Reference.scatteredBlocks := by decide +kernel
  have hsecond : Reference.block 4 2 3 [] ∈ Reference.scatteredBlocks := by decide +kernel
  have hgenesis : Indexed Reference.scatteredNode.forkChoice
      (Reference.paqus.block.previousHash (Reference.block 3 1 1 [])) := by
    unfold Indexed
    decide +kernel
  have hparent : Reference.paqus.block.previousHash (Reference.block 4 2 3 []) =
      Reference.paqus.block.hash (Reference.block 3 1 1 []) := by decide +kernel
  refine .step hsecond ?_
  rw [hparent]
  exact .step hfirst (.start (.inl hgenesis))

/-- With nothing indexed before, the stored genesis block is indexed, though no
parent of it leads to an indexed block. -/
theorem Node.stored_root_indexed :
    Reference.blankNode.storage.loadBlocksByHash = .ok [Reference.genesis] ∧
      Reference.blankNode.indexStoredBlocks = .ok Reference.replantedNode ∧
      Indexed Reference.replantedNode.forkChoice Reference.genesis.hash ∧
      ¬Linked (P := Reference.paqus) [Reference.genesis] (Indexed Reference.blankNode.forkChoice)
        Reference.genesis.hash := by
  refine ⟨?_, ?_, ?_, Reference.not_linked_blankNode⟩
  · exact Except.eq_ok_of_toOption (by decide +kernel)
  · exact Except.eq_ok_of_toOption (Option.some_get _).symm
  · unfold Indexed
    decide +kernel

end PaqusNode
