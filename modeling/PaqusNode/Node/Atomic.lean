import PaqusNode.Node.Requests

/-!
# PaqusNode.Node.Atomic

What a failed `apply_block` leaves behind.  A block that is rejected before
it enters the fork-choice index leaves the node as it was.  A block that has
entered the index stays in it, and the ledger, the mempool and the cache
have moved as well by the time the write to the database is tried; an error
of that write, or of a reorg that finds nothing to move to, undoes none of
it.
-/

namespace PaqusNode

namespace Node

variable {P : Paqus}

variable {env : Env} {s : Node P} {forkChoice : P.ForkChoice} {block : P.Block} {io : Nat}

/-! ## The property -/

/-- The chain, the mempool and the cache of `s` are as in `s₀`, and of the
orphans of `s₀` only those expired at `now` are gone. -/
structure Preserved (s₀ s : Node P) (now : UInt64) : Prop where
  ledger : s.ledger = s₀.ledger
  forkChoice : s.forkChoice = s₀.forkChoice
  mempool : s.mempool = s₀.mempool
  cache : s.cache = s₀.cache
  orphanBlocks : ∀ hash : BlockHash, s.orphanBlocks[hash]? =
    (s₀.orphanBlocks[hash]?).filter fun orphan => !s₀.orphanExpired now orphan

/-- An `apply_block` that fails leaves the node untouched. -/
def AtomicOnFailure (env : Env) (s : Node P) (block : P.Block) : Prop :=
  ∀ e, (s.applyBlock env block).2 = .error e →
    s.Preserved (s.applyBlock env block).1 (env.clock s.io)

/-! ## The last fallible step -/

/-- The ledger a reorg from `oldTip` to `bestTip` moves to. -/
def reorgLedger (forkChoice : P.ForkChoice) (genesisAccounts : BTreeMap Address P.Account)
    (oldTip : Option BlockHash) (bestTip : BlockHash) : Except NodeError P.Ledger :=
  match commonAncestor forkChoice oldTip bestTip with
  | none => .error .reorgRequired
  | some ancestor =>
  match P.forkChoice.branchFromAncestor forkChoice ancestor bestTip with
  | none => .error .reorgRequired
  | some _ => ledgerForBranchTip forkChoice genesisAccounts bestTip

/-- With `block` entered to give the index `forkChoice`, the write that
follows, as interaction `io`, succeeds; a block that wins from a side branch
also finds a ledger to move to (`apply_block` does not report a duplicate
found on the way). -/
structure Lands (env : Env) (io : Nat) (s : Node P) (block : P.Block)
    (forkChoice : P.ForkChoice) : Prop where
  side : (P.forkChoice.bestTip forkChoice).map ForkNode.hash ≠ some (P.block.hash block) →
    (s.storage.saveSideBlock env io block).2 = .ok ()
  extend : (P.forkChoice.bestTip forkChoice).map ForkNode.hash = some (P.block.hash block) →
    extendsActiveTip s.ledger block = true →
    ∀ ledger, P.ledger.applyBlock s.ledger block = .ok ledger →
      (s.storage.saveLedger env io ledger).2 = .ok ()
  reorg : (P.forkChoice.bestTip forkChoice).map ForkNode.hash = some (P.block.hash block) →
    extendsActiveTip s.ledger block = false →
    reorgLedger forkChoice s.genesisAccounts (P.ledger.tipHash s.ledger) (P.block.hash block) =
        .error (.ledger .duplicateBlock) ∨
      ∃ ledger, reorgLedger forkChoice s.genesisAccounts (P.ledger.tipHash s.ledger)
          (P.block.hash block) = .ok ledger ∧
        (s.storage.saveLedger env io ledger).2 = .ok ()

/-- `apply_block` does not report this result of `apply_known_parent_block`
as an error. -/
def Passed (result : Except NodeError Unit) : Prop :=
  result = .ok () ∨ result = .error (.ledger .duplicateBlock)

theorem saveLedger_snd (env : Env) (s : Node P) :
    (s.saveLedger env).2 = (s.storage.saveLedger env s.io s.ledger).2.mapError .storage := by
  unfold saveLedger
  split <;> simp_all [Except.mapError]

theorem saveSideBlock_snd (env : Env) (s : Node P) (block : P.Block) :
    (s.saveSideBlock env block).2 =
      (s.storage.saveSideBlock env s.io block).2.mapError .storage := by
  unfold saveSideBlock
  split <;> simp_all [Except.mapError]

/-- A write is reported exactly if it fails. -/
theorem passed_mapError_storage {result : Except StorageError Unit} :
    Passed (result.mapError .storage) ↔ result = .ok () := by
  cases result <;> simp [Passed, Except.mapError]

theorem reconnect_snd (env : Env) (oldBlocks : List P.Block) (bestTip : BlockHash)
    (result : Node P × Except NodeError Unit) :
    (reconnect env oldBlocks bestTip result).2 = result.2 := by
  obtain ⟨s, e | u⟩ := result
  · rfl
  · rfl

/-- A reorg with a genesis state ends as `reorgLedger` and the write after it
do. -/
theorem passed_reorgToBestTip (env : Env) {bestTip : ForkNode P.Block}
    (hfunded : s.genesisAccounts.isEmpty = false)
    (hbest : P.forkChoice.bestTip s.forkChoice = some bestTip) :
    Passed (s.reorgToBestTip env).2 ↔
      reorgLedger s.forkChoice s.genesisAccounts (P.ledger.tipHash s.ledger) bestTip.hash =
          .error (.ledger .duplicateBlock) ∨
        ∃ ledger, reorgLedger s.forkChoice s.genesisAccounts (P.ledger.tipHash s.ledger)
            bestTip.hash = .ok ledger ∧
          (s.storage.saveLedger env s.io ledger).2 = .ok () := by
  unfold reorgToBestTip reorgLedger
  simp only [hfunded, Bool.false_eq_true, if_false, hbest]
  cases commonAncestor s.forkChoice (P.ledger.tipHash s.ledger) bestTip.hash with
  | none => simp [Passed]
  | some ancestor =>
      simp only
      cases P.forkChoice.branchFromAncestor s.forkChoice ancestor bestTip.hash with
      | none => simp [Passed]
      | some branch =>
          simp only
          cases ledgerForBranchTip s.forkChoice s.genesisAccounts bestTip.hash with
          | error e => simp [Passed]
          | ok ledger =>
              simp only [reconnect_snd, saveLedger_snd, passed_mapError_storage]
              simp

/-! What it takes to land, by what the block does. -/

/-- A side block lands if it can be written. -/
theorem lands_side_iff
    (hbest : (P.forkChoice.bestTip forkChoice).map ForkNode.hash ≠ some (P.block.hash block)) :
    Lands env io s block forkChoice ↔ (s.storage.saveSideBlock env io block).2 = .ok () := by
  refine ⟨fun h => h.side hbest, fun h => ⟨fun _ => h, ?_, ?_⟩⟩
  · intro hbest' _
    exact absurd hbest' hbest
  · intro hbest' _
    exact absurd hbest' hbest

/-- On top of the active tip, only the write of the ledger can fail. -/
theorem lands_extend_iff {ledger : P.Ledger}
    (hbest : (P.forkChoice.bestTip forkChoice).map ForkNode.hash = some (P.block.hash block))
    (hextends : extendsActiveTip s.ledger block = true)
    (happly : P.ledger.applyBlock s.ledger block = .ok ledger) :
    Lands env io s block forkChoice ↔ (s.storage.saveLedger env io ledger).2 = .ok () := by
  refine ⟨fun h => h.extend hbest hextends ledger happly,
    fun h => ⟨fun hne => absurd hbest hne, ?_, ?_⟩⟩
  · intro _ _ ledger' happly'
    rw [happly, Except.ok.injEq] at happly'
    rwa [← happly']
  · intro _ hfalse
    rw [hextends] at hfalse
    cases hfalse

/-- From a side branch, replaying it can fail as well. -/
theorem lands_reorg_iff
    (hbest : (P.forkChoice.bestTip forkChoice).map ForkNode.hash = some (P.block.hash block))
    (hextends : extendsActiveTip s.ledger block = false) :
    Lands env io s block forkChoice ↔
      reorgLedger forkChoice s.genesisAccounts (P.ledger.tipHash s.ledger) (P.block.hash block) =
          .error (.ledger .duplicateBlock) ∨
        ∃ ledger, reorgLedger forkChoice s.genesisAccounts (P.ledger.tipHash s.ledger)
            (P.block.hash block) = .ok ledger ∧
          (s.storage.saveLedger env io ledger).2 = .ok () := by
  refine ⟨fun h => h.reorg hbest hextends,
    fun h => ⟨fun hne => absurd hbest hne, ?_, fun _ _ => h⟩⟩
  intro _ htrue
  rw [hextends] at htrue
  cases htrue

/-- **Connecting a valid block is reported exactly if it does not land.** -/
theorem passed_connect (env : Env) (forkChoice : P.ForkChoice)
    (hstate : s.validateBlockStateForKnownParent block = .ok ()) :
    Passed (connect env { s.tick with forkChoice := forkChoice } block (P.block.hash block)).2 ↔
      Lands env (s.io + 1) s block forkChoice := by
  by_cases hbest : (P.forkChoice.bestTip forkChoice).map ForkNode.hash = some (P.block.hash block)
  · cases hextends : extendsActiveTip s.ledger block with
    | true =>
        obtain ⟨ledger, happly⟩ : ∃ ledger, P.ledger.applyBlock s.ledger block = .ok ledger := by
          unfold validateBlockStateForKnownParent at hstate
          rw [if_pos hextends] at hstate
          split at hstate
          · cases hstate
          split at hstate
          · cases hstate
          next ledger happly => exact ⟨ledger, happly⟩
        rw [lands_extend_iff hbest hextends happly]
        unfold connect
        simp only [hbest, ne_eq, not_true_eq_false, if_false, tick, hextends, if_true, extendTip,
          happly]
        rw [saveLedger_snd, passed_mapError_storage]
    | false =>
        obtain ⟨bestTip, hbestTip, hhash⟩ := Option.map_eq_some_iff.mp hbest
        have hfunded := genesisAccounts_of_valid hstate hextends
        have hconnect : connect env { s.tick with forkChoice := forkChoice } block
            (P.block.hash block) =
            reorgToBestTip env { s.tick with forkChoice := forkChoice } := by
          unfold connect
          simp only [hbest, ne_eq, not_true_eq_false, if_false, tick, hextends,
            Bool.false_eq_true]
        rw [hconnect, lands_reorg_iff hbest hextends, passed_reorgToBestTip env
          (s := { s.tick with forkChoice := forkChoice }) hfunded hbestTip, hhash]
        rfl
  · rw [lands_side_iff hbest]
    unfold connect
    rw [if_pos hbest, saveSideBlock_snd, passed_mapError_storage]
    rfl

/-! ## The whole call -/

/-- `apply_block` fails exactly as its first step does, and then it has done
nothing else. -/
theorem applyBlock_eq_error {e : NodeError} :
    (s.applyBlock env block).2 = .error e ↔
      ((s.pruneOrphansNow env).applyKnownParentBlock env block).2 = .error e ∧
        e ≠ .forkChoice .missingParent ∧ e ≠ .forkChoice .duplicateBlock ∧
        e ≠ .ledger .duplicateBlock := by
  unfold applyBlock
  split
  · next h => simp [h]
  · next h =>
      simp only [h, reduceCtorEq, Except.error.injEq, false_iff]
      rintro ⟨rfl, hne, -⟩
      exact hne rfl
  · next h =>
      simp only [h, reduceCtorEq, Except.error.injEq, false_iff]
      rintro ⟨rfl, -, hne, -⟩
      exact hne rfl
  · next h =>
      simp only [h, reduceCtorEq, Except.error.injEq, false_iff]
      rintro ⟨rfl, -, -, hne⟩
      exact hne rfl
  · next e' h₁ h₂ h₃ h =>
      simp only [h, Except.error.injEq]
      constructor
      · rintro rfl
        exact ⟨rfl, h₁, h₂, h₃⟩
      · exact And.left

/-- A call that fails ends with the step that connects the block. -/
theorem applyBlock_fst_of_error {e : NodeError} (h : (s.applyBlock env block).2 = .error e) :
    (s.applyBlock env block).1 =
      ((s.pruneOrphansNow env).applyKnownParentBlock env block).1 := by
  unfold applyBlock at h ⊢
  split at h
  · cases h
  · cases h
  · cases h
  · cases h
  · next hresult => rw [hresult]

/-- What landing depends on is the same before and after pruning. -/
theorem OnlySync.lands_iff {s' : Node P} (h : OnlySync s s') :
    Lands env io s' block forkChoice ↔ Lands env io s block forkChoice := by
  constructor
  · rintro ⟨hside, hextend, hreorg⟩
    rw [h.storage] at hside hextend hreorg
    rw [h.ledger] at hextend hreorg
    rw [h.genesisAccounts] at hreorg
    exact ⟨hside, hextend, hreorg⟩
  · rintro ⟨hside, hextend, hreorg⟩
    rw [← h.storage] at hside hextend hreorg
    rw [← h.ledger] at hextend hreorg
    rw [← h.genesisAccounts] at hreorg
    exact ⟨hside, hextend, hreorg⟩

/-- A block that is rejected before it enters the index changes nothing. -/
theorem preserved_of_rejected {e e' : NodeError} (h : (s.applyBlock env block).2 = .error e)
    (hreject : (s.pruneOrphansNow env).applyKnownParentBlock env block =
      ((s.pruneOrphansNow env).tick, .error e')) :
    s.Preserved (s.applyBlock env block).1 (env.clock s.io) := by
  have hsync := pruneOrphansNow_onlySync env s
  rw [applyBlock_fst_of_error h, hreject]
  refine ⟨hsync.ledger, hsync.forkChoice, hsync.mempool, hsync.cache, ?_⟩
  intro hash
  exact getElem?_pruneExpiredOrphans s.tick (env.clock s.io) hash

/-- **A failed `apply_block` is atomic exactly if the block, once it enters
the fork-choice index, lands.** -/
theorem atomicOnFailure_iff (hfc : ForkChoiceLaws P) (env : Env) (s : Node P) (block : P.Block) :
    AtomicOnFailure env s block ↔
      ∀ hash forkChoice,
        s.validateBlockForKnownParent (env.clock (s.io + 1)) block = .ok () →
        s.validateBlockStateForKnownParent block = .ok () →
        P.forkChoice.insertBlock s.forkChoice block = .ok (hash, forkChoice) →
        Lands env (s.io + 2) s block forkChoice := by
  have hsync := pruneOrphansNow_onlySync env s
  have hio := (pruneOrphansNow_requests env s).2.2.2
  constructor
  · intro hatomic hash forkChoice hvalid hstate hinsert
    obtain ⟨rfl, hfresh, -, hget⟩ := hfc.insert_ok hinsert
    rw [← hsync.validateBlockForKnownParent, ← hio] at hvalid
    rw [← hsync.validateBlockStateForKnownParent] at hstate
    rw [← hsync.forkChoice] at hinsert
    have happly : (s.pruneOrphansNow env).applyKnownParentBlock env block =
        connect env { (s.pruneOrphansNow env).tick with forkChoice := forkChoice } block
          (P.block.hash block) := by
      unfold applyKnownParentBlock
      simp only [hvalid, hstate, hinsert]
    have hlands := (passed_connect env forkChoice hstate).trans hsync.lands_iff
    rw [hio, ← happly] at hlands
    refine hlands.mp ?_
    cases hresult : ((s.pruneOrphansNow env).applyKnownParentBlock env block).2 with
    | ok u => exact .inl rfl
    | error e =>
        by_cases hdup : e = .ledger .duplicateBlock
        · exact .inr (by rw [hdup])
        have hindex := connect_ne_forkChoice env
          { (s.pruneOrphansNow env).tick with forkChoice := forkChoice } block
          (P.block.hash block)
        rw [← happly, hresult] at hindex
        have hne : ∀ error, e ≠ .forkChoice error := fun error heq => hindex error (by rw [heq])
        -- the error is reported, so the block cannot have entered the index
        have herror := applyBlock_eq_error.mpr ⟨hresult, hne _, hne _, hdup⟩
        have hsame := (hatomic e herror).forkChoice
        rw [applyBlock_fst_of_error herror, happly, connect_forkChoice] at hsame
        have hself := hget (P.block.hash block)
        rw [show forkChoice = s.forkChoice from hsame, hfresh, if_pos rfl] at hself
        cases hself
  · intro hlands e he
    rcases applyKnownParentBlock_cases env (s.pruneOrphansNow env) block with
      ⟨e', hreject⟩ | ⟨hash, forkChoice, hvalid, hstate, hinsert, happly⟩
    · exact preserved_of_rejected he hreject
    obtain ⟨rfl, -⟩ := hfc.insert_ok hinsert
    have hpassed := (passed_connect env forkChoice hstate).mpr
    rw [hsync.lands_iff, hio, ← happly] at hpassed
    rw [hio, hsync.validateBlockForKnownParent] at hvalid
    rw [hsync.validateBlockStateForKnownParent] at hstate
    rw [hsync.forkChoice] at hinsert
    obtain ⟨herror, -, -, hne⟩ := applyBlock_eq_error.mp he
    rcases hpassed (hlands _ forkChoice hvalid hstate hinsert) with hok | hdup
    · rw [hok] at herror
      cases herror
    · rw [hdup, Except.error.injEq] at herror
      exact absurd herror.symm hne

/-- The block extends the tip and every write fails: `apply_block` fails, and
the block is in the index and on the ledger. -/
theorem ledger_moved_by_failed_write :
    ¬AtomicOnFailure (Reference.stopAt 0) Reference.genesisNode (Reference.block 2 1 1 []) := by
  intro hatomic
  have hfailed := hatomic (.storage (.database 0)) (by decide +kernel)
  have hmoved : Reference.paqus.ledger.tipHash (Reference.genesisNode.applyBlock
      (Reference.stopAt 0) (Reference.block 2 1 1 [])).1.ledger ≠
      Reference.paqus.ledger.tipHash Reference.genesisNode.ledger := by
    decide +kernel
  exact hmoved (by rw [hfailed.ledger])

/-- A block of an unexpected height is rejected before the index sees it, and
a failure then changes nothing. -/
theorem atomicOnFailure_of_rejected_block :
    (Reference.genesisNode.applyBlock (Reference.stopAt 0) (Reference.block 2 2 1 [])).2 =
        .error (.consensus (.other 0)) ∧
      AtomicOnFailure (Reference.stopAt 0) Reference.genesisNode (Reference.block 2 2 1 []) :=
  ⟨by decide +kernel, (atomicOnFailure_iff Reference.forkChoiceLaws (Reference.stopAt 0)
    Reference.genesisNode (Reference.block 2 2 1 [])).mpr fun hash forkChoice hvalid _ _ =>
      absurd hvalid (by decide +kernel)⟩

end Node

end PaqusNode
