import PaqusNode.Base.Trace
import PaqusNode.Node.Run

/-!
# PaqusNode.Node.Tries

The blocks that one call of `apply_block` tries to connect: the block itself
and, if it is connected, the orphans of `process_orphans_for_parent`.  Only
these touch the active chain and the mempool; whatever else the call does is
bookkeeping.
-/

namespace PaqusNode

namespace Node

variable {P : Paqus}

/-- An orphan that has been tried goes back to the pool if its parent is
missing. -/
def returned (env : Env) (block : P.Block) : Node P × Except NodeError Unit → Node P
  | (s, .error (.forkChoice .missingParent)) => s.cacheOrphanBlock env block
  | (s, _) => s

/-- The blocks that a round of `process_orphans_for_parent` tries, each with
the node it is tried on. -/
def childTries (env : Env) (s : Node P) : List BlockHash → List (Node P × P.Block)
  | [] => []
  | childHash :: rest =>
      match s.orphanBlocks[childHash]? with
      | none => childTries env s rest
      | some orphan =>
          let s := { s with orphanBlocks := s.orphanBlocks.erase childHash }
          (s, orphan.block) ::
            childTries env (returned env orphan.block (s.applyKnownParentBlock env orphan.block))
              rest

/-- Those of all its rounds. -/
def parentTries (env : Env) (s : Node P) (parents : List BlockHash) : List (Node P × P.Block) :=
  match parents with
  | [] => []
  | parent :: parents =>
      match s.orphanChildrenByParent[parent]? with
      | none => parentTries env s parents
      | some children =>
          let s' := { s with orphanChildrenByParent := s.orphanChildrenByParent.erase parent }
          let r := processChildren env s' parents children
          childTries env s' children ++ parentTries env r.1 r.2
termination_by s.orphanBlocks.size + parents.length
decreasing_by
  · simp
  · have := processChildren_measure env children
      { s with orphanChildrenByParent := s.orphanChildrenByParent.erase parent } parents
    simp only [List.length_cons]
    simp only at this
    omega

/-- The blocks that `apply_block` tries. -/
def tries (env : Env) (s : Node P) (block : P.Block) : List (Node P × P.Block) :=
  (s.pruneOrphansNow env, block) ::
    match (s.pruneOrphansNow env).applyKnownParentBlock env block with
    | (s, .ok ()) => parentTries env (s.pruneOrphansNow env) [P.block.hash block]
    | _ => []

/-- The node after it has tried a block. -/
abbrev tried (env : Env) (s : Node P) (block : P.Block) : Node P :=
  (s.applyKnownParentBlock env block).1

/-! ## What else the call does -/

instance : IsTrans (Node P) OnlySync := ⟨fun _ _ _ => OnlySync.trans⟩

theorem returned_onlySync (env : Env) (block : P.Block)
    (result : Node P × Except NodeError Unit) : OnlySync result.1 (returned env block result) := by
  unfold returned
  split
  · exact cacheOrphanBlock_onlySync env _ block
  · exact .refl _

/-- A child that is found is tried, whatever becomes of it. -/
theorem processChildren_some (env : Env) {s : Node P} {child : BlockHash} {orphan : OrphanBlock P}
    (h : s.orphanBlocks[child]? = some orphan) (parents rest : List BlockHash) :
    ∃ parents', processChildren env s parents (child :: rest) =
      processChildren env (returned env orphan.block (applyKnownParentBlock env
        { s with orphanBlocks := s.orphanBlocks.erase child } orphan.block)) parents' rest := by
  rw [processChildren, h]
  simp only
  split
  · next heq => exact ⟨child :: parents, by rw [heq]; rfl⟩
  · next heq => exact ⟨parents, by rw [heq]; rfl⟩
  · next e hne heq =>
      refine ⟨parents, ?_⟩
      rw [heq, returned]
      exact fun h => hne (Except.error.inj h)

/-- The inner loop tries its children in order. -/
theorem processChildren_trace (env : Env) (children : List BlockHash) (s : Node P)
    (parents : List BlockHash) :
    Trace (tried env) OnlySync s (childTries env s children)
      (processChildren env s parents children).1 := by
  induction children generalizing s parents with
  | nil => exact .done (.refl s)
  | cons child rest ih =>
      cases horphan : s.orphanBlocks[child]? with
      | none =>
          simp only [processChildren, childTries, horphan]
          exact ih s parents
      | some orphan =>
          have htake : OnlySync s { s with orphanBlocks := s.orphanBlocks.erase child } :=
            ⟨rfl, rfl, rfl, rfl, rfl, rfl, rfl, rfl, Nat.le_refl _⟩
          obtain ⟨parents', hnext⟩ := processChildren_some env horphan parents rest
          simp only [childTries, horphan]
          rw [hnext]
          exact .next htake ((ih _ parents').cons_same (returned_onlySync env _ _))

/-- **The worklist tries the orphans in the order of `parentTries`.** -/
theorem processParents_trace (env : Env) (s : Node P) (parents : List BlockHash) :
    Trace (tried env) OnlySync s (parentTries env s parents) (s.processParents env parents) := by
  induction s, parents using processParents.induct env with
  | case1 s =>
      unfold processParents parentTries
      exact .done (.refl s)
  | case2 s parent parents hnone ih =>
      unfold processParents parentTries
      simp only [hnone]
      exact ih
  | case3 s parent parents children hsome r ih =>
      unfold processParents parentTries
      simp only [hsome]
      have htake : OnlySync s
          { s with orphanChildrenByParent := s.orphanChildrenByParent.erase parent } :=
        ⟨rfl, rfl, rfl, rfl, rfl, rfl, rfl, rfl, Nat.le_refl _⟩
      exact ((processChildren_trace env children _ parents).cons_same htake).append ih

/-- **A call of `apply_block` is its tries**, with bookkeeping in between. -/
theorem applyBlock_trace (env : Env) (s : Node P) (block : P.Block) :
    Trace (tried env) OnlySync s (s.tries env block) (s.applyBlock env block).1 := by
  refine .next (pruneOrphansNow_onlySync env s) ?_
  unfold applyBlock
  simp only [tried]
  rcases hconnect : (s.pruneOrphansNow env).applyKnownParentBlock env block with ⟨s', e | u⟩
  · refine .done ?_
    split
    · next heq => cases heq
    · next heq =>
        cases heq
        exact cacheOrphanBlock_onlySync env s' block
    all_goals
      next heq =>
        cases heq
        exact .refl s'
  · exact (processParents_trace env _ _).cons_same (pruneOrphansNow_onlySync env s')

end Node

end PaqusNode
