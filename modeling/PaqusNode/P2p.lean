import PaqusNode.Node.Atomic

/-!
# PaqusNode.P2p

Fetching missing parents from a peer (`p2p.rs`).  The queue of requests is
drained first; then the hashes are requested one by one, and the first
failure puts its hash back into the queue and ends the call.  The hashes
after it are neither requested nor queued again.
-/

namespace PaqusNode

/-- A message of the peer: a block, or anything else. -/
inductive NetworkMessage (P : Paqus)
  | block (block : P.Block)
  | other

/-- Why a request for a block failed; the source formats these as texts. -/
inductive RequestError where
  /-- What `peer.request` returned. -/
  | request (error : String)
  /-- `peer did not return block hash ..`. -/
  | notABlock (hash : BlockHash)
  /-- `failed to apply missing parent from ..`. -/
  | apply (error : NodeError)
  /-- `failed to flush missing parent block`. -/
  | flush (error : NodeError)
deriving DecidableEq, Repr

namespace Node

variable {P : Paqus}

variable (P) in
/-- A peer: what it replies to each request of the call, in their order. -/
abbrev Peer : Type := Nat → Except String (NetworkMessage P)

/-! ## The code -/

/-- `request_block_by_hash`, `reply` being what the peer answers. -/
def requestBlockByHash (env : Env) (s : Node P) (hash : BlockHash)
    (reply : Except String (NetworkMessage P)) : Node P × Except RequestError Unit :=
  match reply with
  | .error e => (s, .error (.request e))
  | .ok .other => (s, .error (.notABlock hash))
  | .ok (.block block) =>
      match s.applyBlock env block with
      | (s, .error e) => (s, .error (.apply e))
      | (s, .ok ()) =>
          match s.flushToStorage env with
          | (s, .error e) => (s, .error (.flush e))
          | (s, .ok ()) => (s, .ok ())

/-- The loop of `request_missing_parent_blocks`; `i` counts the requests. -/
def requestHashes (env : Env) (peer : Peer P) (s : Node P) (i : Nat) :
    List BlockHash → Node P × Except RequestError Unit
  | [] => (s, .ok ())
  | hash :: rest =>
      match s.requestBlockByHash env hash (peer i) with
      | (s, .error e) => (s.retryMissingParentRequest env hash, .error e)
      | (s, .ok ()) => requestHashes env peer s (i + 1) rest

/-- `request_missing_parent_blocks`. -/
def requestMissingParentBlocks (env : Env) (peer : Peer P) (s : Node P) :
    Node P × Except RequestError Bool :=
  let (s, hashes) := s.drainMissingParentRequests env
  match requestHashes env peer s 0 hashes with
  | (s, .error e) => (s, .error e)
  | (s, .ok ()) => (s, .ok (!hashes.isEmpty))

end Node

namespace Reference

end Reference

namespace Node

variable {P : Paqus}

/-! ## What must not be lost -/

/-- The block is in the fork-choice index or in the orphan pool. -/
def Holds (s : Node P) (hash : BlockHash) : Prop :=
  P.forkChoice.contains s.forkChoice hash = true ∨ s.orphanBlocks.contains hash = true

/-- The node has the block, or will ask for it again. -/
def Remembers (s : Node P) (hash : BlockHash) : Prop :=
  s.Holds hash ∨ hash ∈ s.missingParentRequests

instance (s : Node P) (hash : BlockHash) : Decidable (s.Holds hash) :=
  inferInstanceAs (Decidable (_ ∨ _))

instance (s : Node P) (hash : BlockHash) : Decidable (s.Remembers hash) :=
  inferInstanceAs (Decidable (_ ∨ _))

/-- The reply is the requested block, and it is valid on its branch. -/
def Connectable (env : Env) (s : Node P) (hash : BlockHash)
    (reply : Except String (NetworkMessage P)) : Prop :=
  ∃ block, reply = .ok (.block block) ∧ P.block.hash block = hash ∧
    s.validateBlockForKnownParent (env.clock (s.io + 1)) block = .ok () ∧
    s.validateBlockStateForKnownParent block = .ok ()

/-- Every request that succeeds is answered with the requested block, which is
valid on its branch. -/
def Honest (env : Env) (peer : Peer P) : Node P → Nat → List BlockHash → Prop
  | _, _, [] => True
  | s, i, hash :: rest =>
      match s.requestBlockByHash env hash (peer i) with
      | (_, .error _) => True
      | (s', .ok ()) => s.Connectable env hash (peer i) ∧ Honest env peer s' (i + 1) rest

/-- When a request fails, the node has all the blocks it would have asked for
after it, or asks for them anyway. -/
def Complete (env : Env) (peer : Peer P) : Node P → Nat → List BlockHash → Prop
  | _, _, [] => True
  | s, i, hash :: rest =>
      match s.requestBlockByHash env hash (peer i) with
      | (s', .error _) => ∀ later ∈ rest, s'.Remembers later
      | (s', .ok ()) => Complete env peer s' (i + 1) rest

/-- Every request that succeeds leaves its block in the fork-choice index, or
the replies to the later ones leave it in the pool or in the queue. -/
def Answered (env : Env) (peer : Peer P) : Node P → Nat → List BlockHash → Prop
  | _, _, [] => True
  | s, i, hash :: rest =>
      match s.requestBlockByHash env hash (peer i) with
      | (_, .error _) => True
      | (s', .ok ()) =>
          (P.forkChoice.contains s'.forkChoice hash = true ∨
            (requestHashes env peer s' (i + 1) rest).1.Remembers hash) ∧
          Answered env peer s' (i + 1) rest

/-- A request by hash is a sequence of steps. -/
theorem requestBlockByHash_steps (env : Env) (s : Node P) (hash : BlockHash)
    (reply : Except String (NetworkMessage P)) :
    Steps env s (s.requestBlockByHash env hash reply).1 := by
  unfold requestBlockByHash
  split
  · exact .refl
  · exact .refl
  next block =>
  have happly := applyBlock_steps env s block
  split
  · next s' e hs =>
      rw [hs] at happly
      exact happly
  next s' hs =>
  rw [hs] at happly
  have hflush := happly.tail (.save s')
  unfold flushToStorage
  split
  · next hsave =>
      rw [hsave] at hflush
      exact hflush
  · next hsave =>
      rw [hsave] at hflush
      exact hflush

theorem Synced.drainMissingParentRequests {s : Node P} {r : BlockHash} (h : Synced s r)
    (env : Env) : Synced (s.drainMissingParentRequests env).1 r :=
  h.congr rfl rfl rfl

section Laws

variable (hfc : ForkChoiceLaws P) (hchain : ChainLaws P)

include hfc

/-- A request by hash keeps the books. -/
theorem Bookkept.requestBlockByHash {s : Node P} (h : s.Bookkept) (env : Env) (hash : BlockHash)
    (reply : Except String (NetworkMessage P)) :
    (s.requestBlockByHash env hash reply).1.Bookkept := by
  unfold Node.requestBlockByHash
  split
  · exact h
  · exact h
  next block =>
  have happly := h.applyBlock hfc env block
  split
  · next s' e hs =>
      rw [hs] at happly
      exact happly
  next s' hs =>
  rw [hs] at happly
  have hflush := happly.saveLedger env
  unfold flushToStorage
  split
  · next hsave =>
      rw [hsave] at hflush
      exact hflush
  · next hsave =>
      rw [hsave] at hflush
      exact hflush

include hchain

/-- A valid block that `apply_block` takes is in the index after the call. -/
theorem applyBlock_known_of_valid {env : Env} {s : Node P} {r : BlockHash} (hs : Synced s r)
    {block : P.Block} (hvalid : s.validateBlockForKnownParent (env.clock (s.io + 1)) block = .ok ())
    (hstate : s.validateBlockStateForKnownParent block = .ok ())
    (hok : (s.applyBlock env block).2 = .ok ()) :
    (P.forkChoice.get (s.applyBlock env block).1.forkChoice (P.block.hash block)).isSome := by
  have hsync := pruneOrphansNow_onlySync env s
  obtain ⟨_, _, happlies⟩ := applies_of_valid hs hstate
  obtain ⟨parent, hparent, -⟩ := validateBlockForKnownParent_ok (happlies.height_ne hchain) hvalid
  rw [← hsync.validateBlockForKnownParent, ← (pruneOrphansNow_requests env s).2.2.2] at hvalid
  rw [← hsync.validateBlockStateForKnownParent] at hstate
  rw [← hsync.forkChoice] at hparent
  refine (applyBlock_steps_of_connect env s block).known hfc ?_
  cases hinsert : P.forkChoice.insertBlock (s.pruneOrphansNow env).forkChoice block with
  | ok inserted =>
      obtain ⟨hash, forkChoice⟩ := inserted
      obtain ⟨rfl, -, -, hget⟩ := hfc.insert_ok hinsert
      unfold applyKnownParentBlock
      simp only [hvalid, hstate, hinsert, connect_forkChoice]
      rw [hget, if_pos rfl]
      rfl
  | error e =>
      have hreject : (s.pruneOrphansNow env).applyKnownParentBlock env block =
          ((s.pruneOrphansNow env).tick, .error (.forkChoice e)) := by
        unfold applyKnownParentBlock
        simp only [hvalid, hstate, hinsert]
      have hmissing : e ≠ .missingParent := by
        rintro rfl
        rw [(hfc.insert_missing hinsert).2] at hparent
        cases hparent
      by_cases hduplicate : e = .duplicateBlock
      · subst hduplicate
        rw [hreject]
        exact hfc.insert_duplicate hinsert
      · have hfail := applyBlock_eq_error.mpr ⟨congrArg Prod.snd hreject,
          fun heq => hmissing (NodeError.forkChoice.inj heq),
          fun heq => hduplicate (NodeError.forkChoice.inj heq), nofun⟩
        rw [hok] at hfail
        cases hfail

/-- A request that succeeds with a valid block leaves it in the index. -/
theorem requestBlockByHash_of_connectable {env : Env} {s s' : Node P} {r : BlockHash}
    (hs : Synced s r) {hash : BlockHash} {reply : Except String (NetworkMessage P)}
    (h : s.Connectable env hash reply)
    (hok : s.requestBlockByHash env hash reply = (s', .ok ())) :
    P.forkChoice.contains s'.forkChoice hash = true := by
  obtain ⟨block, rfl, rfl, hvalid, hstate⟩ := h
  unfold requestBlockByHash at hok
  simp only at hok
  split at hok
  · cases hok
  next s₁ happly =>
  have hknown := applyBlock_known_of_valid hfc hchain hs hvalid hstate (by rw [happly])
  rw [happly] at hknown
  split at hok
  · cases hok
  next s₂ hflush =>
  obtain rfl : s₂ = s' := congrArg Prod.fst hok
  have hsaved : Step env s₁ (s₁.saveLedger env).1 := .save s₁
  rw [show s₁.saveLedger env = (s₂, .ok ()) from hflush] at hsaved
  rw [hfc.contains_eq]
  exact Steps.known hfc (.single hsaved) hknown

/-- An honest peer answers whatever it does not leave open. -/
theorem Honest.answered {env : Env} {peer : Peer P} {hashes : List BlockHash} {s : Node P}
    {i : Nat} {r : BlockHash} (h : Honest env peer s i hashes) (hs : Synced s r) :
    Answered env peer s i hashes := by
  induction hashes generalizing s i with
  | nil => trivial
  | cons hash rest ih =>
      have hs' := (requestBlockByHash_steps env s hash (peer i)).synced hfc hchain hs
      unfold Honest at h
      unfold Answered
      rcases hreq : s.requestBlockByHash env hash (peer i) with ⟨s', e | u⟩
      · trivial
      · rw [hreq] at h hs'
        exact ⟨.inl (requestBlockByHash_of_connectable hfc hchain hs h.1 hreq), ih h.2 hs'⟩

end Laws

end Node

end PaqusNode
