import PaqusNode.Mempool.Admission
import PaqusNode.Node.Restart
import PaqusNode.Node.Tries

/-!
# PaqusNode.Node.Confirm

The mempool when the active chain grows.  A block on top of the active tip
takes its own transactions out of the pool, by hash, and leaves those behind
that compete with one of them.
-/

namespace PaqusNode

variable {P : Paqus}

variable {env : Env} {s : Node P} {block : P.Block}

/-! ## Transactions of a chain are spent -/

section Laws

variable (hnonce : NonceLaws P)

include hnonce

/-- After a replay, every transaction of the chain has a nonce below that of
its sender's account. -/
theorem replay_spent {genesisAccounts : BTreeMap Address P.Account} {g : P.Block}
    {branch : List P.Block} {ledger : P.Ledger} (hfounded : Founded genesisAccounts g)
    (h : replay genesisAccounts g branch = .ok ledger) (hblock : block ∈ g :: branch)
    {t : P.SignedTransaction} (ht : t ∈ P.block.transactions block) :
    P.transaction.nonce t < nonceOf ledger.accounts (P.transaction.sender t) := by
  induction branch using List.reverseRecOn generalizing ledger with
  | nil =>
      obtain ⟨chain, happly⟩ := hfounded
      obtain rfl := List.mem_singleton.mp hblock
      rw [(replay_nil h).1]
      exact ((hnonce.apply_nonce happly _ _).mp ⟨t, ht, rfl, rfl⟩).2
  | append_singleton branch last ih =>
      obtain ⟨before, hbefore, happly⟩ := replay_concat.mp h
      rw [← List.cons_append, List.mem_append, List.mem_singleton] at hblock
      rcases hblock with hblock | rfl
      · exact UInt64.lt_of_lt_of_le (ih hbefore hblock) (hnonce.apply_nonce_le happly _)
      · exact ((hnonce.apply_nonce happly _ _).mp ⟨t, ht, rfl, rfl⟩).2

end Laws

namespace Node

/-! ## What a node always satisfies -/

/-- The invariant of a running node, the mempool included. -/
structure Sound (s : Node P) (g : P.Block) : Prop where
  synced : Synced s (P.block.hash g)
  root : (indexed s.forkChoice).item (P.block.hash g) = some g
  founded : Founded s.genesisAccounts g
  pool : s.mempool.WellFormed

/-- A block that applies to the ledger continues its chain. -/
theorem Synced.chain_concat (hfc : ForkChoiceLaws P) (hchain : ChainLaws P) {r : BlockHash}
    (hs : Synced s r) {ledger : P.Ledger}
    (hblock : P.ledger.applyBlock s.ledger block = .ok ledger) :
    ledger.chain.blocks.valuesList = s.ledger.chain.blocks.valuesList ++ [block] := by
  obtain ⟨g, branch, -, hreplay, -⟩ := hs.chain hfc
  have hreplay' := replay_concat.mpr ⟨_, hreplay, hblock⟩
  rw [(chainOf_of_foldlM hchain (replay_chain hchain hreplay)).1.values,
    (chainOf_of_foldlM hchain (replay_chain hchain hreplay')).1.values, List.cons_append]

/-- The offers a reorg makes to the mempool, `transactions` being those of
the disconnected blocks, each with the clock reading of its insertion. -/
def offers (env : Env) (io : Nat) (transactions : List P.SignedTransaction) :
    List (P.SignedTransaction × UInt64) :=
  (transactions.zipIdx io).map fun offer => (offer.1, env.clock offer.2)

/-- A reorg offers one transaction after the other to the pool. -/
theorem foldl_reinsert_eq (env : Env) (transactions : List P.SignedTransaction) (s : Node P) :
    transactions.foldl (reinsert env) s =
      { s with
        mempool := s.mempool.insertAll s.ledger (offers env s.io transactions)
        io := s.io + transactions.length } := by
  induction transactions generalizing s with
  | nil => rfl
  | cons t rest ih =>
      rw [List.foldl_cons, ih]
      simp only [reinsert, tick, offers, List.zipIdx_cons, List.map_cons, Mempool.insertAll,
        List.foldl_cons, List.length_cons, Nat.add_assoc, Nat.add_comm 1]

/-- Connecting a block keeps the pool well formed. -/
theorem applyKnownParentBlock_wellFormed (env : Env) (h : s.mempool.WellFormed) (block : P.Block) :
    (s.applyKnownParentBlock env block).1.mempool.WellFormed := by
  rcases applyKnownParentBlock_cases env s block with ⟨e, heq⟩ | ⟨hash, fc, -, -, -, heq⟩
  · rw [heq]
    exact h
  rw [heq]
  have hends := connect_connectsTo env { s.tick with forkChoice := fc } block hash
  generalize (connect env { s.tick with forkChoice := fc } block hash).1 = s' at hends ⊢
  cases hends with
  | refused => exact h
  | side => exact h
  | extended => exact h.removeConfirmed block
  | reorged =>
      rw [foldl_reinsert_eq]
      exact h.insertAll _ _

section Laws

variable (hfc : ForkChoiceLaws P) (hchain : ChainLaws P) (hrec : RecordLaws P)

include hfc hchain

/-- **One step keeps the node sound.** -/
theorem Step.sound {s' : Node P} {g : P.Block} (h : Sound s g) (hstep : Step env s s') :
    Sound s' g := by
  refine ⟨(hstep.synced hfc hchain h.synced).1, ?_, ?_, ?_⟩
  · cases hstep with
    | connect block =>
        rcases applyKnownParentBlock_connected hfc hchain env h.synced block with
          ⟨e, hrej⟩ | ⟨fc, parent, child, -, hinsert, -, hconn⟩
        · rw [hrej]
          exact h.root
        · rw [hconn.fields.1]
          exact (indexed_extends hfc hinsert).item h.root
    | save =>
        obtain ⟨storage, durable, hsave⟩ := saveLedger_fst env s
        rw [hsave]
        exact h.root
    | sync hsync =>
        rw [hsync.forkChoice]
        exact h.root
    | pool _ => exact h.root
  · rw [(hstep.grown hfc).genesisAccounts]
    exact h.founded
  · cases hstep with
    | connect block => exact applyKnownParentBlock_wellFormed env h.pool block
    | save =>
        obtain ⟨storage, durable, hsave⟩ := saveLedger_fst env s
        rw [hsave]
        exact h.pool
    | sync hsync =>
        rw [hsync.mempool]
        exact h.pool
    | pool hpool =>
        cases hpool with
        | prune now => exact h.pool.pruneExpired now
        | insert transaction now => exact h.pool.insertValidatedAt s.ledger transaction now

theorem Steps.sound {s' : Node P} {g : P.Block} (h : Sound s g) (hrun : Steps env s s') :
    Sound s' g :=
  hrun.invariant (Sound · g) (fun h hstep => hstep.sound hfc hchain h) h

include hrec

/-- **Every node is sound**, from the moment it is opened and whatever it is
asked to do. -/
theorem sound_of_written {E : Env → Prop} {db db' : Storage P} (hdb : Written E db) {io : Nat}
    {consensus : Consensus} (hopen : initOrLoad env io db consensus = (db', .ok s))
    (operations : List (Operation P)) : ∃ g, Sound (s.runAll env operations) g := by
  obtain ⟨_, _, g, _, _, hstored, hopened⟩ := hdb.opened hfc hchain hrec hopen
  refine ⟨g, (runAll_steps env operations s).sound hfc hchain ⟨hopened.synced, ?_, ?_, ?_⟩⟩
  · exact hopened.chained g List.mem_cons_self
  · rw [hopened.genesisAccounts]
    exact hstored.founded
  · rw [hopened.mempool]
    exact .new

end Laws

/-! ## Blocks that move the active tip -/

/-- `block` passes the checks, enters the index and is the best tip of what
the index is then. -/
structure Wins (env : Env) (s : Node P) (block : P.Block) (forkChoice : P.ForkChoice) : Prop where
  valid : s.validateBlockForKnownParent (env.clock s.io) block = .ok ()
  state : s.validateBlockStateForKnownParent block = .ok ()
  insert : P.forkChoice.insertBlock s.forkChoice block = .ok (P.block.hash block, forkChoice)
  best : (P.forkChoice.bestTip forkChoice).map ForkNode.hash = some (P.block.hash block)

/-- Whether it does. -/
def wins (env : Env) (s : Node P) (block : P.Block) : Bool :=
  match s.validateBlockForKnownParent (env.clock s.io) block,
    s.validateBlockStateForKnownParent block, P.forkChoice.insertBlock s.forkChoice block with
  | .ok (), .ok (), .ok (_, forkChoice) =>
      (P.forkChoice.bestTip forkChoice).map ForkNode.hash == some (P.block.hash block)
  | _, _, _ => false

/-- The test for a block that wins. -/
theorem wins_eq_true (hfc : ForkChoiceLaws P) :
    s.wins env block = true ↔ ∃ forkChoice, Wins env s block forkChoice := by
  constructor
  · intro h
    unfold wins at h
    split at h
    · next forkChoice hvalid hstate hinsert =>
        obtain rfl := (hfc.insert_ok hinsert).1
        exact ⟨forkChoice, hvalid, hstate, hinsert, eq_of_beq h⟩
    · cases h
  · rintro ⟨forkChoice, hvalid, hstate, hinsert, hbest⟩
    simp [wins, hvalid, hstate, hinsert, hbest]

/-- A block that does not win leaves the ledger and the pool alone. -/
theorem tried_of_not_wins (hfc : ForkChoiceLaws P) (h : s.wins env block = false) :
    (s.tried env block).ledger = s.ledger ∧ (s.tried env block).mempool = s.mempool := by
  rcases applyKnownParentBlock_cases env s block with
    ⟨e, heq⟩ | ⟨hash, fc, hvalid, hstate, hinsert, heq⟩
  · rw [tried, heq]
    exact ⟨rfl, rfl⟩
  obtain rfl := (hfc.insert_ok hinsert).1
  have hbest : (P.forkChoice.bestTip fc).map ForkNode.hash ≠ some (P.block.hash block) := by
    intro hbest
    rw [(wins_eq_true hfc).mpr ⟨fc, hvalid, hstate, hinsert, hbest⟩] at h
    cases h
  obtain ⟨storage, durable, hsave⟩ := saveSideBlock_fst env { s.tick with forkChoice := fc } block
  rw [tried, heq, connect, if_pos hbest, hsave]
  exact ⟨rfl, rfl⟩

/-- A block that wins extends the tip or starts a reorg. -/
theorem Wins.applyKnownParentBlock_eq {forkChoice : P.ForkChoice}
    (h : Wins env s block forkChoice) :
    s.applyKnownParentBlock env block = if extendsActiveTip s.ledger block
      then extendTip env { s.tick with forkChoice := forkChoice } block
      else reorgToBestTip env { s.tick with forkChoice := forkChoice } := by
  unfold applyKnownParentBlock
  simp only [h.valid, h.state, h.insert, connect]
  rw [if_neg (not_not.mpr h.best)]
  rfl

/-- A block that wins on top of the active tip is applied to the ledger, and
its transactions leave the pool, also if the ledger cannot be written. -/
theorem Wins.extended {forkChoice : P.ForkChoice} (h : Wins env s block forkChoice)
    (hextends : extendsActiveTip s.ledger block = true) :
    P.ledger.applyBlock s.ledger block = .ok (s.tried env block).ledger ∧
      (s.tried env block).mempool = s.mempool.removeConfirmed block := by
  have hstate := h.state
  unfold validateBlockStateForKnownParent at hstate
  rw [if_pos hextends] at hstate
  split at hstate
  · cases hstate
  split at hstate
  · cases hstate
  next ledger happly =>
  obtain ⟨storage, durable, hsave⟩ := saveLedger_fst env { { s.tick with forkChoice := forkChoice }
    with
    ledger := ledger
    mempool := s.mempool.removeConfirmed block
    cache := refreshCache s.cache ledger block }
  rw [tried, h.applyKnownParentBlock_eq, if_pos hextends, extendTip]
  simp only [tick, happly] at hsave ⊢
  rw [hsave]
  exact ⟨rfl, rfl⟩

/-- `block` is accepted and becomes the best tip; `onTip` says whether it
sits on the active tip or takes over from another branch. -/
structure MovesTip (env : Env) (s : Node P) (block : P.Block) (onTip : Bool) : Prop where
  ok : (s.applyKnownParentBlock env block).2 = .ok ()
  onTip : extendsActiveTip s.ledger block = onTip
  best : (P.forkChoice.bestTip (s.applyKnownParentBlock env block).1.forkChoice).map
    ForkNode.hash = some (P.block.hash block)

/-- A block that moves the tip wins. -/
theorem MovesTip.wins (hfc : ForkChoiceLaws P) {onTip : Bool} (h : s.MovesTip env block onTip) :
    ∃ forkChoice, Wins env s block forkChoice := by
  have hok := h.ok
  have hbest := h.best
  rcases applyKnownParentBlock_cases env s block with
    ⟨e, heq⟩ | ⟨hash, fc, hvalid, hstate, hinsert, heq⟩
  · rw [heq] at hok
    cases hok
  obtain rfl := (hfc.insert_ok hinsert).1
  rw [heq, connect_forkChoice] at hbest
  exact ⟨fc, hvalid, hstate, hinsert, hbest⟩

/-! ## Orphans that wait for nothing -/

theorem foldl_removeOrphan_children {hash : BlockHash} (hashes : List BlockHash)
    (h : s.orphanChildrenByParent[hash]? = none) :
    (hashes.foldl removeOrphan s).orphanChildrenByParent[hash]? = none := by
  refine foldl_removeOrphan_invariant (fun s => s.orphanChildrenByParent[hash]? = none) ?_ hashes h
  intro s k h
  simp [removeOrphan, removeOrphanIndex, Std.ExtTreeMap.getElem?_filterMap, h]

/-- Without an orphan waiting for the block, `apply_block` connects that
block only. -/
theorem applyBlock_of_no_orphans (env : Env)
    (hok : ((s.pruneOrphansNow env).applyKnownParentBlock env block).2 = .ok ())
    (hnone : s.orphanChildrenByParent[P.block.hash block]? = none) :
    OnlySync ((s.pruneOrphansNow env).applyKnownParentBlock env block).1
      (s.applyBlock env block).1 := by
  have hkept := (applyKnownParentBlock_onlyChain env (s.pruneOrphansNow env) block)
    |>.orphanChildrenByParent
  unfold applyBlock
  rcases hconnect : (s.pruneOrphansNow env).applyKnownParentBlock env block with ⟨s', e | u⟩
  · rw [hconnect] at hok
    cases hok
  rw [hconnect] at hkept
  have hnone' : (s'.pruneOrphansNow env).orphanChildrenByParent[P.block.hash block]? = none := by
    refine foldl_removeOrphan_children _ ?_
    simp only [tick]
    rw [hkept]
    exact foldl_removeOrphan_children _ hnone
  simp only [processOrphansForParent]
  unfold processParents
  simp only [hnone']
  unfold processParents
  exact pruneOrphansNow_onlySync env s'

/-! ## A block on top of the active tip -/

/-- No pooled transaction has a nonce its sender's account has passed. -/
def PoolCurrent (s : Node P) : Prop :=
  ∀ pooled ∈ s.mempool.transactions.toList,
    nonceOf s.ledger.accounts (P.transaction.sender pooled.2.transaction) ≤
      P.transaction.nonce pooled.2.transaction

/-- Every pooled transaction that competes with one of the block is itself in
the block. -/
def ConflictsInBlock (pool : Mempool P) (block : P.Block) : Prop :=
  ∀ pooled ∈ pool.transactions.toList,
    (∃ t ∈ P.block.transactions block, Mempool.SameSlot t pooled.2.transaction) →
    ∃ t ∈ P.block.transactions block, P.transaction.hash t = pooled.1

instance (s : Node P) : Decidable s.PoolCurrent :=
  inferInstanceAs (Decidable (∀ pooled ∈ s.mempool.transactions.toList, _ ≤ _))

instance (pool : Mempool P) (block : P.Block) : Decidable (ConflictsInBlock pool block) :=
  inferInstanceAs (Decidable (∀ pooled ∈ pool.transactions.toList, _ → _))

/-- The transactions at hand: the pooled ones, those of the block and those of
the indexed blocks. -/
def atHand (s : Node P) (block : P.Block) : Set P.SignedTransaction :=
  {t | (∃ (hash : TransactionHash) (entry : MempoolEntry P),
        s.mempool.transactions[hash]? = some entry ∧ entry.transaction = t) ∨
      t ∈ P.block.transactions block ∨
      ∃ hash b, (indexed s.forkChoice).item hash = some b ∧ t ∈ P.block.transactions b}

/-- A pooled transaction that has the hash of one at hand is that one. -/
theorem pooled_eq (hwf : s.mempool.WellFormed)
    (hapart : Set.InjOn P.transaction.hash (s.atHand block)) {entry : MempoolEntry P}
    {t : P.SignedTransaction} (ht : t ∈ s.atHand block)
    (hentry : s.mempool.transactions[P.transaction.hash t]? = some entry) : entry.transaction = t :=
  hapart (.inl ⟨_, entry, hentry, rfl⟩) ht (hwf.keyed hentry)

/-- After a block on top of the active tip the pool is current exactly if it
was before and nothing in it competed with the block: what the ledger has
passed is in no block that applies, so it stays. -/
theorem Wins.poolCurrent_iff (hnonce : NonceLaws P) {forkChoice : P.ForkChoice}
    (hwf : s.mempool.WellFormed) (hapart : Set.InjOn P.transaction.hash (s.atHand block))
    (h : Wins env s block forkChoice) (hextends : extendsActiveTip s.ledger block = true) :
    (s.tried env block).PoolCurrent ↔ s.PoolCurrent ∧ ConflictsInBlock s.mempool block := by
  obtain ⟨happly, hpool⟩ := h.extended hextends
  unfold PoolCurrent ConflictsInBlock
  simp only [hpool, Prod.forall, Std.ExtTreeMap.mem_toList_iff_getElem?_eq_some,
    Mempool.getElem?_removeConfirmed, ← forall_and]
  refine forall_congr' fun hash => forall_congr' fun entry => ?_
  have hslot := hnonce.apply_nonce happly (P.transaction.sender entry.transaction)
    (P.transaction.nonce entry.transaction)
  by_cases hin : ∃ t ∈ P.block.transactions block, P.transaction.hash t = hash
  · -- it is in the block, which applies, so the ledger had not passed it
    simp only [hin, if_true, reduceCtorEq, false_imp_iff, imp_true_iff, and_true, true_iff]
    intro hentry
    obtain ⟨t, ht, rfl⟩ := hin
    have heq := pooled_eq hwf hapart (.inr (.inl ht)) hentry
    exact (hslot.mp ⟨t, ht, by rw [heq], by rw [heq]⟩).1
  · simp only [hin, if_false, imp_false]
    refine imp_congr_right fun _ => ?_
    have hle := hnonce.apply_nonce_le happly (P.transaction.sender entry.transaction)
    simp only [Mempool.SameSlot, hslot, not_and, UInt64.not_lt]
    exact ⟨fun hcurrent => ⟨UInt64.le_trans hle hcurrent, fun _ => hcurrent⟩,
      fun ⟨hold, hnew⟩ => hnew hold⟩

end Node

end PaqusNode
