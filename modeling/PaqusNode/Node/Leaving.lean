import PaqusNode.Node.Confirm
import PaqusNode.Node.Orphans

/-!
# PaqusNode.Node.Leaving

How a pending transaction leaves the pool.  Blocks arrive from anybody, the
active chain moves, the pool is pruned and refilled; but through all of it a
pending entry goes for one of three reasons only: its time is over, a dearer
transaction takes its place, or a block of the index holds it.  Nothing is
dropped to make room.

Every operation is followed down to what it does to the pool (`PoolMove`), with
the times it reads, the transactions it offers and the blocks it confirms kept
in view (`Causes`).
-/

namespace PaqusNode

variable {P : Paqus}

/-! ## Pools -/

/-- What can act on a pool. -/
structure Causes (P : Paqus) where
  times : UInt64 → Prop
  offers : P.SignedTransaction → Prop
  blocks : P.Block → Prop

/-- `c` allows no more than `c'`. -/
structure Causes.Le (c c' : Causes P) : Prop where
  times : ∀ {now}, c.times now → c'.times now
  offers : ∀ {t}, c.offers t → c'.offers t
  blocks : ∀ {block}, c.blocks block → c'.blocks block

namespace Mempool

/-- One thing the node does to its pool. -/
inductive PoolMove (c : Causes P) : Mempool P → Mempool P → Prop
  | prune {pool : Mempool P} {now : UInt64} (hnow : c.times now) :
      PoolMove c pool (pool.pruneExpired now)
  | offer {pool : Mempool P} (ledger : P.Ledger) {t : P.SignedTransaction} {now : UInt64}
      (ht : c.offers t) (hnow : c.times now) :
      PoolMove c pool (pool.insertValidatedAt ledger t now).1
  | confirm {pool : Mempool P} {block : P.Block} (hblock : c.blocks block) :
      PoolMove c pool (pool.removeConfirmed block)

/-- Any number of these. -/
abbrev PoolMoves (c : Causes P) : Mempool P → Mempool P → Prop :=
  Relation.ReflTransGen (PoolMove c)

/-- Why an entry leaves a pool. -/
inductive Leaves (c : Causes P) (config : MempoolConfig) (hash : TransactionHash)
    (entry : MempoolEntry P) : Prop
  | expired {now : UInt64} (hnow : c.times now) (hold : retained config now entry = false)
  | outbid {t : P.SignedTransaction} (ht : c.offers t) (hslot : SameSlot entry.transaction t)
      (hfee : P.transaction.fee entry.transaction < P.transaction.fee t)
  | confirmed {block : P.Block} {t : P.SignedTransaction} (hblock : c.blocks block)
      (ht : t ∈ P.block.transactions block) (hhash : P.transaction.hash t = hash)

variable {c c' : Causes P} {pool pool' : Mempool P}

theorem PoolMove.mono (h : PoolMove c pool pool') (hle : c.Le c') : PoolMove c' pool pool' := by
  cases h with
  | prune hnow => exact .prune (hle.times hnow)
  | offer ledger ht hnow => exact .offer ledger (hle.offers ht) (hle.times hnow)
  | confirm hblock => exact .confirm (hle.blocks hblock)

theorem PoolMoves.mono (h : PoolMoves c pool pool') (hle : c.Le c') : PoolMoves c' pool pool' :=
  Relation.ReflTransGen.mono (fun _ _ hmove => PoolMove.mono hmove hle) _ _ h

theorem PoolMove.config (h : PoolMove c pool pool') : pool'.config = pool.config := by
  cases h with
  | prune _ => rfl
  | offer ledger _ _ => exact insertValidatedAt_config ..
  | confirm _ => rfl

theorem PoolMoves.config (h : PoolMoves c pool pool') : pool'.config = pool.config := by
  induction h with
  | refl => rfl
  | tail _ hmove ih => exact hmove.config.trans ih

section Leaving

variable {hash : TransactionHash} {entry : MempoolEntry P}

theorem retained_of_gone {now : UInt64} (hpending : pool.transactions[hash]? = some entry)
    (hgone : (pool.pruneExpired now).transactions[hash]? ≠ some entry) :
    retained pool.config now entry = false := by
  rw [ne_eq, getElem?_pruneExpired, Option.filter_eq_some_iff, not_and, Bool.not_eq_true] at hgone
  exact hgone hpending

/-- **What one change takes away, it takes for a reason.** -/
theorem PoolMove.leaves (h : PoolMove c pool pool')
    (hpending : pool.transactions[hash]? = some entry)
    (hgone : pool'.transactions[hash]? ≠ some entry) : Leaves c pool.config hash entry := by
  cases h with
  | prune hnow => exact .expired hnow (retained_of_gone hpending hgone)
  | @offer ledger t now ht hnow =>
      by_cases hkept : (pool.pruneExpired now).transactions[hash]? = some entry
      · rcases insertValidatedAt_cases pool ledger t now with
          heq | ⟨replacement, hreplacement, -, hinserted⟩
        · rw [heq] at hgone
          exact absurd hkept hgone
        · rw [hinserted.lookup] at hgone
          split at hgone
          · next hhash =>
              subst hhash
              rw [hinserted.fresh] at hkept
              cases hkept
          split at hgone
          · next hreplaced =>
              rcases replacementCandidate_ok hreplacement with
                ⟨hnone, -⟩ | ⟨hash', entry', hsome, hentry', hslot, hfee⟩
              · rw [hnone] at hreplaced
                cases hreplaced
              · rw [hsome, Option.some.injEq] at hreplaced
                subst hreplaced
                rw [hkept, Option.some.injEq] at hentry'
                subst hentry'
                exact .outbid ht hslot hfee
          · exact absurd hkept hgone
      · exact .expired hnow (retained_of_gone hpending hkept)
  | confirm hblock =>
      rw [getElem?_removeConfirmed] at hgone
      split at hgone
      · next hconfirmed =>
          obtain ⟨t, ht, hhash⟩ := hconfirmed
          exact .confirmed hblock ht hhash
      · exact absurd hpending hgone

/-- The same of any number of changes. -/
theorem PoolMoves.leaves (h : PoolMoves c pool pool')
    (hpending : pool.transactions[hash]? = some entry)
    (hgone : pool'.transactions[hash]? ≠ some entry) : Leaves c pool.config hash entry := by
  induction h with
  | refl => exact absurd hpending hgone
  | @tail middle last hmoves hmove ih =>
      by_cases hmiddle : middle.transactions[hash]? = some entry
      · have hleaves := hmove.leaves hmiddle hgone
        rwa [PoolMoves.config hmoves] at hleaves
      · exact ih hmiddle

end Leaving

/-- Offers that have a reason, one after the other. -/
theorem PoolMoves.insertAll (ledger : P.Ledger) {offers : List (P.SignedTransaction × UInt64)}
    (hoffers : ∀ offer ∈ offers, c.offers offer.1 ∧ c.times offer.2) (pool : Mempool P) :
    PoolMoves c pool (pool.insertAll ledger offers) := by
  induction offers generalizing pool with
  | nil => exact .refl
  | cons offer rest ih =>
      rw [List.forall_mem_cons] at hoffers
      exact (ih hoffers.2 _).head (.offer ledger hoffers.1.1 hoffers.1.2)

end Mempool

namespace Node

open Mempool

/-! ## The causes in a run -/

/-- What acts on the pool while `operations` take the node from `s` to `s'`:
the readings of the clock between them and of the miner, what is submitted,
and the blocks of the index with their transactions. -/
def causes (env : Env) (operations : List (Operation P)) (s s' : Node P) : Causes P where
  times now := (∃ io, s.io ≤ io ∧ io < s'.io ∧ env.clock io = now) ∨
    ∃ minerAddress maxAttempts limit, .mineBlock minerAddress now maxAttempts limit ∈ operations
  offers t := .submitTransaction t ∈ operations ∨
    ∃ block, (indexed s'.forkChoice).item (P.block.hash block) = some block ∧
      t ∈ P.block.transactions block
  blocks block := (indexed s'.forkChoice).item (P.block.hash block) = some block

/-- A longer run has more reasons. -/
theorem causes_le {env : Env} {operations : List (Operation P)} {s s' s'' : Node P}
    (hio : s'.io ≤ s''.io) (h : (indexed s'.forkChoice).Extends (indexed s''.forkChoice)) :
    (causes env operations s s').Le (causes env operations s s'') where
  times
    | .inl ⟨io, hstart, hstop, hnow⟩ => .inl ⟨io, hstart, Nat.lt_of_lt_of_le hstop hio, hnow⟩
    | .inr hmined => .inr hmined
  offers
    | .inl ht => .inl ht
    | .inr ⟨block, hblock, ht⟩ => .inr ⟨block, h.item hblock, ht⟩
  blocks hblock := h.item hblock

/-- `s'` comes from `s` in a run of `operations`. -/
structure Ran (env : Env) (operations : List (Operation P)) (r : BlockHash) (s s' : Node P) :
    Prop where
  synced : Synced s' r
  io : s.io ≤ s'.io
  moves : PoolMoves (causes env operations s s') s.mempool s'.mempool

section Laws

variable {env : Env} {operations : List (Operation P)} {r : BlockHash} {s s' : Node P}

theorem Ran.refl (hs : Synced s r) : Ran env operations r s s := ⟨hs, Nat.le_refl _, .refl⟩

/-- A node with the same ledger and index, later. -/
theorem Ran.later (h : Ran env operations r s s') {s'' : Node P} (hledger : s''.ledger = s'.ledger)
    (hfork : s''.forkChoice = s'.forkChoice) (haccounts : s''.genesisAccounts = s'.genesisAccounts)
    (hio : s'.io ≤ s''.io)
    (hmove : PoolMoves (causes env operations s s'') s'.mempool s''.mempool) :
    Ran env operations r s s'' where
  synced := h.synced.congr hledger hfork haccounts
  io := Nat.le_trans h.io hio
  moves := (h.moves.mono (causes_le hio (hfork ▸ .refl _))).trans hmove

theorem Ran.sync (h : Ran env operations r s s') {s'' : Node P} (hsync : OnlySync s' s'') :
    Ran env operations r s s'' :=
  h.later hsync.ledger hsync.forkChoice hsync.genesisAccounts hsync.io
    (hsync.mempool ▸ .refl)

theorem Ran.prune (h : Ran env operations r s s') {now : UInt64}
    (hnow : (causes env operations s s').times now) :
    Ran env operations r s { s' with mempool := s'.mempool.pruneExpired now } :=
  h.later rfl rfl rfl (Nat.le_refl _) (.single (.prune hnow))

theorem Ran.submit (h : Ran env operations r s s') {t : P.SignedTransaction}
    (ht : .submitTransaction t ∈ operations) :
    Ran env operations r s (s'.submitTransaction env t).1 :=
  h.later rfl rfl rfl (Nat.le_succ _)
    (.single (.offer s'.ledger (.inl ht) (.inl ⟨s'.io, h.io, Nat.lt_succ_self _, rfl⟩)))

theorem Ran.save (h : Ran env operations r s s') :
    Ran env operations r s (s'.saveLedger env).1 := by
  obtain ⟨storage, durable, hsave⟩ := saveLedger_fst env s'
  rw [hsave]
  exact h.later rfl rfl rfl (Nat.le_succ _) .refl

variable (hfc : ForkChoiceLaws P) (hchain : ChainLaws P)

include hfc hchain

/-- The blocks of the active chain are indexed. -/
theorem Synced.mem_chain (hs : Synced s r) {block : P.Block}
    (hblock : block ∈ s.ledger.chain.blocks.valuesList) :
    (indexed s.forkChoice).item (P.block.hash block) = some block := by
  obtain ⟨t, bs, htip, hbranch, -⟩ := hs.replayed
  obtain ⟨g, hg, -⟩ := hbranch.root_item
  rw [(hs.chainOf hfc hchain htip hbranch hg).values] at hblock
  exact indexed_of_mem_branch hfc hbranch hg hblock

/-- **Connecting a block** confirms it, offers the transactions of blocks that
are left behind, or leaves the pool alone. -/
theorem Ran.connect (h : Ran env operations r s s') (block : P.Block) :
    Ran env operations r s (s'.applyKnownParentBlock env block).1 := by
  have hsynced := ((Step.connect s' block : Step env s' _).synced hfc hchain h.synced).1
  have hgrown := (Step.connect s' block : Step env s' _).grown hfc
  refine ⟨hsynced, Nat.le_trans h.io hgrown.io,
    (h.moves.mono (causes_le hgrown.io hgrown.index)).trans ?_⟩
  rcases applyKnownParentBlock_cases env s' block with ⟨e, heq⟩ | ⟨hash, fc, -, -, hinsert, heq⟩
  · rw [heq]
    exact .refl
  have hextends := indexed_extends hfc hinsert
  obtain rfl := (hfc.insert_ok hinsert).1
  rw [heq]
  have hends := connect_connectsTo env { s'.tick with forkChoice := fc } block (P.block.hash block)
  have hfork := connect_forkChoice env { s'.tick with forkChoice := fc } block (P.block.hash block)
  generalize (Node.connect env { s'.tick with forkChoice := fc } block (P.block.hash block)).1 = s''
    at hends hfork ⊢
  cases hends with
  | refused => exact .refl
  | side => exact .refl
  | extended =>
      refine .single (.confirm ?_)
      show (indexed fc).item (P.block.hash block) = some block
      rw [indexed_insert hfc hinsert]
      simp [Forest.insert]
  | reorged _ _ hoffered =>
      -- a reorg offers what the blocks of the old chain hold
      rw [foldl_reinsert_eq] at hfork ⊢
      refine PoolMoves.insertAll _ (fun offer hoffer => ?_) _
      simp only [offers, List.mem_map] at hoffer
      obtain ⟨⟨t, i⟩, hmem, rfl⟩ := hoffer
      obtain ⟨hfrom, hto, -⟩ := List.mem_zipIdx hmem
      have ht := hoffered.subset (List.fst_mem_of_mem_zipIdx hmem)
      simp only [disconnectedTransactions, List.mem_flatMap, List.mem_filter] at ht
      obtain ⟨old, ⟨hold, -⟩, ht⟩ := ht
      have hio := h.io
      refine ⟨.inr ⟨old, hextends.item (h.synced.mem_chain hfc hchain hold), ht⟩,
        .inl ⟨i, ?_, hto, rfl⟩⟩
      simp only [tick_io] at hfrom
      omega

/-- Connecting the orphans of a block is connecting blocks. -/
theorem Ran.processOrphansForParent (h : Ran env operations r s s') (hash : BlockHash) :
    Ran env operations r s (s'.processOrphansForParent env hash) := by
  refine (processParents_moves env (s'.pruneOrphansNow env) [hash]).invariant
    (fun w => Ran env operations r s w.node) ?_ (h.sync (pruneOrphansNow_onlySync env s'))
  intro w w' hw hmove
  have htake : ∀ child, Ran env operations r s
      { w.node with orphanBlocks := w.node.orphanBlocks.erase child } := fun child =>
    hw.sync ⟨rfl, rfl, rfl, rfl, rfl, rfl, rfl, rfl, Nat.le_refl _⟩
  cases hmove with
  | leaf _ => exact hw
  | visit _ => exact hw.sync ⟨rfl, rfl, rfl, rfl, rfl, rfl, rfl, rfl, Nat.le_refl _⟩
  | gone _ => exact hw
  | @connected _ _ _ child _ orphan _ hconnect =>
      have hran := (htake child).connect hfc hchain orphan.block
      rwa [hconnect] at hran
  | @cached _ _ _ child _ orphan _ hconnect =>
      have hran := (htake child).connect hfc hchain orphan.block
      rw [hconnect] at hran
      exact hran.sync (cacheOrphanBlock_onlySync env _ _)
  | @dropped _ _ _ child _ orphan _ _ hconnect =>
      have hran := (htake child).connect hfc hchain orphan.block
      rwa [hconnect] at hran

/-- `apply_block` as a part of the run. -/
theorem Ran.applyBlock (h : Ran env operations r s s') (block : P.Block) :
    Ran env operations r s (s'.applyBlock env block).1 := by
  have hran := (h.sync (pruneOrphansNow_onlySync env s')).connect hfc hchain block
  unfold Node.applyBlock
  split
  · next hs =>
      rw [hs] at hran
      exact hran.processOrphansForParent hfc hchain _
  · next hs =>
      rw [hs] at hran
      exact hran.sync (cacheOrphanBlock_onlySync env _ _)
  all_goals
    next hs =>
      rw [hs] at hran
      exact hran

/-- One call of the run. -/
theorem Ran.call (h : Ran env operations r s s') {operation : Operation P}
    (hmem : operation ∈ operations) : Ran env operations r s (operation.run env s') := by
  cases operation with
  | applyBlock block => exact h.applyBlock hfc hchain block
  | mineBlock minerAddress timestamp maxAttempts limit =>
      have hprune := h.prune (.inr ⟨minerAddress, maxAttempts, limit, hmem⟩)
      simp only [Operation.run, mineBlock]
      split
      · exact hprune
      split
      · exact hprune
      · exact hprune
      next result _ =>
      have hran := hprune.applyBlock hfc hchain result.block
      split
      all_goals
        next hs =>
          rw [hs] at hran
          exact hran
  | flushToStorage => exact h.save
  | submitTransaction t => exact h.submit hmem
  | drainMissingParentRequests =>
      exact h.sync ((OnlySync.tick s').trans
        ⟨rfl, rfl, rfl, rfl, rfl, rfl, rfl, rfl, Nat.le_refl _⟩)
  | retryMissingParentRequest hash =>
      exact h.sync ((OnlySync.tick s').trans (queueMissingParentRequestAt_onlySync _ _ _))

/-- All of them. -/
theorem Ran.callAll (h : Ran env operations r s s') {rest : List (Operation P)}
    (hmem : ∀ operation ∈ rest, operation ∈ operations) :
    Ran env operations r s (s'.runAll env rest) := by
  induction rest generalizing s' with
  | nil => exact h
  | cons operation rest ih =>
      rw [List.forall_mem_cons] at hmem
      exact ih (h.call hfc hchain hmem.1) hmem.2

/-- **Nothing pending is dropped without a reason.**  Whatever is asked of a
node, an entry that was pending and is not any more has expired at a time that
was read meanwhile, has been outbid by a transaction for the same sender and nonce that
was submitted or came from a block of the index, or is in a block of the
index. -/
theorem pending_leaves_for_reason (hrec : RecordLaws P) {E : Env → Prop} {db db' : Storage P}
    (hdb : Written E db) {io : Nat} {consensus : Consensus} {opened : Node P}
    (hopen : initOrLoad env io db consensus = (db', .ok opened)) (config : MempoolConfig)
    (before : List (Operation P)) (hs : (opened.withPool config).runAll env before = s)
    (hs' : s.runAll env operations = s')
    {hash : TransactionHash} {entry : MempoolEntry P}
    (hpending : s.mempool.transactions[hash]? = some entry)
    (hgone : s'.mempool.transactions[hash]? ≠ some entry) :
    Leaves (causes env operations s s') config hash entry := by
  obtain ⟨g, hsound⟩ := sound_of_written hfc hchain hrec hdb hopen []
  have hopened : Ran env before (P.block.hash g) (opened.withPool config)
      (opened.withPool config) := .refl (hsound.synced.congr rfl rfl rfl)
  have hbefore := hopened.callAll hfc hchain fun _ h => h
  rw [hs] at hbefore
  have hstart : Ran env operations (P.block.hash g) s s := .refl hbefore.synced
  have hran := hstart.callAll hfc hchain fun _ h => h
  rw [hs'] at hran
  have hleaves := hran.moves.leaves hpending hgone
  rwa [hbefore.moves.config] at hleaves

end Laws

end Node

namespace Reference

/-- A pending payment of the miner. -/
def offeringNode : Node paqus :=
  (genesisNode.withPool MempoolConfig.default).runAll calm [.submitTransaction (payment 2 0)]

theorem offeringNode_eq : (genesisNode.withPool MempoolConfig.default).runAll calm
    [.submitTransaction (payment 2 0)] = offeringNode := rfl

end Reference

/-- A dearer payment with the same nonce is submitted. -/
theorem Node.pending_leaves_for_reason_of_outbid :
    ∃ entry, Reference.offeringNode.mempool.transactions[(Reference.payment 2 0).hash]? =
        some entry ∧
      Mempool.Leaves (causes Reference.calm [.submitTransaction (Reference.payment 9 0)]
        Reference.offeringNode (Reference.offeringNode.runAll Reference.calm
          [.submitTransaction (Reference.payment 9 0)]))
        MempoolConfig.default (Reference.payment 2 0).hash entry := by
  have hsome : (Reference.offeringNode.mempool.transactions[
      (Reference.payment 2 0).hash]?).isSome = true := by decide +kernel
  have hnone : ((Reference.offeringNode.runAll Reference.calm
      [.submitTransaction (Reference.payment 9 0)]).mempool.transactions[
        (Reference.payment 2 0).hash]?).isSome = false := by decide +kernel
  obtain ⟨entry, hentry⟩ := Option.isSome_iff_exists.mp hsome
  refine ⟨entry, hentry, pending_leaves_for_reason Reference.forkChoiceLaws Reference.chainLaws
    Reference.recordLaws (.empty (E := fun _ => True))
    (Reference.opened_eq_some Reference.opened_calm) MempoolConfig.default _
    Reference.offeringNode_eq rfl hentry ?_⟩
  intro hkept
  rw [hkept] at hnone
  cases hnone

end PaqusNode
