import PaqusNode.Mempool.Readmission
import PaqusNode.Node.Confirm
import PaqusNode.Node.Validated

/-!
# PaqusNode.Node.Reorg

A reorg and the mempool.  Its effect on the pool is a list of insertions
against the new ledger, one for each transaction of the disconnected blocks;
the transactions of the winning branch are not taken out, so those that were
pending stay until they expire.
-/

namespace PaqusNode

variable {P : Paqus}

/-! ## Branches as lists of blocks -/

/-- The blocks of the branch that ends in `tip`, newest first. -/
def branchBlocks (forkChoice : P.ForkChoice) (tip : BlockHash) : List P.Block :=
  (P.forkChoice.ancestorHashes forkChoice tip).filterMap fun hash =>
    (P.forkChoice.get forkChoice hash).map ForkNode.block

/-- The ancestors of a tip are its branch from the root on, the tip first. -/
theorem branchBlocks_eq (hfc : ForkChoiceLaws P) {forkChoice : P.ForkChoice} {r t : BlockHash}
    {g : P.Block} {bs : List P.Block} (hg : (indexed forkChoice).item r = some g)
    (h : (indexed forkChoice).Branch r t bs) :
    branchBlocks forkChoice t = (g :: bs).reverse := by
  have hblock : ∀ b ∈ (g :: bs).reverse,
      (P.forkChoice.get forkChoice (P.block.hash b)).map ForkNode.block = some b :=
    fun b hb => indexed_of_mem_branch hfc h hg (List.mem_reverse.mp hb)
  unfold branchBlocks
  rw [ancestorHashes_eq hfc h hg, List.filterMap_map]
  exact (List.filterMap_congr hblock).trans List.filterMap_some

/-- One of the blocks has a transaction with this hash. -/
def Confirms (blocks : List P.Block) (hash : TransactionHash) : Prop :=
  ∃ block ∈ blocks, ∃ t ∈ P.block.transactions block, P.transaction.hash t = hash

instance (blocks : List P.Block) (hash : TransactionHash) : Decidable (Confirms blocks hash) :=
  inferInstanceAs (Decidable (∃ block ∈ blocks, ∃ t ∈ P.block.transactions block, _))

theorem Confirms.congr {blocks blocks' : List P.Block} (h : ∀ b, b ∈ blocks ↔ b ∈ blocks')
    (hash : TransactionHash) : Confirms blocks hash ↔ Confirms blocks' hash := by
  simp only [Confirms, h]

namespace Reference

/-- A node with one payment pending, a block of its own and a side block. -/
def forkedNode (side : List Tx) : Node paqus :=
  genesisNode.runAll calm
    [.submitTransaction (payment 2 0), .applyBlock (block 2 1 1 []),
      .applyBlock (block 3 1 1 side)]

/-- A node with payments pending, a block of its own with the payment `mined`
and a side block. -/
def rewoundNode (pending : List Tx) (mined : Tx) : Node paqus :=
  genesisNode.runAll calm (pending.map (Node.Operation.submitTransaction (P := paqus)) ++
    [.applyBlock (block 2 1 1 [mined]), .applyBlock (block 3 1 1 [])])

/-- The payment in the node's own block outbids the pending one. -/
def outbidNode : Node paqus := rewoundNode [payment 2 0] (payment 3 0)

/-- The payment after the one in the node's own block is pending. -/
def successorNode : Node paqus := rewoundNode [payment 2 0, payment 2 1] (payment 2 0)

end Reference

namespace Node

/-! ## What a reorg does to the mempool -/

/-- The chain that `block` makes active, if it wins. -/
def winningBlocks (s : Node P) (block : P.Block) : List P.Block :=
  block :: branchBlocks s.forkChoice (P.block.previousHash block)

/-- The transactions of the active blocks that are not on that chain, in
chain order. -/
def disconnectedBy (s : Node P) (block : P.Block) : List P.SignedTransaction :=
  disconnectedTransactions s.ledger.chain.blocks.valuesList
    (P.block.hash block :: P.forkChoice.ancestorHashes s.forkChoice (P.block.previousHash block))

/-- What the reorg to `block` offers to the mempool.  One interaction goes to
the validation of the block and one to the write of the ledger. -/
def reorgOffers (env : Env) (s : Node P) (block : P.Block) :
    List (P.SignedTransaction × UInt64) :=
  offers env (s.io + 2) (s.disconnectedBy block)

/-- What it does offer: nothing if the new ledger cannot be written. -/
def offersMade (env : Env) (s : Node P) (block : P.Block) :
    List (P.SignedTransaction × UInt64) :=
  if (s.applyKnownParentBlock env block).2 = .ok () then s.reorgOffers env block else []

section Laws

variable (hfc : ForkChoiceLaws P) (hchain : ChainLaws P)

include hfc hchain

/-- **A reorg, seen from the mempool**: the ledger is the replay of the
winning chain, and the pool has been offered the disconnected transactions
against that ledger, unless it could not be written. -/
theorem Wins.reorged {env : Env} {s : Node P} {g block : P.Block} {forkChoice : P.ForkChoice}
    (hs : s.Sound g) (h : Wins env s block forkChoice)
    (hextends : extendsActiveTip s.ledger block = false) :
    ∃ branch, replay s.genesisAccounts g branch = .ok (s.tried env block).ledger ∧
      (s.tried env block).ledger.chain.blocks.valuesList = g :: branch ∧
      (∀ b, b ∈ g :: branch ↔ b ∈ s.winningBlocks block) ∧
      (s.tried env block).mempool =
        s.mempool.insertAll (s.tried env block).ledger (s.offersMade env block) := by
  obtain ⟨parent, child, hacc⟩ := accepted_of_valid hfc hchain hs.synced h.state h.insert
  obtain ⟨-, bs, hbs, hbs'⟩ := insert_rooted hfc hs.synced hacc.height_ne h.insert
  have hroot := (indexed_extends hfc h.insert).item hs.root
  have hreplay := (ledgerForBranchTip_eq_ok hfc hbs' hroot).mp hacc.child_replay
  obtain ⟨hof, -⟩ := chainOf_of_foldlM hchain (replay_chain hchain hreplay)
  have hwinning : ∀ b, b ∈ g :: (bs ++ [block]) ↔ b ∈ s.winningBlocks block := by
    intro b
    rw [winningBlocks, branchBlocks_eq hfc hs.root hbs]
    simp [or_comm, or_left_comm]
  -- the ancestors of the new tip are the block and those of its parent
  have hhashes : P.forkChoice.ancestorHashes forkChoice (P.block.hash block) =
      P.block.hash block ::
        P.forkChoice.ancestorHashes s.forkChoice (P.block.previousHash block) := by
    rw [ancestorHashes_eq hfc hbs hs.root, ancestorHashes_eq hfc hbs' hroot]
    simp
  obtain ⟨storage, durable, hsave⟩ := saveLedger_fst env { s.tick with
    forkChoice := forkChoice, ledger := child, cache := CoreCache.fromLedger child }
  rw [tried, offersMade, h.applyKnownParentBlock_eq, if_neg (by simp [hextends]),
    reorgToBestTip_of_accepted hfc env hs.synced h.state h.insert hacc h.best hextends]
  rcases hwritten : saveLedger env { s.tick with
      forkChoice := forkChoice, ledger := child, cache := CoreCache.fromLedger child } with
    ⟨s', e | u⟩
  · rw [hwritten] at hsave
    simp only at hsave
    subst hsave
    exact ⟨bs ++ [block], hreplay, hof.values, hwinning, rfl⟩
  · rw [hwritten] at hsave
    simp only at hsave
    subst hsave
    rw [reconnect, foldl_reinsert_eq]
    refine ⟨bs ++ [block], hreplay, hof.values, hwinning, ?_⟩
    simp only [tick, hhashes, if_true]
    rfl

/-- What a reorg leaves of ledger and mempool. -/
theorem MovesTip.reorged {env : Env} {s : Node P} {g block : P.Block} (hs : s.Sound g)
    (h : s.MovesTip env block false) :
    ∃ branch ledger, replay s.genesisAccounts g branch = .ok ledger ∧
      (∀ b, b ∈ g :: branch ↔ b ∈ s.winningBlocks block) ∧
      (s.applyKnownParentBlock env block).1.ledger = ledger ∧
      (s.applyKnownParentBlock env block).1.mempool =
        s.mempool.insertAll ledger (s.reorgOffers env block) := by
  obtain ⟨fc, hwins⟩ := h.wins hfc
  obtain ⟨branch, hreplay, -, hwinning, hpool⟩ := hwins.reorged hfc hchain hs h.onTip
  rw [offersMade, if_pos h.ok] at hpool
  exact ⟨branch, _, hreplay, hwinning, rfl, hpool⟩

end Laws

/-! ## Disconnected transactions after a reorg -/

/-- The winning chain does not contain the transaction. -/
def Unconfirmed (s : Node P) (block : P.Block) (t : P.SignedTransaction) : Prop :=
  ¬Confirms (s.winningBlocks block) (P.transaction.hash t)

instance (s : Node P) (block : P.Block) : DecidablePred (s.Unconfirmed block) :=
  fun t => inferInstanceAs (Decidable ¬Confirms _ (P.transaction.hash t))

/-- Every transaction of the disconnected blocks that is not on the winning
chain is in `pool`. -/
def DisconnectedPending (s : Node P) (block : P.Block) (pool : Mempool P) : Prop :=
  ∀ t ∈ s.disconnectedBy block, s.Unconfirmed block t →
    P.transaction.hash t ∈ pool.transactions

instance (s : Node P) (block : P.Block) (pool : Mempool P) :
    Decidable (s.DisconnectedPending block pool) :=
  inferInstanceAs (Decidable (∀ t ∈ s.disconnectedBy block, _ → _))

/-- At the turn of every such transaction `d`: it is itself pending and does
not expire during the reorg, or every transaction its sender has pending is a
disconnected one offered before `d`, or has the nonce of one of those or of
`d` and a smaller fee. -/
def NoRivals (env : Env) (s : Node P) (block : P.Block) : Prop :=
  ∀ before d now after, s.reorgOffers env block = before ++ (d, now) :: after →
    s.Unconfirmed block d →
    Mempool.Unrivalled (s.Unconfirmed block) s.mempool (s.reorgOffers env block) before d now

/-- Every transaction is offered, at some time. -/
theorem mem_offers {env : Env} {io : Nat} {transactions : List P.SignedTransaction}
    {t : P.SignedTransaction} :
    t ∈ transactions ↔ ∃ now, (t, now) ∈ offers env io transactions := by
  unfold offers
  constructor
  · intro ht
    obtain ⟨i, hi⟩ := List.mem_iff_getElem?.mp ht
    exact ⟨env.clock (io + i), List.mem_map.mpr
      ⟨(t, io + i), List.mk_add_mem_zipIdx_iff_getElem?.mpr hi, rfl⟩⟩
  · rintro ⟨now, hmem⟩
    obtain ⟨⟨t', i⟩, hmem', heq⟩ := List.mem_map.mp hmem
    cases heq
    exact List.fst_mem_of_mem_zipIdx hmem'

/-- Transactions of disconnected blocks are at hand. -/
theorem Sound.disconnected_atHand (hfc : ForkChoiceLaws P) (hchain : ChainLaws P) {s : Node P}
    {g block : P.Block} (hs : s.Sound g) {t : P.SignedTransaction}
    (h : t ∈ s.disconnectedBy block) : t ∈ s.atHand block := by
  obtain ⟨b, hb, ht⟩ := List.mem_flatMap.mp h
  obtain ⟨_, branch, -, hreplay, hitems⟩ := hs.synced.chain hfc
  rw [(chainOf_of_foldlM hchain (replay_chain hchain hreplay)).1.values] at hb
  exact .inr (.inr ⟨_, b, hitems b (List.mem_filter.mp hb).1, ht⟩)

/-- Transactions of the winning chain are at hand. -/
theorem winning_atHand {s : Node P} {block b : P.Block} (hb : b ∈ s.winningBlocks block)
    {t : P.SignedTransaction} (ht : t ∈ P.block.transactions b) : t ∈ s.atHand block := by
  rcases List.mem_cons.mp hb with rfl | hb
  · exact .inr (.inl ht)
  · unfold branchBlocks at hb
    obtain ⟨hash, -, hget⟩ := List.mem_filterMap.mp hb
    exact .inr (.inr ⟨hash, b, hget, ht⟩)

/-- **A disconnected transaction is pending again unless it had a rival.** -/
theorem MovesTip.disconnectedPending_iff (hfc : ForkChoiceLaws P) (hchain : ChainLaws P)
    (hnonce : NonceLaws P) {env : Env} {s : Node P} {g block : P.Block} (hs : s.Sound g)
    (hapart : Set.InjOn P.transaction.hash (s.atHand block))
    (h : s.MovesTip env block false)
    (hvalid : Mempool.Applicable (s.Unconfirmed block) s.mempool
      (s.applyKnownParentBlock env block).1.ledger (s.reorgOffers env block)) :
    s.DisconnectedPending block (s.applyKnownParentBlock env block).1.mempool ↔
      s.NoRivals env block := by
  obtain ⟨branch, ledger, hreplay, hwinning, hledger, hpool⟩ := h.reorged hfc hchain hs
  rw [hledger] at hvalid
  have hoffers : ∀ {offer}, offer ∈ s.reorgOffers env block → offer.1 ∈ s.atHand block :=
    fun ho => hs.disconnected_atHand hfc hchain (mem_offers.mpr ⟨_, ho⟩)
  have hpooled : s.mempool.atHand (s.reorgOffers env block) ⊆ s.atHand block := by
    rintro t (hentry | ⟨offer, ho, rfl⟩)
    · exact .inl hentry
    · exact hoffers ho
  have hspent : ∀ offer ∈ s.reorgOffers env block, ¬s.Unconfirmed block offer.1 →
      P.transaction.nonce offer.1 < nonceOf ledger.accounts (P.transaction.sender offer.1) := by
    intro offer ho hconfirmed
    obtain ⟨b, hb, t, ht, hhash⟩ := not_not.mp hconfirmed
    rw [← hapart (winning_atHand hb ht) (hoffers ho) hhash]
    exact replay_spent hnonce hs.founded hreplay ((hwinning b).mpr hb) ht
  rw [NoRivals, ← Mempool.Readmissible.pending_iff ⟨hvalid, hspent⟩ (hapart.mono hpooled) hs.pool,
    hpool]
  constructor
  · intro hpending offer ho
    exact hpending offer.1 (mem_offers.mpr ⟨offer.2, ho⟩)
  · intro hpending t ht
    obtain ⟨now, ho⟩ := mem_offers.mp ht
    exact hpending (t, now) ho

/-- **When a reorg loses no transaction that is still valid.**  Let the
transactions of the disconnected blocks that are not on the winning chain be
applicable in chain order to the new ledger, within the relay policy and the
limits of the pool.  They are all pending after the reorg exactly if none of
them has rivals at its turn; for the whole of `apply_block` when no orphan
waits for the block, and for the step that connects the block in any case.
Nothing at hand collides. -/
theorem disconnectedPending_applyBlock_iff (hfc : ForkChoiceLaws P) (hchain : ChainLaws P)
    (hnonce : NonceLaws P) {env : Env} {s : Node P} {g block : P.Block} (hs : s.Sound g)
    (hapart : Set.InjOn P.transaction.hash (s.atHand block))
    (h : (s.pruneOrphansNow env).MovesTip env block false)
    (hvalid : Mempool.Applicable ((s.pruneOrphansNow env).Unconfirmed block) s.mempool
      ((s.pruneOrphansNow env).applyKnownParentBlock env block).1.ledger
      ((s.pruneOrphansNow env).reorgOffers env block)) :
    ((s.pruneOrphansNow env).DisconnectedPending block
        ((s.pruneOrphansNow env).applyKnownParentBlock env block).1.mempool ↔
          (s.pruneOrphansNow env).NoRivals env block) ∧
      (s.orphanChildrenByParent[P.block.hash block]? = none →
        ((s.pruneOrphansNow env).DisconnectedPending block (s.applyBlock env block).1.mempool ↔
          (s.pruneOrphansNow env).NoRivals env block)) := by
  have hsync := pruneOrphansNow_onlySync env s
  have hs' := (Step.sync hsync : Step env s _).sound hfc hchain hs
  rw [← hsync.mempool] at hvalid
  have hhand : (s.pruneOrphansNow env).atHand block = s.atHand block := by
    rw [atHand, atHand, hsync.mempool, hsync.forkChoice]
  have hiff := h.disconnectedPending_iff hfc hchain hnonce hs' (hhand ▸ hapart) hvalid
  refine ⟨hiff, fun hnone => ?_⟩
  rw [(applyBlock_of_no_orphans env h.ok hnone).mempool]
  exact hiff

theorem sound_rewoundNode (pending : List Reference.Tx) (mined : Reference.Tx) :
    ∃ g, (Reference.rewoundNode pending mined).Sound g :=
  sound_of_written Reference.forkChoiceLaws Reference.chainLaws Reference.recordLaws
    (.empty (E := fun _ => True)) (Reference.opened_eq_some Reference.opened_calm) _

/-- The disconnected payment replaces one of the same nonce that is pending
with a smaller fee. -/
theorem disconnectedPending_applyBlock_of_outbid :
    (Reference.outbidNode.pruneOrphansNow Reference.calm).DisconnectedPending
      (Reference.block 4 2 3 [])
      (Reference.outbidNode.applyBlock Reference.calm
        (Reference.block 4 2 3 [])).1.mempool := by
  have hoffers : (Reference.outbidNode.pruneOrphansNow Reference.calm).reorgOffers Reference.calm
      (Reference.block 4 2 3 []) = [(Reference.payment 3 0, 0)] := by decide +kernel
  have hmoves : (Reference.outbidNode.pruneOrphansNow Reference.calm).MovesTip Reference.calm
      (Reference.block 4 2 3 []) false := ⟨by decide +kernel, by decide +kernel, by decide +kernel⟩
  have hoffer : ∀ pooled ∈
      (Reference.outbidNode.pruneOrphansNow Reference.calm).mempool.transactions.toList,
      Mempool.SameSlot (P := Reference.paqus) pooled.2.transaction (Reference.payment 3 0) ∧
        pooled.2.transaction.fee < 3 := by decide +kernel
  obtain ⟨g, hsound⟩ : ∃ g, Reference.outbidNode.Sound g := sound_rewoundNode _ _
  have hiff := disconnectedPending_applyBlock_iff Reference.forkChoiceLaws Reference.chainLaws
    Reference.nonceLaws hsound (fun _ _ _ _ heq => Reference.hash_inj heq) hmoves
    (by
      rw [hoffers]
      exact .singleton ⟨by decide +kernel, by decide +kernel, by decide +kernel,
        by decide +kernel, by decide +kernel,
        ⟨_, (Option.some_get (by decide +kernel)).symm, by decide +kernel⟩,
        by simp [Mempool.Outlives]⟩ (by decide +kernel) (by decide +kernel))
  refine (hiff.2 (by decide +kernel)).mpr ?_
  intro before d now after hsplit hd
  rw [hoffers] at hsplit
  obtain ⟨rfl, heq⟩ | ⟨rest, -, heq⟩ := List.cons_eq_append_iff.mp hsplit
  · cases heq
    refine .inr fun hash entry hentry _ _ => .inr ⟨Reference.payment 3 0, ?_, ?_⟩
    · exact Mempool.mem_queueOf.mpr ⟨⟨0, by simp⟩, hd, rfl⟩
    · exact hoffer (hash, entry) (Std.ExtTreeMap.mem_toList_iff_getElem?_eq_some.mpr hentry)
  · simp at heq

/-- The sender of the disconnected payment has its successor pending, and the
payment is lost. -/
theorem disconnected_payment_lost :
    (Reference.successorNode.pruneOrphansNow Reference.calm).MovesTip Reference.calm
        (Reference.block 4 2 3 []) false ∧
      Mempool.Applicable
        ((Reference.successorNode.pruneOrphansNow Reference.calm).Unconfirmed
            (Reference.block 4 2 3 []))
        Reference.successorNode.mempool
        ((Reference.successorNode.pruneOrphansNow Reference.calm).applyKnownParentBlock
            Reference.calm (Reference.block 4 2 3 [])).1.ledger
        ((Reference.successorNode.pruneOrphansNow Reference.calm).reorgOffers
            Reference.calm (Reference.block 4 2 3 [])) ∧
      (Reference.successorNode.applyBlock Reference.calm (Reference.block 4 2 3 [])).2 = .ok () ∧
      ¬(Reference.successorNode.pruneOrphansNow Reference.calm).DisconnectedPending
          (Reference.block 4 2 3 [])
          (Reference.successorNode.applyBlock Reference.calm
              (Reference.block 4 2 3 [])).1.mempool := by
  refine ⟨⟨by decide +kernel, by decide +kernel, by decide +kernel⟩, ?_, by decide +kernel,
    by decide +kernel⟩
  have hoffers : (Reference.successorNode.pruneOrphansNow Reference.calm).reorgOffers Reference.calm
      (Reference.block 4 2 3 []) = [(Reference.payment 2 0, 0)] := by decide +kernel
  rw [hoffers]
  exact .singleton ⟨by decide +kernel, by decide +kernel, by decide +kernel,
    by decide +kernel, by decide +kernel,
    ⟨_, (Option.some_get (by decide +kernel)).symm, by decide +kernel⟩,
    by simp [Mempool.Outlives]⟩ (by decide +kernel) (by decide +kernel)

end Node

end PaqusNode
