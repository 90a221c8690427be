import PaqusNode.Node.Reorg

/-!
# PaqusNode.Node.Pending

What a call of `apply_block` leaves pending that it should not: transactions
that the ledger has passed, and transactions of the active chain.  A block on
top of the active tip takes its own transactions out of the pool; a reorg
takes nothing out, so what the winning chain contains stays until it expires.
The call may connect any number of orphans after the block; the conditions
are about each of the blocks it connects, at its turn.
-/

namespace PaqusNode

variable {P : Paqus}

namespace Node

/-! ## A reorg -/

/-- The block wins from another branch than the active one. -/
def Reorgs (env : Env) (s : Node P) (block : P.Block) : Prop :=
  s.wins env block = true ∧ extendsActiveTip s.ledger block = false

instance (env : Env) (s : Node P) (block : P.Block) : Decidable (s.Reorgs env block) :=
  inferInstanceAs (Decidable (_ ∧ _))

/-- The entry expires at one of the clock readings at which the reorg to
`block` offers the disconnected transactions to the pool. -/
def ExpiresDuring (env : Env) (s : Node P) (block : P.Block) (entry : MempoolEntry P) : Prop :=
  ∃ offer ∈ s.offersMade env block, Mempool.retained s.mempool.config offer.2 entry = false

instance (env : Env) (s : Node P) (block : P.Block) (entry : MempoolEntry P) :
    Decidable (s.ExpiresDuring env block entry) :=
  inferInstanceAs (Decidable (∃ offer ∈ s.offersMade env block, _ = false))

section Laws

variable (hfc : ForkChoiceLaws P) (hchain : ChainLaws P)

include hfc hchain

/-- Disconnected transactions are at hand. -/
theorem Sound.offer_atHand {env : Env} {s : Node P} {g block : P.Block} (hs : s.Sound g)
    {offer : P.SignedTransaction × UInt64} (h : offer ∈ s.offersMade env block) :
    offer.1 ∈ s.atHand block := by
  unfold offersMade at h
  split at h
  · exact hs.disconnected_atHand hfc hchain (mem_offers.mpr ⟨offer.2, h⟩)
  · cases h

/-- **What a reorg leaves of the transactions that its ledger has passed**:
those that do not expire meanwhile. -/
theorem Wins.none_left_iff {env : Env} {s : Node P} {g block : P.Block}
    {forkChoice : P.ForkChoice} (hs : s.Sound g)
    (hapart : Set.InjOn P.transaction.hash (s.atHand block)) (h : Wins env s block forkChoice)
    (hextends : extendsActiveTip s.ledger block = false) (which : P.SignedTransaction → Prop)
    (hwhich : ∀ t ∈ s.atHand block, which t → Mempool.Spent (s.tried env block).ledger t) :
    (∀ pooled ∈ (s.tried env block).mempool.transactions.toList, ¬which pooled.2.transaction) ↔
      ∀ pooled ∈ s.mempool.transactions.toList, which pooled.2.transaction →
        s.ExpiresDuring env block pooled.2 := by
  obtain ⟨branch, -, -, -, hpool⟩ := h.reorged hfc hchain hs hextends
  have hoffer : ∀ offer ∈ s.offersMade env block, offer.1 ∈ s.atHand block :=
    fun _ => hs.offer_atHand hfc hchain
  -- all that has this hash is this transaction
  have hlookup : ∀ {hash : TransactionHash} {t : P.SignedTransaction}, t ∈ s.atHand block →
      P.transaction.hash t = hash → which t →
      (s.tried env block).mempool.transactions[hash]? = (s.mempool.transactions[hash]?).filter
        fun entry => (s.offersMade env block).all fun offer =>
          Mempool.retained s.mempool.config offer.2 entry := by
    rintro hash t ht rfl hw
    rw [hpool]
    refine Mempool.getElem?_insertAll_of_spent _ ?_ ?_
    · intro entry hentry
      rw [pooled_eq hs.pool hapart ht hentry]
      exact hwhich t ht hw
    · intro offer ho heq
      rw [hapart (hoffer offer ho) ht heq]
      exact hwhich t ht hw
  simp only [Prod.forall, Std.ExtTreeMap.mem_toList_iff_getElem?_eq_some]
  constructor
  · intro hnone hash entry hentry hw
    have hkept := hlookup (.inl ⟨hash, entry, hentry, rfl⟩) (hs.pool.keyed hentry) hw
    by_contra hstays
    refine hnone hash entry ?_ hw
    rw [hkept, hentry, Option.filter_eq_some_iff]
    simpa [ExpiresDuring] using hstays
  · intro hexpire hash entry hentry hw
    have hhand : entry.transaction ∈ s.atHand block := by
      rw [hpool] at hentry
      rcases Mempool.of_getElem?_insertAll _ hentry with hold | ⟨offer, ho, heq⟩
      · exact .inl ⟨hash, entry, hold, rfl⟩
      · exact heq ▸ hoffer offer ho
    have hkey : P.transaction.hash entry.transaction = hash :=
      (applyKnownParentBlock_wellFormed env hs.pool block).keyed hentry
    rw [hlookup hhand hkey hw, Option.filter_eq_some_iff] at hentry
    obtain ⟨offer, ho, hgone⟩ := hexpire hash entry hentry.1 hw
    have hretained := List.all_eq_true.mp hentry.2 offer ho
    rw [hgone] at hretained
    cases hretained

/-- **Rule for a whole call.**  A property of ledger and pool that a reorg
decides, and that any other block can only lose, holds after the call exactly
if every block since the last reorg passes its check. -/
theorem Sound.applyBlock_iff {env : Env} {g : P.Block} {I : Node P → Prop}
    {check : Node P → P.Block → Prop}
    (hcongr : ∀ {s s' : Node P}, s'.ledger = s.ledger → s'.mempool = s.mempool → (I s' ↔ I s))
    (hreset : ∀ {s block}, Sound s g → Set.InjOn P.transaction.hash (s.atHand block) →
      s.Reorgs env block → (I (s.tried env block) ↔ check s block))
    (hkeep : ∀ {s block}, Sound s g → Set.InjOn P.transaction.hash (s.atHand block) →
      ¬s.Reorgs env block → (I (s.tried env block) ↔ I s ∧ check s block))
    {s : Node P} (hs : s.Sound g) (hstart : I s) {block : P.Block}
    (hapart : ∀ t ∈ s.tries env block, Set.InjOn P.transaction.hash (t.1.atHand t.2)) :
    I (s.applyBlock env block).1 ↔
      Trace.Settled (Reorgs env) check (s.tries env block) := by
  have hsame : ∀ {s s' : Node P}, OnlySync s s' → Sound s g → Sound s' g ∧ (I s' ↔ I s) :=
    fun h hs => ⟨(Step.sync h : Step env _ _).sound hfc hchain hs, hcongr h.ledger h.mempool⟩
  have htrace := applyBlock_trace env s block
  refine (htrace.holds_iff (I := I) (K := fun s b => Set.InjOn P.transaction.hash (atHand s b))
    hsame (fun b hs => (Step.connect _ b).sound hfc hchain hs) hreset hkeep hs hapart).trans ?_
  exact and_iff_left fun _ => hstart

end Laws

/-! ## Transactions that the ledger has passed -/

/-- What must hold of a block at its turn for the pool to be current after it:
on top of the active tip every pooled transaction that competes with one of
the block is itself in the block, and from another branch everything pooled
that the new ledger has passed expires. -/
def LeavesCurrent (env : Env) (s : Node P) (block : P.Block) : Prop :=
  s.wins env block = true →
    if extendsActiveTip s.ledger block then ConflictsInBlock s.mempool block
    else ∀ pooled ∈ s.mempool.transactions.toList,
      Mempool.Spent (s.tried env block).ledger pooled.2.transaction →
        s.ExpiresDuring env block pooled.2

instance (env : Env) (s : Node P) (block : P.Block) : Decidable (s.LeavesCurrent env block) :=
  inferInstanceAs (Decidable (_ → ite _ _ _))

theorem poolCurrent_iff_spent {s : Node P} : s.PoolCurrent ↔
    ∀ pooled ∈ s.mempool.transactions.toList, ¬Mempool.Spent s.ledger pooled.2.transaction := by
  simp only [PoolCurrent, Mempool.Spent, UInt64.not_lt]

section Laws

variable (hfc : ForkChoiceLaws P) (hchain : ChainLaws P) (hnonce : NonceLaws P) {env : Env}
  {s : Node P} {g : P.Block}

include hfc

include hnonce in
/-- A block that does not reorg can only lose the property. -/
theorem Sound.poolCurrent_tried (hs : s.Sound g) {block : P.Block}
    (hapart : Set.InjOn P.transaction.hash (s.atHand block)) (h : ¬s.Reorgs env block) :
    (s.tried env block).PoolCurrent ↔ s.PoolCurrent ∧ s.LeavesCurrent env block := by
  cases hwins : s.wins env block with
  | false =>
      obtain ⟨hledger, hpool⟩ := tried_of_not_wins hfc hwins
      simp only [PoolCurrent, LeavesCurrent, hledger, hpool, hwins, Bool.false_eq_true,
        false_imp_iff, and_true]
  | true =>
      obtain ⟨fc, hwin⟩ := (wins_eq_true hfc).mp hwins
      have hextends : extendsActiveTip s.ledger block = true :=
        Bool.not_eq_false _ ▸ fun hfalse => h ⟨hwins, hfalse⟩
      rw [hwin.poolCurrent_iff hnonce hs.pool hapart hextends]
      simp only [LeavesCurrent, hwins, hextends, if_true, true_imp_iff]

include hchain

/-- A reorg decides whatever was before. -/
theorem Sound.poolCurrent_reorged (hs : s.Sound g) {block : P.Block}
    (hapart : Set.InjOn P.transaction.hash (s.atHand block)) (h : s.Reorgs env block) :
    (s.tried env block).PoolCurrent ↔ s.LeavesCurrent env block := by
  obtain ⟨hwins, hextends⟩ := h
  obtain ⟨fc, hwin⟩ := (wins_eq_true hfc).mp hwins
  rw [poolCurrent_iff_spent, hwin.none_left_iff hfc hchain hs hapart hextends _ fun _ _ h => h]
  simp only [LeavesCurrent, hwins, hextends, Bool.false_eq_true, if_false, true_imp_iff]

include hnonce in
/-- **When a call leaves the pool current.**  Exactly if every block the call
tries, unless a later one triggers a reorg, leaves it so: on top of the active
tip nothing pooled competes with it without being in it, and after a reorg
nothing pooled that the new ledger has passed fails to expire. -/
theorem poolCurrent_applyBlock_iff (hs : s.Sound g) (hcurrent : s.PoolCurrent) (block : P.Block)
    (hapart : ∀ t ∈ s.tries env block, Set.InjOn P.transaction.hash (t.1.atHand t.2)) :
    (s.applyBlock env block).1.PoolCurrent ↔
      Trace.Settled (Reorgs env) (LeavesCurrent env) (s.tries env block) := by
  refine hs.applyBlock_iff hfc hchain ?_ (fun hs hapart => hs.poolCurrent_reorged hfc hchain hapart)
    (fun hs hapart => hs.poolCurrent_tried hfc hnonce hapart) hcurrent hapart
  intro s s' hledger hpool
  rw [PoolCurrent, PoolCurrent, hledger, hpool]

end Laws

end Node

namespace Reference

/-- Everything the call tries is told apart by its hash. -/
theorem tries_apart (s : Node paqus) (b : paqus.Block) :
    ∀ t ∈ s.tries calm b, Set.InjOn paqus.transaction.hash (t.1.atHand t.2) :=
  fun _ _ _ _ _ _ h => hash_inj h

/-- A node with a payment pending and an orphan that waits for block 3. -/
def expectingNode : Node paqus :=
  genesisNode.runAll calm [.submitTransaction (payment 2 0), .applyBlock (block 4 2 3 [])]

theorem sound_expectingNode : ∃ g, expectingNode.Sound g :=
  Node.sound_of_written forkChoiceLaws chainLaws recordLaws (.empty (E := fun _ => True))
    (opened_eq_some opened_calm) _

end Reference

namespace Node

/-- The payment is confirmed by block 3, and the orphan that waits for block 3
is connected in the same call. -/
theorem poolCurrent_applyBlock_of_payment :
    (Reference.expectingNode.applyBlock Reference.calm
      (Reference.block 3 1 1 [Reference.payment 2 0])).1.PoolCurrent := by
  obtain ⟨g, hsound⟩ := Reference.sound_expectingNode
  exact (poolCurrent_applyBlock_iff Reference.forkChoiceLaws Reference.chainLaws
    Reference.nonceLaws hsound (by decide +kernel) _ (Reference.tries_apart _ _)).mpr
    (by decide +kernel)

/-- The block confirms another payment with the nonce of the pending one, and
the pending one stays. -/
theorem competing_payment_stays :
    Reference.payingNode.PoolCurrent ∧
      (Reference.payingNode.pruneOrphansNow Reference.calm).MovesTip Reference.calm
        (Reference.block 2 1 1 [Reference.payment 3 0]) true ∧
      (Reference.payingNode.applyBlock Reference.calm
        (Reference.block 2 1 1 [Reference.payment 3 0])).2 = .ok () ∧
      ¬(Reference.payingNode.applyBlock Reference.calm
        (Reference.block 2 1 1 [Reference.payment 3 0])).1.PoolCurrent :=
  ⟨by decide +kernel, ⟨by decide +kernel, by decide +kernel, by decide +kernel⟩,
    by decide +kernel, by decide +kernel⟩

/-! ## Transactions of the active chain -/

/-- No pooled transaction is in a block of the active chain. -/
def PoolUnconfirmed (s : Node P) : Prop :=
  ∀ pooled ∈ s.mempool.transactions.toList,
    ¬Confirms s.ledger.chain.blocks.valuesList pooled.1

instance (s : Node P) : Decidable s.PoolUnconfirmed :=
  inferInstanceAs (Decidable (∀ pooled ∈ s.mempool.transactions.toList, ¬Confirms _ _))

/-- What must hold of a block that triggers a reorg: every pooled transaction
of the winning chain expires meanwhile. -/
def LeavesUnconfirmed (env : Env) (s : Node P) (block : P.Block) : Prop :=
  s.Reorgs env block → ∀ pooled ∈ s.mempool.transactions.toList,
    Confirms (s.winningBlocks block) pooled.1 → s.ExpiresDuring env block pooled.2

instance (env : Env) (s : Node P) (block : P.Block) : Decidable (s.LeavesUnconfirmed env block) :=
  inferInstanceAs (Decidable (_ → ∀ pooled ∈ s.mempool.transactions.toList, _ → _))

section Laws

variable (hfc : ForkChoiceLaws P) (hchain : ChainLaws P) (hnonce : NonceLaws P) {env : Env}
  {s : Node P} {g : P.Block}

include hfc hchain hnonce

/-- What the active chain contains, the ledger has passed. -/
theorem Sound.spent_of_confirms (hs : s.Sound g) {block : P.Block}
    (hapart : Set.InjOn P.transaction.hash (s.atHand block)) {t : P.SignedTransaction}
    (ht : t ∈ s.atHand block)
    (h : Confirms s.ledger.chain.blocks.valuesList (P.transaction.hash t)) :
    Mempool.Spent s.ledger t := by
  obtain ⟨g', branch, hg', hreplay, hitems⟩ := hs.synced.chain hfc
  obtain rfl : g = g' := by
    have hitem := hitems g' List.mem_cons_self
    rw [hg', hs.root] at hitem
    exact Option.some.inj hitem
  rw [(chainOf_of_foldlM hchain (replay_chain hchain hreplay)).1.values] at h
  obtain ⟨b, hb, t', ht', heq⟩ := h
  rw [← hapart (.inr (.inr ⟨_, b, hitems b hb, ht'⟩)) ht heq]
  exact replay_spent hnonce hs.founded hreplay hb ht'

/-- A block that triggers no reorg takes its own transactions out of the pool,
and no block contains what the chain contains. -/
theorem Sound.poolUnconfirmed_tried (hs : s.Sound g) {block : P.Block}
    (hapart : Set.InjOn P.transaction.hash (s.atHand block)) (h : ¬s.Reorgs env block) :
    (s.tried env block).PoolUnconfirmed ↔
      s.PoolUnconfirmed ∧ s.LeavesUnconfirmed env block := by
  rw [and_iff_left (show s.LeavesUnconfirmed env block from fun hreorgs => absurd hreorgs h)]
  cases hwins : s.wins env block with
  | false =>
      obtain ⟨hledger, hpool⟩ := tried_of_not_wins hfc hwins
      rw [PoolUnconfirmed, PoolUnconfirmed, hledger, hpool]
  | true =>
      obtain ⟨fc, hwin⟩ := (wins_eq_true hfc).mp hwins
      have hextends : extendsActiveTip s.ledger block = true :=
        Bool.not_eq_false _ ▸ fun hfalse => h ⟨hwins, hfalse⟩
      obtain ⟨happly, hpool⟩ := hwin.extended hextends
      unfold PoolUnconfirmed
      simp only [hpool, hs.synced.chain_concat hfc hchain happly, Prod.forall,
        Std.ExtTreeMap.mem_toList_iff_getElem?_eq_some, Mempool.getElem?_removeConfirmed]
      refine forall_congr' fun hash => forall_congr' fun entry => ?_
      by_cases hin : ∃ t ∈ P.block.transactions block, P.transaction.hash t = hash
      · simp only [hin, if_true, reduceCtorEq, false_imp_iff, true_iff]
        rintro hentry hconfirms
        obtain ⟨t, ht, rfl⟩ := hin
        have hspent := hs.spent_of_confirms hfc hchain hnonce hapart (.inr (.inl ht)) hconfirms
        have hslot := (hnonce.apply_nonce happly _ _).mp ⟨t, ht, rfl, rfl⟩
        exact UInt64.not_lt.mpr hslot.1 hspent
      · rw [if_neg hin]
        refine imp_congr_right fun _ => not_congr ⟨?_, ?_⟩
        · rintro ⟨b, hb, hconfirms⟩
          rcases List.mem_append.mp hb with hb | hb
          · exact ⟨b, hb, hconfirms⟩
          · exact absurd (List.mem_singleton.mp hb ▸ hconfirms) hin
        · rintro ⟨b, hb, hconfirms⟩
          exact ⟨b, List.mem_append_left _ hb, hconfirms⟩

/-- A reorg decides whatever was before. -/
theorem Sound.poolUnconfirmed_reorged (hs : s.Sound g) {block : P.Block}
    (hapart : Set.InjOn P.transaction.hash (s.atHand block)) (h : s.Reorgs env block) :
    (s.tried env block).PoolUnconfirmed ↔ s.LeavesUnconfirmed env block := by
  obtain ⟨hwins, hextends⟩ := h
  obtain ⟨fc, hwin⟩ := (wins_eq_true hfc).mp hwins
  obtain ⟨branch, hreplay, hvalues, hwinning, -⟩ := hwin.reorged hfc hchain hs hextends
  have hspent : ∀ t ∈ s.atHand block, Confirms (s.winningBlocks block) (P.transaction.hash t) →
      Mempool.Spent (s.tried env block).ledger t := by
    rintro t ht ⟨b, hb, t', ht', heq⟩
    rw [← hapart (winning_atHand hb ht') ht heq]
    exact replay_spent hnonce hs.founded hreplay ((hwinning b).mpr hb) ht'
  have hiff := hwin.none_left_iff hfc hchain hs hapart hextends _ hspent
  have hleft : (s.tried env block).PoolUnconfirmed ↔
      ∀ pooled ∈ (s.tried env block).mempool.transactions.toList,
        ¬Confirms (s.winningBlocks block) (P.transaction.hash pooled.2.transaction) := by
    refine forall₂_congr fun pooled hpooled => ?_
    rw [hvalues, Confirms.congr hwinning,
      (applyKnownParentBlock_wellFormed env hs.pool block).keyed_of_mem hpooled]
  rw [hleft, hiff, LeavesUnconfirmed, imp_iff_right ⟨hwins, hextends⟩]
  exact forall₂_congr fun pooled hpooled => by rw [hs.pool.keyed_of_mem hpooled]

/-- **When a call leaves no confirmed transaction pending.**  Exactly if every
pooled transaction of the chain that the last reorg of the call makes active
expires at one of the clock readings at which it offers the disconnected
transactions to the pool. -/
theorem poolUnconfirmed_applyBlock_iff (hs : s.Sound g) (hunconfirmed : s.PoolUnconfirmed)
    (block : P.Block)
    (hapart : ∀ t ∈ s.tries env block, Set.InjOn P.transaction.hash (t.1.atHand t.2)) :
    (s.applyBlock env block).1.PoolUnconfirmed ↔
      Trace.Settled (Reorgs env) (LeavesUnconfirmed env) (s.tries env block) := by
  refine hs.applyBlock_iff hfc hchain ?_
    (fun hs hapart => hs.poolUnconfirmed_reorged hfc hchain hnonce hapart)
    (fun hs hapart => hs.poolUnconfirmed_tried hfc hchain hnonce hapart) hunconfirmed hapart
  intro s s' hledger hpool
  rw [PoolUnconfirmed, PoolUnconfirmed, hledger, hpool]

end Laws

/-- A branch without transactions confirms nothing. -/
theorem poolUnconfirmed_applyBlock_of_empty_branch :
    ((Reference.forkedNode []).applyBlock Reference.calm
      (Reference.block 4 2 3 [])).1.PoolUnconfirmed := by
  obtain ⟨_, hsound⟩ := sound_of_written Reference.forkChoiceLaws Reference.chainLaws
    Reference.recordLaws (.empty (E := fun _ => True))
    (Reference.opened_eq_some Reference.opened_calm) _
  exact (poolUnconfirmed_applyBlock_iff Reference.forkChoiceLaws Reference.chainLaws
    Reference.nonceLaws (s := Reference.forkedNode []) hsound (by decide +kernel) _
    (Reference.tries_apart _ _)).mpr (by decide +kernel)

/-- The winning branch has the pending payment in its first block, and the
payment stays pending. -/
theorem confirmed_payment_stays :
    (Reference.forkedNode [Reference.payment 2 0]).PoolUnconfirmed ∧
      ((Reference.forkedNode [Reference.payment 2 0]).pruneOrphansNow Reference.calm).MovesTip
        Reference.calm (Reference.block 4 2 3 []) false ∧
      ((Reference.forkedNode [Reference.payment 2 0]).applyBlock Reference.calm
        (Reference.block 4 2 3 [])).2 = .ok () ∧
      ¬((Reference.forkedNode [Reference.payment 2 0]).applyBlock Reference.calm
        (Reference.block 4 2 3 [])).1.PoolUnconfirmed :=
  ⟨by decide +kernel, ⟨by decide +kernel, by decide +kernel, by decide +kernel⟩,
    by decide +kernel, by decide +kernel⟩

end Node

end PaqusNode
