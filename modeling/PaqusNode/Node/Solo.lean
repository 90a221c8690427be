import PaqusNode.Mempool.Selected
import PaqusNode.Node.Confirm
import PaqusNode.Node.Mining
import PaqusNode.P2p.Poll

/-!
# PaqusNode.Node.Solo

A node that mines alone: transactions are submitted to it at any time, also
while it searches for a nonce, and the only blocks are its own.  Then its pool
can be executed on its ledger at every moment, so a candidate never fails
because of what is pending, and every block that moves the tip confirms as
many transactions as it can hold.

Two things would break this.  A transaction that expires leaves a gap behind
it, so the readings of the clock stay in a window in which nothing expires;
and a transaction that is outbid while a block with it is being searched for
leaves its rival behind in the pool, with a nonce the ledger has passed.
-/

namespace PaqusNode

namespace Node

variable {P : Paqus}

variable {env : Env} {s s' : Node P} {block : P.Block} {minerAddress : Address}
  {timestamp mineAttempts : UInt64} {limit : Nat}

/-! ## Rounds and submissions -/

/-- What happens to a node that mines alone. -/
inductive SoloEvent (P : Paqus)
  | submit (transaction : P.SignedTransaction)
  /-- A round of the miner, `during` being submitted while it searches. -/
  | mine (timestamp mineAttempts : UInt64) (during : List P.SignedTransaction)

/-- The node when the candidate of a round is put together. -/
def pruned (s : Node P) (timestamp : UInt64) : Node P :=
  { s with mempool := s.mempool.pruneExpired timestamp }

/-- The node when the search of a round is over. -/
def searched (env : Env) (s : Node P) (timestamp : UInt64) (during : List P.SignedTransaction) :
    Node P :=
  (s.pruned timestamp).runAll env (during.map .submitTransaction)

def SoloEvent.run (env : Env) (minerAddress : Address) (limit : Nat) (s : Node P) :
    SoloEvent P → Node P
  | .submit transaction => (s.submitTransaction env transaction).1
  | .mine timestamp mineAttempts during =>
      (s.mineOnceUnlocked env minerAddress timestamp mineAttempts limit
        (during.map .submitTransaction)).1

/-- One event after the other. -/
def runSolo (env : Env) (minerAddress : Address) (limit : Nat) (s : Node P)
    (events : List (SoloEvent P)) : Node P :=
  events.foldl (SoloEvent.run env minerAddress limit) s

/-- What a round has selected is still pending when its search is over. -/
def SoloEvent.KeepsSelected (env : Env) (limit : Nat) (s : Node P) : SoloEvent P → Prop
  | .submit _ => True
  | .mine timestamp _ during => ∀ t ∈ (s.pruned timestamp).mempool.selectForBlock limit,
      t ∈ (s.searched env timestamp during).mempool.transactionList

/-- The same of every round of a run. -/
def KeepsSelected (env : Env) (minerAddress : Address) (limit : Nat) :
    Node P → List (SoloEvent P) → Prop
  | _, [] => True
  | s, event :: rest => event.KeepsSelected env limit s ∧
      KeepsSelected env minerAddress limit (event.run env minerAddress limit s) rest

/-- A round during which nothing is submitted. -/
def soloRound (round : UInt64 × UInt64) : SoloEvent P := .mine round.1 round.2 []

/-- Every event of the run moves the tip. -/
def AllMove (env : Env) (minerAddress : Address) (limit : Nat) :
    Node P → List (SoloEvent P) → Prop
  | _, [] => True
  | s, event :: rest =>
      P.ledger.tipHash (event.run env minerAddress limit s).ledger ≠ P.ledger.tipHash s.ledger ∧
        AllMove env minerAddress limit (event.run env minerAddress limit s) rest

/-- The times at which nothing expires that has come since `start`. -/
structure Window (config : MempoolConfig) (start now : UInt64) : Prop where
  after : start ≤ now
  transactionTtl : satSub now start ≤ config.transactionTtlSecs
  lowFeeTtl : satSub now start ≤ config.lowFeeTtlSecs

/-- The time an event reads itself. -/
def SoloEvent.Timely (config : MempoolConfig) (start : UInt64) : SoloEvent P → Prop
  | .submit _ => True
  | .mine timestamp _ _ => Window config start timestamp

/-! ## A block on top of the tip -/

/-- Where the ledger and the pool go together when a block is offered that
sits on the active tip: nowhere, or one block on. -/
inductive TipMove (s s' : Node P) (block : P.Block) : Prop
  | none (hledger : s'.ledger = s.ledger) (hmempool : s'.mempool = s.mempool)
  | one (happly : P.ledger.applyBlock s.ledger block = .ok s'.ledger)
      (hmempool : s'.mempool = s.mempool.removeConfirmed block)

theorem TipMove.sync {s'' : Node P} (h : TipMove s s' block) (hsync : OnlySync s' s'') :
    TipMove s s'' block := by
  cases h with
  | none hledger hmempool =>
      exact .none (hsync.ledger.trans hledger) (hsync.mempool.trans hmempool)
  | one happly hmempool => exact .one (hsync.ledger ▸ happly) (hsync.mempool.trans hmempool)

/-- Bookkeeping before the block does not matter. -/
theorem TipMove.of_sync {s'' : Node P} (h : TipMove s' s'' block) (hsync : OnlySync s s') :
    TipMove s s'' block := by
  cases h with
  | none hledger hmempool =>
      exact .none (hledger.trans hsync.ledger) (hmempool.trans hsync.mempool)
  | one happly hmempool =>
      rw [hsync.ledger] at happly
      rw [hsync.mempool] at hmempool
      exact .one happly hmempool

/-- A block on top of the tip is taken as it is, or the ledger stays. -/
theorem applyKnownParentBlock_onTip (env : Env) (htip : extendsActiveTip s.ledger block = true) :
    TipMove s (s.applyKnownParentBlock env block).1 block := by
  rcases applyKnownParentBlock_cases env s block with ⟨e, heq⟩ | ⟨hash, fc, -, -, -, heq⟩
  · rw [heq]
    exact .none rfl rfl
  rw [heq]
  have hends := connect_connectsTo env { s.tick with forkChoice := fc } block hash
  generalize (connect env { s.tick with forkChoice := fc } block hash).1 = s' at hends ⊢
  cases hends with
  | refused => exact .none rfl rfl
  | side => exact .none rfl rfl
  | extended happly => exact .one happly rfl
  | reorged hside => exact absurd (htip.symm.trans hside) Bool.noConfusion

/-- **What `apply_block` does to a block on the active tip**, if nothing
waits in the orphan pool. -/
theorem applyBlock_onTip (hfc : ForkChoiceLaws P) (env : Env) (hidle : s.hasPendingSyncWork = false)
    (htip : extendsActiveTip s.ledger block = true)
    (hparent : (P.forkChoice.get s.forkChoice (P.block.previousHash block)).isSome) :
    (s.applyBlock env block).1.hasPendingSyncWork = false ∧
      TipMove s (s.applyBlock env block).1 block := by
  have hprune := pruneOrphansNow_onlySync env s
  have hmove := applyKnownParentBlock_onTip env (hprune.ledger.symm ▸ htip :
    extendsActiveTip (s.pruneOrphansNow env).ledger block = true)
  have hframe := applyKnownParentBlock_onlyChain env (s.pruneOrphansNow env) block
  have hidle' : ((s.pruneOrphansNow env).applyKnownParentBlock env block).1.hasPendingSyncWork =
      false := by
    simpa only [hasPendingSyncWork, hframe.orphanBlocks, hframe.missingParentRequests,
      hframe.missingParentRetryAt] using pruneOrphansNow_pending env hidle
  have hne := applyKnownParentBlock_ne_missing hfc env
    (hprune.forkChoice.symm ▸ hparent : (P.forkChoice.get (s.pruneOrphansNow env).forkChoice
      (P.block.previousHash block)).isSome)
  unfold applyBlock
  split
  · next s' hs =>
      simp only [hs] at hmove hidle'
      obtain ⟨hsync, hpending⟩ := processOrphansForParent_pending env hidle' (P.block.hash block)
      exact ⟨hpending, (hmove.of_sync hprune).sync hsync⟩
  · next s' hs => exact absurd (by rw [hs]) hne
  all_goals
    next hs =>
      simp only [hs] at hmove hidle'
      exact ⟨hidle', hmove.of_sync hprune⟩

/-! ## Alone -/

/-- The invariant of a node that mines alone. -/
structure Alone (config : MempoolConfig) (start : UInt64) (g : P.Block) (s : Node P) : Prop where
  sound : Sound s g
  idle : s.hasPendingSyncWork = false
  covered : Mempool.Covered s.ledger s.mempool.senderQueue
  recent : ∀ {hash : TransactionHash} {entry}, s.mempool.transactions[hash]? = some entry →
    start ≤ entry.insertedAt
  config : s.mempool.config = config

section Laws

variable {config : MempoolConfig} {start : UInt64} {g : P.Block} {s : Node P}

/-- Nothing expires within the window. -/
theorem Alone.unexpired (h : Alone config start g s) {now : UInt64}
    (hnow : Window config start now) : s.mempool.Unexpired now := by
  intro hash entry hentry
  have hage := toNat_satSub_le now (h.recent hentry)
  have hlong := UInt64.le_iff_toNat_le.mp hnow.transactionTtl
  have hshort := UInt64.le_iff_toNat_le.mp hnow.lowFeeTtl
  rw [h.config, Mempool.retained, decide_eq_true_eq, UInt64.le_iff_toNat_le, Mempool.ttl]
  split <;> omega

/-- The invariant is about soundness, pending work, ledger and mempool. -/
theorem Alone.of_same (h : Alone config start g s) (hsound : Sound s' g)
    (hidle : s'.hasPendingSyncWork = false) (hledger : s'.ledger = s.ledger)
    (hmempool : s'.mempool = s.mempool) : Alone config start g s' where
  sound := hsound
  idle := hidle
  covered := by
    rw [hledger, hmempool]
    exact h.covered
  recent hentry := h.recent (hmempool ▸ hentry)
  config := hmempool ▸ h.config

variable (hfc : ForkChoiceLaws P) (hchain : ChainLaws P)

include hfc hchain

/-- Pruning within the window keeps the invariant. -/
theorem Alone.pruned (h : Alone config start g s) {now : UInt64}
    (hnow : Window config start now) : Alone config start g (s.pruned now) where
  sound := (Step.pool (.prune now) : Step ⟨fun _ => 0, fun _ => none, fun _ => none⟩ s _).sound
    hfc hchain h.sound
  idle := h.idle
  covered := by
    simp only [Node.pruned, Mempool.senderQueue_pruneExpired (h.unexpired hnow)]
    exact h.covered
  recent hentry := by
    simp only [Node.pruned, (h.unexpired hnow).transactions] at hentry
    exact h.recent hentry
  config := h.config

/-- So does a submitted transaction, whether it is accepted or not. -/
theorem Alone.submit (h : Alone config start g s)
    (hclock : ∀ io, Window config start (env.clock io)) (t : P.SignedTransaction) :
    Alone config start g (s.submitTransaction env t).1 where
  sound := (Operation.run_steps env s (.submitTransaction t)).sound hfc hchain h.sound
  idle := h.idle
  covered := h.covered.insertValidatedAt h.sound.pool (h.unexpired (hclock s.io)) t
  recent {hash entry} hentry := by
    simp only [submitTransaction, tick] at hentry
    have hold := (h.unexpired (hclock s.io)).transactions
    rcases Mempool.insertValidatedAt_cases s.mempool s.ledger t (env.clock s.io) with
      heq | ⟨replacement, -, -, hinserted⟩
    · rw [heq, hold] at hentry
      exact h.recent hentry
    · rw [hinserted.lookup, hold] at hentry
      split at hentry
      · cases hentry
        exact (hclock s.io).after
      split at hentry
      · cases hentry
      · exact h.recent hentry
  config := (Mempool.insertValidatedAt_config ..).trans h.config

theorem Alone.submitAll (h : Alone config start g s)
    (hclock : ∀ io, Window config start (env.clock io)) (during : List P.SignedTransaction) :
    Alone config start g (s.runAll env (during.map .submitTransaction)) ∧
      (s.runAll env (during.map .submitTransaction)).ledger = s.ledger := by
  induction during generalizing s with
  | nil => exact ⟨h, rfl⟩
  | cons t rest ih => exact ih (h.submit hfc hchain hclock t)

/-! ## A round -/

omit hfc hchain in
/-- Preparing a job only prunes the pool. -/
theorem prepareMining_fst (s : Node P) (minerAddress : Address) (timestamp mineAttempts : UInt64)
    (limit : Nat) :
    (s.prepareMining minerAddress timestamp mineAttempts limit).1 = s.pruned timestamp := by
  unfold prepareMining
  simp only
  split
  · rfl
  split <;> rfl

omit hfc hchain in
/-- **Every way a round can end**: the node pruned only, then changed by the
submissions only, or the found block offered to it on top of its tip, and
perhaps written. -/
theorem mineOnceUnlocked_cases (env : Env) (s : Node P) (minerAddress : Address)
    (timestamp mineAttempts : UInt64) (limit : Nat) (during : List P.SignedTransaction)
    (hs' : (s.mineOnceUnlocked env minerAddress timestamp mineAttempts limit
      (during.map .submitTransaction)).1 = s') :
    s' = s.pruned timestamp ∨ s' = s.searched env timestamp during ∨
      ∃ job result storage durable io,
        s.prepareMining minerAddress timestamp mineAttempts limit =
          (s.pruned timestamp, .ok job) ∧
        job.search = .ok (some result) ∧
        P.ledger.tipHash (s.searched env timestamp during).ledger =
          some (P.block.previousHash job.candidate) ∧
        s' = { ((s.searched env timestamp during).applyBlock env result.block).1 with
          storage := storage, durable := durable, io := io } := by
  have hpruned := prepareMining_fst s minerAddress timestamp mineAttempts limit
  subst hs'
  unfold mineOnceUnlocked
  rcases hprepare : s.prepareMining minerAddress timestamp mineAttempts limit with ⟨s₁, e | job⟩
  · rw [hprepare] at hpruned
    exact .inl hpruned
  rw [hprepare] at hpruned
  simp only at hpruned
  subst hpruned
  refine .inr ?_
  cases hsearch : job.search with
  | error e => simp only [hsearch]; exact .inl rfl
  | ok found =>
      cases found with
      | none => simp only [hsearch]; exact .inl rfl
      | some result =>
          simp only [hsearch]
          unfold commitMined
          split
          · exact .inl rfl
          next htip =>
          refine .inr ⟨job, result, ?_⟩
          have hblock : ∀ {s₂ : Node P} {r}, ((s.pruned timestamp).runAll env
              (during.map .submitTransaction)).applyBlock env result.block = (s₂, r) →
              ((s.searched env timestamp during).applyBlock env result.block).1 = s₂ :=
            fun h => congrArg Prod.fst h
          split
          · next s₂ e happly =>
              exact ⟨_, _, _, rfl, hsearch, not_not.mp htip, by rw [hblock happly]⟩
          next s₂ happly =>
          obtain ⟨storage, durable, hsave⟩ := saveLedger_fst env s₂
          refine ⟨storage, durable, s₂.io + 1, rfl, hsearch, not_not.mp htip, ?_⟩
          rw [hblock happly]
          have hflush : (s₂.flushToStorage env).1 = _ := hsave
          split
          all_goals
            next hs =>
              rw [hs] at hflush
              exact hflush

omit hfc hchain in
/-- The block that a round has found. -/
theorem found_of_search {apply : P.Ledger → P.SignedTransaction → Except LedgerError P.Ledger}
    {start : P.Ledger → P.Block → Except LedgerError P.Ledger}
    {finish : P.Ledger → P.Block → Except LedgerError Hash} (hheader : HeaderLaws P)
    (hbody : BodyLaws P) (hexec : ExecutionLaws P apply start finish) {job : MiningJob P}
    {result : MiningResult P} {tipHash : BlockHash} {tipHeight : UInt64}
    (hprepare : s.prepareMining minerAddress timestamp mineAttempts limit = (s', .ok job))
    (hsearch : job.search = .ok (some result)) (hhash : P.ledger.tipHash s'.ledger = some tipHash)
    (hheight : P.ledger.tipHeight s'.ledger = some tipHeight) :
    P.block.previousHash result.block = tipHash ∧
      P.block.transactions result.block = s'.mempool.selectForBlock limit := by
  obtain ⟨_, subsidy, stateRoot, fresh, nonce, -, -, rfl, -, hblock, hblockHeader⟩ :=
    (mined_of_search hheader hprepare hsearch hhash hheight).built
  refine ⟨congrArg Header.previousHash hblockHeader, ?_⟩
  rw [hblock]
  exact (hbody.transactions_minedBlock _ _ _ _).trans (hexec.transactions_withCoinbase ..)

variable {apply : P.Ledger → P.SignedTransaction → Except LedgerError P.Ledger}
  {begin : P.Ledger → P.Block → Except LedgerError P.Ledger}
  {finish : P.Ledger → P.Block → Except LedgerError Hash} (hheader : HeaderLaws P)
  (hbody : BodyLaws P) (hexec : ExecutionLaws P apply begin finish)
  (happly : ApplyLaws P apply begin)

include hheader hbody hexec

/-- **What a round does to a node that mines alone**: nothing besides the
submissions, or it adds a block with what it has selected. -/
theorem Alone.mined (h : Alone config start g s) (hclock : ∀ io, Window config start (env.clock io))
    (htime : Window config start timestamp) {during : List P.SignedTransaction}
    (hs' : (s.mineOnceUnlocked env minerAddress timestamp mineAttempts limit
      (during.map .submitTransaction)).1 = s') :
    Sound s' g ∧ s'.hasPendingSyncWork = false ∧
      ((s'.ledger = s.ledger ∧ (s'.mempool = (s.pruned timestamp).mempool ∨
        s'.mempool = (s.searched env timestamp during).mempool)) ∨
      ∃ block, P.ledger.applyBlock s.ledger block = .ok s'.ledger ∧
        P.block.transactions block = (s.pruned timestamp).mempool.selectForBlock limit ∧
        s'.mempool = (s.searched env timestamp during).mempool.removeConfirmed block) := by
  have hpruned := h.pruned hfc hchain htime
  obtain ⟨hsearched, hledger⟩ : Alone config start g (s.searched env timestamp during) ∧
      (s.searched env timestamp during).ledger = s.ledger :=
    hpruned.submitAll hfc hchain hclock during
  rcases mineOnceUnlocked_cases env s minerAddress timestamp mineAttempts limit during hs' with
    rfl | rfl | ⟨job, result, storage, durable, io, hprepare, hsearch, -, rfl⟩
  · exact ⟨hpruned.sound, hpruned.idle, .inl ⟨rfl, .inl rfl⟩⟩
  · exact ⟨hsearched.sound, hsearched.idle, .inl ⟨hledger, .inr rfl⟩⟩
  obtain ⟨tipHash, tip, bs, hhash, hheight, hindexed, -⟩ := hsearched.sound.synced.tip hfc hchain
  have hextends : P.block.previousHash result.block = tipHash →
      extendsActiveTip (s.searched env timestamp during).ledger result.block = true := by
    intro hprevious
    simp [extendsActiveTip, hhash, hprevious]
  rw [hledger] at hhash hheight
  obtain ⟨hprevious, htransactions⟩ :=
    found_of_search hheader hbody hexec hprepare hsearch hhash hheight
  have hparent : (P.forkChoice.get (s.searched env timestamp during).forkChoice
      (P.block.previousHash result.block)).isSome := by
    rw [hprevious, get_of_indexed hfc hindexed]
    rfl
  have hsound := (applyBlock_steps env (s.searched env timestamp during) result.block).sound
    hfc hchain hsearched.sound
  obtain ⟨hidle, hmove⟩ := applyBlock_onTip hfc env hsearched.idle (hextends hprevious) hparent
  refine ⟨⟨hsound.synced.congr rfl rfl rfl, hsound.root, hsound.founded, hsound.pool⟩, hidle, ?_⟩
  cases hmove with
  | none hsame hpool => exact .inl ⟨hsame.trans hledger, .inr hpool⟩
  | one happly hpool => exact .inr ⟨result.block, hledger ▸ happly, htransactions, hpool⟩

include happly

/-- **A round keeps the pool executable**, if nothing it has selected is
outbid before it commits. -/
theorem Alone.round (h : Alone config start g s) (hclock : ∀ io, Window config start (env.clock io))
    {event : SoloEvent P} (htime : event.Timely config start)
    (hkept : event.KeepsSelected env limit s) :
    Alone config start g (event.run env minerAddress limit s) := by
  cases event with
  | submit t => exact h.submit hfc hchain hclock t
  | mine timestamp mineAttempts during =>
      have hpruned := h.pruned hfc hchain htime
      obtain ⟨hsearched, hledger⟩ : Alone config start g (s.searched env timestamp during) ∧
          (s.searched env timestamp during).ledger = s.ledger :=
        hpruned.submitAll hfc hchain hclock during
      generalize hs' : (SoloEvent.mine timestamp mineAttempts during).run env minerAddress limit s =
        s'
      obtain ⟨hsound, hidle, ⟨hsame, hpool | hpool⟩ | ⟨block, hblock, htransactions, hpool⟩⟩ :=
        h.mined hfc hchain hheader hbody hexec hclock htime hs'
      · exact hpruned.of_same hsound hidle hsame hpool
      · exact hsearched.of_same hsound hidle (hsame.trans hledger.symm) hpool
      · have hdraw := hpruned.covered.draw (hledger ▸ hsearched.covered) hkept
        rw [← htransactions] at hdraw
        refine ⟨hsound, hidle, ?_, fun {hash entry} hentry => ?_, ?_⟩
        · rw [hpool]
          exact (hledger ▸ hsearched.covered : Mempool.Covered s.ledger _).removeConfirmed hdraw
            hexec happly hsearched.sound.pool hblock
        · rw [hpool, Mempool.getElem?_removeConfirmed] at hentry
          split at hentry
          · cases hentry
          · exact hsearched.recent hentry
        · rw [hpool]
          exact hsearched.config

/-- **Whole runs.** -/
theorem Alone.run (h : Alone config start g s) (hclock : ∀ io, Window config start (env.clock io))
    {events : List (SoloEvent P)} (htime : ∀ event ∈ events, event.Timely config start)
    (hkept : KeepsSelected env minerAddress limit s events) :
    Alone config start g (s.runSolo env minerAddress limit events) := by
  induction events generalizing s with
  | nil => exact h
  | cons event rest ih =>
      rw [List.forall_mem_cons] at htime
      exact ih (h.round hfc hchain hheader hbody hexec happly hclock htime.1 hkept.1) htime.2
        hkept.2

/-! ## Rounds that move the tip -/

omit happly in
/-- A round without submissions that moves the tip puts as much into one block
as it can hold, and leaves the rest. -/
theorem Alone.round_moves (h : Alone config start g s)
    (hclock : ∀ io, Window config start (env.clock io)) (htime : Window config start timestamp)
    (hs' : (SoloEvent.mine timestamp mineAttempts []).run env minerAddress limit s = s')
    (hmoves : P.ledger.tipHash s'.ledger ≠ P.ledger.tipHash s.ledger) :
    ∃ block, s'.ledger.chain.blocks.valuesList = s.ledger.chain.blocks.valuesList ++ [block] ∧
      (P.block.transactions block).length = min limit s.mempool.transactions.size ∧
      s.mempool.transactionList.Perm
        (P.block.transactions block ++ s'.mempool.transactionList) := by
  have hpruned := h.pruned hfc hchain htime
  have hsame := (h.unexpired htime).transactions
  obtain ⟨-, -, ⟨hledger, -⟩ | ⟨block, hblock, htransactions, hpool⟩⟩ :=
    h.mined hfc hchain hheader hbody hexec hclock htime hs'
  · exact absurd (by rw [hledger]) hmoves
  have hdraw := Mempool.selectForBlock_draw (s.pruned timestamp).mempool limit
  rw [← htransactions] at hdraw
  have hperm := hpruned.sound.pool.removeConfirmed_perm hdraw
  refine ⟨block, h.sound.synced.chain_concat hfc hchain hblock, ?_, ?_⟩
  · rw [htransactions, Mempool.length_selectForBlock, Node.pruned, hsame]
  · rw [hpool]
    have hlist : (s.pruned timestamp).mempool.transactionList = s.mempool.transactionList := by
      simp only [Mempool.transactionList, Node.pruned, hsame]
    rwa [hlist] at hperm

/-- A round without submissions loses nothing that it has selected. -/
theorem Alone.round_alone (h : Alone config start g s)
    (hclock : ∀ io, Window config start (env.clock io)) (htime : Window config start timestamp) :
    Alone config start g
      ((SoloEvent.mine timestamp mineAttempts []).run env minerAddress limit s) := by
  refine h.round hfc hchain hheader hbody hexec happly hclock htime fun t ht => ?_
  have hdraw := Mempool.selectForBlock_draw (s.pruned timestamp).mempool limit
  exact (Mempool.mem_senderQueue.mp (hdraw.mem_queue ht)).1

/-- **Rounds drain the pool**, each of them by a full block as long as there
is enough for one. -/
theorem Alone.rounds_move (h : Alone config start g s)
    (hclock : ∀ io, Window config start (env.clock io)) {rounds : List (UInt64 × UInt64)}
    (htime : ∀ round ∈ rounds, Window config start round.1)
    (hmoves : AllMove env minerAddress limit s (rounds.map soloRound))
    (hs' : s.runSolo env minerAddress limit (rounds.map soloRound) = s') :
    ∃ blocks, blocks.length = rounds.length ∧
      s'.ledger.chain.blocks.valuesList = s.ledger.chain.blocks.valuesList ++ blocks ∧
      s.mempool.transactionList.Perm
        (blocks.flatMap P.block.transactions ++ s'.mempool.transactionList) ∧
      s'.mempool.transactions.size = s.mempool.transactions.size - rounds.length * limit := by
  induction rounds generalizing s with
  | nil =>
      subst hs'
      exact ⟨[], rfl, by simp [runSolo], by simp [runSolo], by simp [runSolo]⟩
  | cons round rest ih =>
      rw [List.forall_mem_cons] at htime
      obtain ⟨block, hblock, hlength, hperm⟩ :=
        h.round_moves hfc hchain hheader hbody hexec hclock htime.1 rfl hmoves.1
      obtain ⟨blocks, hcount, hblocks, hrest, hsize⟩ :=
        ih (h.round_alone hfc hchain hheader hbody hexec happly hclock htime.1) htime.2 hmoves.2 hs'
      refine ⟨block :: blocks, by simp [hcount], ?_, ?_, ?_⟩
      · rw [hblocks]
        rw [hblock, List.append_assoc, List.singleton_append]
      · rw [List.flatMap_cons, List.append_assoc]
        exact hperm.trans (hrest.append_left _)
      · have hsum := hperm.length_eq
        rw [List.length_append, hlength, Mempool.length_transactionList,
          Mempool.length_transactionList] at hsum
        rw [hsize, List.length_cons, Nat.succ_mul]
        change ((soloRound round).run env minerAddress limit s).mempool.transactions.size - _ = _
        simp only [soloRound] at hsum ⊢
        omega

/-! ## From the start -/

omit hheader hbody hexec happly in
/-- A node that has just been opened and given its pool. -/
theorem alone_of_opened (hrec : RecordLaws P) {E : Env → Prop} {db db' : Storage P}
    (hdb : Written E db) {io : Nat} {consensus : Consensus} {opened : Node P}
    (hopen : initOrLoad env io db consensus = (db', .ok opened)) (config : MempoolConfig)
    (start : UInt64) : ∃ g, Alone config start g (opened.withPool config) := by
  obtain ⟨_, _, g, _, _, hstored, hopened⟩ := hdb.opened hfc hchain hrec hopen
  have hempty : ∀ hash : TransactionHash,
      (opened.withPool config).mempool.transactions[hash]? = none := by
    simp [withPool, Mempool.withConfig]
  have hqueue : ∀ sender, (opened.withPool config).mempool.senderQueue sender = [] := by
    simp [withPool, Mempool.withConfig, Mempool.senderQueue, Mempool.transactionList,
      BTreeMap.valuesList_empty]
  refine ⟨g, ⟨hopened.synced.congr rfl rfl rfl, hopened.chained g List.mem_cons_self, ?_,
    .withConfig config⟩, ?_, fun sender => ?_, fun hentry => ?_, rfl⟩
  · exact hopened.genesisAccounts ▸ hstored.founded
  · exact hasPendingSyncWork_eq_false.mpr ⟨hopened.idle.orphanBlocks,
      hopened.idle.missingParentRequests, hopened.idle.missingParentRetryAt⟩
  · rw [hqueue]
    exact ⟨gapless_nil, Nat.zero_le _⟩
  · rw [hempty] at hentry
    cases hentry

/-- **The pool of a node that mines alone can always be executed.**  Whatever
has been submitted and mined since it was opened, what each sender has pending
has the nonces from the ledger's on without a gap and is paid for, and
whatever is selected for a block executes on the ledger. -/
theorem solo_pool_executable (hrec : RecordLaws P) {E : Env → Prop} {db db' : Storage P}
    (hdb : Written E db) {env : Env} {io : Nat} {consensus : Consensus} {opened : Node P}
    (hopen : initOrLoad env io db consensus = (db', .ok opened))
    (hclock : ∀ io, Window config start (env.clock io)) {minerAddress : Address} {limit : Nat}
    {events : List (SoloEvent P)} (htime : ∀ event ∈ events, event.Timely config start)
    (hkept : KeepsSelected env minerAddress limit (opened.withPool config) events)
    (hs : (opened.withPool config).runSolo env minerAddress limit events = s) :
    (∀ sender,
      Mempool.Contiguous (nonceOf s.ledger.accounts sender)
        (s.mempool.pendingFromSender sender none) ∧
      ((s.mempool.pendingFromSender sender none).map Mempool.cost).sum ≤
        availableOf s.ledger sender) ∧
    ∀ count, ∃ ledger, (s.mempool.selectForBlock count).foldlM apply s.ledger = .ok ledger := by
  obtain ⟨g, hopened⟩ := alone_of_opened hfc hchain hrec hdb hopen config start
  have h := hopened.run hfc hchain hheader hbody hexec happly hclock htime hkept
  rw [hs] at h
  refine ⟨fun sender => ?_, h.covered.selectForBlock hexec⟩
  rw [h.covered.pendingFromSender sender]
  exact h.covered sender

/-- **Mining alone confirms what is pending.**  After any such run, each round
that moves the tip puts a full block of pending transactions onto the chain,
or all that are left; the pool before is what the new blocks hold and what is
still pending, nothing lost and nothing twice. -/
theorem solo_rounds_drain (hrec : RecordLaws P) {E : Env → Prop} {db db' : Storage P}
    (hdb : Written E db) {env : Env} {io : Nat} {consensus : Consensus} {opened : Node P}
    (hopen : initOrLoad env io db consensus = (db', .ok opened))
    (hclock : ∀ io, Window config start (env.clock io)) {minerAddress : Address} {limit : Nat}
    {events : List (SoloEvent P)} (htime : ∀ event ∈ events, event.Timely config start)
    (hkept : KeepsSelected env minerAddress limit (opened.withPool config) events)
    (hs : (opened.withPool config).runSolo env minerAddress limit events = s)
    {rounds : List (UInt64 × UInt64)} (hrounds : ∀ round ∈ rounds, Window config start round.1)
    (hmoves : AllMove env minerAddress limit s (rounds.map soloRound)) {s' : Node P}
    (hs' : s.runSolo env minerAddress limit (rounds.map soloRound) = s') :
    ∃ blocks, blocks.length = rounds.length ∧
      s'.ledger.chain.blocks.valuesList = s.ledger.chain.blocks.valuesList ++ blocks ∧
      s.mempool.transactionList.Perm
        (blocks.flatMap P.block.transactions ++ s'.mempool.transactionList) ∧
      s'.mempool.transactions.size = s.mempool.transactions.size - rounds.length * limit := by
  obtain ⟨g, hopened⟩ := alone_of_opened hfc hchain hrec hdb hopen config start
  have h := hopened.run hfc hchain hheader hbody hexec happly hclock htime hkept
  rw [hs] at h
  exact h.rounds_move hfc hchain hheader hbody hexec happly hclock hrounds hmoves hs'

/-- The node has been opened, given its pool and run alone since. -/
def Solo (config : MempoolConfig) (start : UInt64) (env : Env) (minerAddress : Address)
    (limit : Nat) (s : Node P) : Prop :=
  ∃ (db db' : Storage P) (io : Nat) (consensus : Consensus) (opened : Node P)
    (events : List (SoloEvent P)), Written (fun _ => True) db ∧
    initOrLoad env io db consensus = (db', .ok opened) ∧
    (∀ event ∈ events, event.Timely config start) ∧
    KeepsSelected env minerAddress limit (opened.withPool config) events ∧
    (opened.withPool config).runSolo env minerAddress limit events = s

theorem Solo.alone (hrec : RecordLaws P) (h : Solo config start env minerAddress limit s)
    (hclock : ∀ io, Window config start (env.clock io)) : ∃ g, Alone config start g s := by
  obtain ⟨db, db', io, consensus, opened, events, hdb, hopen, htime, hkept, rfl⟩ := h
  obtain ⟨g, hopened⟩ := alone_of_opened hfc hchain hrec hdb hopen config start
  exact ⟨g, hopened.run hfc hchain hheader hbody hexec happly hclock htime hkept⟩

end Laws

end Node

namespace Reference

/-! ## A crate that executes its blocks -/

/-- The accounts once the miner has its reward. -/
def rewarded (accounts : Accounts) (block : Block) : Accounts :=
  received accounts ⟨0, block.miner, reward, 0, 0, 0⟩

def startBlock (ledger : Ledger Account Block) (block : Block) :
    Except LedgerError (Ledger Account Block) :=
  .ok { ledger with accounts := rewarded ledger.accounts block }

def rootAfter (ledger : Ledger Account Block) (_ : Block) : Except LedgerError Hash :=
  .ok (BitVec.ofNat 512 (ledger.chain.blocks.size + 1))

def executeBlock (ledger : Ledger Account Block) (block : Block) :
    Except LedgerError (Ledger Account Block) := do
  let chain ← insertBlock ledger.chain block
  let ledger ← startBlock ledger block
  let ledger ← block.transactions.foldlM execute ledger
  .ok { ledger with chain := chain }

/-- The crate with blocks applied by `executeBlock`. -/
abbrev solitary : Paqus := { paqus with
  ledger := { paqus.ledger with
    applyBlock := executeBlock
    stateRootAfterBlock := fun ledger block => do
      let ledger ← startBlock ledger block
      let ledger ← block.transactions.foldlM execute ledger
      rootAfter ledger block } }

/-- An executed block is inserted, its miner rewarded and its transactions executed. -/
theorem executeBlock_ok {ledger ledger' : Ledger Account Block} {block : Block}
    (h : executeBlock ledger block = .ok ledger') :
    ∃ chain executed, insertBlock ledger.chain block = .ok chain ∧
      block.transactions.foldlM execute
        { ledger with accounts := rewarded ledger.accounts block } = .ok executed ∧
      ledger' = { executed with chain := chain } := by
  obtain ⟨chain, hchain, hrest⟩ := Except.bind_eq_ok.mp h
  obtain ⟨started, hstarted, hrest'⟩ := Except.bind_eq_ok.mp hrest
  obtain ⟨executed, hexecuted, hledger'⟩ := Except.bind_eq_ok.mp hrest'
  obtain rfl := Except.ok.inj hstarted
  exact ⟨chain, executed, hchain, hexecuted, (Except.ok.inj hledger').symm⟩

theorem keyed_accountAt {accounts : Accounts} (h : Keyed accounts) (address : Address) :
    (accountAt accounts address).address = address := by
  unfold accountAt
  cases haccount : accounts[address]? with
  | none => rfl
  | some account => exact h address account haccount

theorem received_keyed {accounts : Accounts} (h : Keyed accounts) (tx : Tx) :
    Keyed (received accounts tx) :=
  insert_keyed h (keyed_accountAt h tx.receiver)

/-- Accounts stay filed under their addresses. -/
theorem execute_keyed {ledger ledger' : Ledger Account Block} {tx : Tx}
    (h : execute ledger tx = .ok ledger') (hkeyed : Keyed ledger.accounts) :
    Keyed ledger'.accounts := by
  unfold execute at h
  dsimp only at h
  split at h
  · cases h
  split at h
  · cases h
  cases h
  have hpaid : Keyed (paid ledger.accounts tx) :=
    insert_keyed hkeyed (keyed_accountAt hkeyed tx.sender)
  exact received_keyed hpaid tx

theorem solitary_forkChoiceLaws : ForkChoiceLaws solitary := { forkChoiceLaws with }

theorem solitary_headerLaws : HeaderLaws solitary := { headerLaws with }

theorem solitary_bodyLaws : BodyLaws solitary := ⟨fun _ _ _ _ => rfl⟩

theorem solitary_chainLaws : ChainLaws solitary := { chainLaws with
  apply_chain := fun h => by
    obtain ⟨chain, executed, hchain, -, rfl⟩ := executeBlock_ok h
    exact hchain }

/-- The crate that executes its blocks satisfies the laws of records. -/
theorem solitary_recordLaws : RecordLaws solitary := { recordLaws with
  apply_keyed := fun {ledger block ledger'} h hkeyed => by
    obtain ⟨chain, executed, -, hexecuted, rfl⟩ := executeBlock_ok h
    have hkeyed' : Keyed executed.accounts :=
      foldlM_invariant (fun ledger : Ledger Account Block => Keyed ledger.accounts)
        (fun _ _ _ _ hs htx => execute_keyed htx hs)
        (received_keyed hkeyed ⟨0, block.miner, reward, 0, 0, 0⟩) hexecuted
    exact hkeyed' }

/-- **The crate that executes its blocks satisfies the laws of execution.** -/
theorem solitary_executionLaws : ExecutionLaws solitary execute startBlock rootAfter where
  apply_ok := executionLaws.apply_ok
  apply_nonce := executionLaws.apply_nonce
  apply_available := executionLaws.apply_available
  start_nonce h address := by
    cases h
    exact (nonceOf_eq _ _).trans (((accountAt_received _ _ _).1).trans (nonceOf_eq _ _).symm)
  start_available {ledger block _} h address := by
    cases h
    have hle := (accountAt_received ledger.accounts ⟨0, block.miner, reward, 0, 0, 0⟩ address).2
    exact (availableOf_eq ledger address).trans_le
      (hle.trans_eq (availableOf_eq { ledger with
        accounts := rewarded ledger.accounts block } address).symm)
  root_after _ _ := rfl
  transactions_withCoinbase _ _ _ _ _ _ _ _ := rfl

theorem solitary_applyLaws : ApplyLaws solitary execute startBlock where
  apply_block {ledger block ledger'} h := by
    obtain ⟨chain, executed, -, hexecuted, rfl⟩ := executeBlock_ok h
    refine ⟨_, executed, rfl, hexecuted, fun address => ⟨rfl, ?_⟩⟩
    exact (availableOf_eq executed address).trans_le
      (availableOf_eq { executed with chain := chain } address).ge

/-- The node that knows the genesis block of that crate. -/
def solitaryNode : Node solitary :=
  (Node.initOrLoad calm 0 (Storage.empty (P := solitary)) consensus).2.toOption.get
    (by decide +kernel)

theorem solitaryNode_opened : Node.initOrLoad calm 0 (Storage.empty (P := solitary)) consensus =
    ((Node.initOrLoad calm 0 (Storage.empty (P := solitary)) consensus).1, .ok solitaryNode) :=
  eq_mk_ok_of_toOption (Option.some_get _).symm

theorem window_zero : Node.Window MempoolConfig.default 0 0 :=
  ⟨by decide, by decide, by decide⟩

/-- Three payments of the miner, the second while a block with the first is
searched for. -/
def soloEvents : List (Node.SoloEvent solitary) :=
  [.submit (payment 2 0), .mine 0 1 [payment 9 1], .submit (payment 3 2)]

theorem soloEvents_timely :
    ∀ event ∈ soloEvents, event.Timely MempoolConfig.default 0 := by
  simp [soloEvents, Node.SoloEvent.Timely, window_zero]

/-- The node after these. -/
def soloNode : Node solitary :=
  (solitaryNode.withPool MempoolConfig.default).runSolo calm 1 1 soloEvents

theorem soloNode_eq : (solitaryNode.withPool MempoolConfig.default).runSolo calm 1 1 soloEvents =
    soloNode := rfl

theorem soloEvents_keep : Node.KeepsSelected calm 1 1
    (solitaryNode.withPool MempoolConfig.default) soloEvents :=
  ⟨trivial, by unfold Node.SoloEvent.KeepsSelected; decide +kernel, trivial, trivial⟩

theorem soloNode_solo : Node.Solo MempoolConfig.default 0 calm 1 1 soloNode :=
  ⟨_, _, _, _, _, _, .empty, solitaryNode_opened, soloEvents_timely, soloEvents_keep, soloNode_eq⟩

end Reference

/-- The first payment is confirmed, the others are pending. -/
theorem Node.solo_pool_executable_of_payments :
    Reference.soloNode.mempool.pendingFromSender 1 none =
        [Reference.payment 9 1, Reference.payment 3 2] ∧
      Mempool.Contiguous (nonceOf Reference.soloNode.ledger.accounts 1)
        (Reference.soloNode.mempool.pendingFromSender 1 none) :=
  ⟨by decide +kernel, ((solo_pool_executable Reference.solitary_forkChoiceLaws
    Reference.solitary_chainLaws Reference.solitary_headerLaws Reference.solitary_bodyLaws
    Reference.solitary_executionLaws Reference.solitary_applyLaws Reference.solitary_recordLaws
    (.empty (E := fun _ => True)) Reference.solitaryNode_opened (fun _ => Reference.window_zero)
    Reference.soloEvents_timely Reference.soloEvents_keep Reference.soloNode_eq).1 1).1⟩

/-- One more block, one more payment confirmed. -/
theorem Node.solo_rounds_drain_of_payments :
    ∃ blocks : List Reference.Block, blocks.length = 1 ∧
      Reference.soloNode.mempool.transactionList.Perm
        (blocks.flatMap Reference.Block.transactions ++
          (Reference.soloNode.runSolo Reference.calm 1 1
            ([(0, 1)].map soloRound)).mempool.transactionList) := by
  have hrounds : ∀ round ∈ [((0 : UInt64), (1 : UInt64))],
      Window MempoolConfig.default 0 round.1 := by
    simp [Reference.window_zero]
  have hmoves : AllMove Reference.calm 1 1 Reference.soloNode ([(0, 1)].map soloRound) := by
    rw [List.map_singleton, AllMove, AllMove, and_true]
    decide +kernel
  obtain ⟨blocks, hlength, -, hperm, -⟩ := solo_rounds_drain Reference.solitary_forkChoiceLaws
    Reference.solitary_chainLaws Reference.solitary_headerLaws Reference.solitary_bodyLaws
    Reference.solitary_executionLaws Reference.solitary_applyLaws Reference.solitary_recordLaws
    (.empty (E := fun _ => True)) Reference.solitaryNode_opened (fun _ => Reference.window_zero)
    Reference.soloEvents_timely Reference.soloEvents_keep Reference.soloNode_eq hrounds hmoves rfl
  exact ⟨blocks, hlength, hperm⟩

end PaqusNode
