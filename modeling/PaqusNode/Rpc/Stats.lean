import PaqusNode.Node.Difficulty
import PaqusNode.Rpc

/-!
# PaqusNode.Rpc.Stats

The statistics of the chain (`chain_stats`, the route `/stats`).  They are
accumulated in one pass over the heights from 0 to the tip, each total with
saturation, from blocks read out of the database.  While no write fails the
database holds the chain of the ledger, and the totals are those of that
chain: what a reorg has disconnected and what was stored as a side block is
not counted.

The name of the chain and the other constants that are only displayed are left
out of the response.
-/

namespace PaqusNode

namespace Rpc

variable {P : Paqus}

/-! ## The pass over the chain -/

/-- The accumulators of `chain_stats`. -/
structure Totals where
  blocks : UInt64 := 0
  minedSupply : UInt64 := 0
  totalCoinbaseRewards : UInt64 := 0
  totalFeesCollected : UInt64 := 0
  totalTransactions : UInt64 := 0
  totalTransferVolume : UInt64 := 0
  totalTransactionFees : UInt64 := 0
  previousTimestamp : Option UInt64 := none
  totalBlockTimeSecs : UInt64 := 0
  blockTimeSamples : UInt64 := 0
deriving DecidableEq, Repr

namespace Totals

/-- A block is counted and its distance to the one before it. -/
def addTime (totals : Totals) (block : P.Block) : Totals :=
  let timestamp := P.block.timestamp block
  let totals := { totals with blocks := satAdd totals.blocks 1 }
  let totals :=
    match totals.previousTimestamp with
    | none => totals
    | some previousTimestamp =>
        { totals with
          totalBlockTimeSecs :=
            satAdd totals.totalBlockTimeSecs (satSub timestamp previousTimestamp)
          blockTimeSamples := satAdd totals.blockTimeSamples 1 }
  { totals with previousTimestamp := some timestamp }

/-- The coinbase of a block, if it has one. -/
def addCoinbase (details : Details P) (totals : Totals) (block : P.Block) : Totals :=
  match details.coinbase block with
  | none => totals
  | some coinbase =>
      { totals with
        minedSupply := satAdd totals.minedSupply coinbase.subsidy.toUInt64
        totalFeesCollected := satAdd totals.totalFeesCollected coinbase.fees.toUInt64
        totalCoinbaseRewards := satAdd totals.totalCoinbaseRewards coinbase.total.toUInt64 }

def addTransaction (totals : Totals) (transaction : P.SignedTransaction) : Totals :=
  { totals with
    totalTransactions := satAdd totals.totalTransactions 1
    totalTransferVolume :=
      satAdd totals.totalTransferVolume (P.transaction.amount transaction).toUInt64
    totalTransactionFees :=
      satAdd totals.totalTransactionFees (P.transaction.fee transaction).toUInt64 }

/-- One turn of the loop of `chain_stats`. -/
def addBlock (details : Details P) (totals : Totals) (block : P.Block) : Totals :=
  (P.block.transactions block).foldl addTransaction
    ((totals.addTime block).addCoinbase details block)

end Totals

/-- The constants of the crate that the statistics compute with, as `u64`. -/
structure Supply where
  genesisPremine : UInt64
  maxMinedSupply : UInt64

/-- `ChainStatsResponse`. -/
structure ChainStats where
  height : UInt64
  blocks : UInt64
  averageBlockTimeSecs : Option UInt64
  minedSupply : UInt64
  currentSupply : UInt64
  remainingMinedSupply : UInt64
  totalCoinbaseRewards : UInt64
  totalFeesCollected : UInt64
  totalTransactions : UInt64
  pendingTransactions : UInt64
  totalTransferVolume : UInt64
  totalTransactionFees : UInt64
  averageTransferAmount : UInt64
deriving DecidableEq, Repr

/-- The response from the accumulators. -/
def Totals.stats (supply : Supply) (height pendingTransactions : UInt64) (totals : Totals) :
    ChainStats where
  height := height
  blocks := totals.blocks
  averageBlockTimeSecs :=
    if totals.blockTimeSamples = 0 then none
    else some (totals.totalBlockTimeSecs / totals.blockTimeSamples)
  minedSupply := totals.minedSupply
  currentSupply := satAdd supply.genesisPremine totals.minedSupply
  remainingMinedSupply := satSub supply.maxMinedSupply totals.minedSupply
  totalCoinbaseRewards := totals.totalCoinbaseRewards
  totalFeesCollected := totals.totalFeesCollected
  totalTransactions := totals.totalTransactions
  pendingTransactions := pendingTransactions
  totalTransferVolume := totals.totalTransferVolume
  totalTransactionFees := totals.totalTransactionFees
  averageTransferAmount :=
    if totals.totalTransactions = 0 then 0
    else totals.totalTransferVolume / totals.totalTransactions

/-- `chain_stats`. -/
def chainStats (details : Details P) (supply : Supply) (s : Node P) :
    Except RpcError ChainStats :=
  let tip := tipHeight s
  (loadBlocks s (List.range (tip.toNat + 1))).map fun rows =>
    ((rows.map Prod.snd).foldl (Totals.addBlock details) {}).stats supply tip
      (UInt64.ofNat s.mempool.transactions.size)

/-! ## What the totals are -/

/-- A sum as a `u64` can report it. -/
def capped (n : Nat) : Nat := min n (2 ^ 64 - 1)

theorem capped_toNat (n : UInt64) : capped n.toNat = n.toNat :=
  Nat.min_eq_left (Nat.le_sub_one_of_lt n.toNat_lt)

theorem capped_capped_add (m n : Nat) : capped (capped m + n) = capped (m + n) := by
  unfold capped
  omega

/-- What the coinbase of a block pays, as `part` reads it. -/
def paid (details : Details P) (part : Coinbase → UInt32) (block : P.Block) : Nat :=
  ((details.coinbase block).map fun coinbase => (part coinbase).toNat).getD 0

/-- A quantity of the transactions of a block, summed up. -/
def moved (part : P.SignedTransaction → UInt32) (block : P.Block) : Nat :=
  ((P.block.transactions block).map fun transaction => (part transaction).toNat).sum

/-- The seconds from each block to the next, none where the clock went back. -/
def blockTimes (previousTimestamp : UInt64) : List P.Block → List Nat
  | [] => []
  | block :: rest =>
      ((P.block.timestamp block).toNat - previousTimestamp.toNat) ::
        blockTimes (P.block.timestamp block) rest

/-- Where the clock never goes back, the block times add up to the time from
the first block to the last one. -/
theorem sum_blockTimes {first : P.Block} {bs : List P.Block}
    (h : (first :: bs).Pairwise fun b c => P.block.timestamp b ≤ P.block.timestamp c) :
    (P.block.timestamp first).toNat + (blockTimes (P.block.timestamp first) bs).sum =
      (P.block.timestamp ((first :: bs).getLast (List.cons_ne_nil _ _))).toNat := by
  induction bs generalizing first with
  | nil => simp [blockTimes]
  | cons b bs ih =>
      obtain ⟨hfirst, hrest⟩ := List.pairwise_cons.mp h
      have hle := UInt64.le_iff_toNat_le.mp (hfirst b List.mem_cons_self)
      rw [List.getLast_cons (List.cons_ne_nil _ _), ← ih hrest, blockTimes, List.sum_cons]
      omega

namespace Totals

/-- The transactions of a block change only what is counted of them. -/
theorem foldl_addTransaction_eq (transactions : List P.SignedTransaction) (totals : Totals) :
    transactions.foldl addTransaction totals =
      { totals with
        totalTransactions := (transactions.foldl addTransaction totals).totalTransactions
        totalTransferVolume := (transactions.foldl addTransaction totals).totalTransferVolume
        totalTransactionFees :=
          (transactions.foldl addTransaction totals).totalTransactionFees } := by
  induction transactions generalizing totals with
  | nil => rfl
  | cons transaction rest ih =>
      rw [List.foldl_cons, ih]
      rfl

/-- A total to which every item adds its part is the sum of the parts. -/
theorem toNat_foldl {α : Type} (step : Totals → α → Totals) (total : Totals → UInt64)
    (part : α → Nat)
    (hstep : ∀ totals a, (total (step totals a)).toNat = capped ((total totals).toNat + part a))
    (l : List α) (totals : Totals) :
    (total (l.foldl step totals)).toNat = capped ((total totals).toNat + (l.map part).sum) :=
  foldl_saturating (f := fun totals => (total totals).toNat) hstep l
    (Nat.le_sub_one_of_lt (total totals).toNat_lt)

section Block

variable (details : Details P) (totals : Totals) (block : P.Block)

/-- Adding the time of a block changes these fields only. -/
theorem addTime_eq : totals.addTime block =
    { totals with
      blocks := satAdd totals.blocks 1
      previousTimestamp := some (P.block.timestamp block)
      totalBlockTimeSecs := (totals.addTime block).totalBlockTimeSecs
      blockTimeSamples := (totals.addTime block).blockTimeSamples } := by
  unfold addTime
  cases totals.previousTimestamp <;> rfl

theorem addCoinbase_eq : totals.addCoinbase details block =
    { totals with
      minedSupply := (totals.addCoinbase details block).minedSupply
      totalFeesCollected := (totals.addCoinbase details block).totalFeesCollected
      totalCoinbaseRewards := (totals.addCoinbase details block).totalCoinbaseRewards } := by
  unfold addCoinbase
  cases details.coinbase block <;> rfl

/-- The three sums over the coinbase outputs, each capped at `u64::MAX`. -/
theorem toNat_addCoinbase :
    (totals.addCoinbase details block).minedSupply.toNat =
        capped (totals.minedSupply.toNat + paid details Coinbase.subsidy block) ∧
      (totals.addCoinbase details block).totalFeesCollected.toNat =
        capped (totals.totalFeesCollected.toNat + paid details Coinbase.fees block) ∧
      (totals.addCoinbase details block).totalCoinbaseRewards.toNat =
        capped (totals.totalCoinbaseRewards.toNat + paid details Coinbase.total block) := by
  unfold addCoinbase paid
  cases details.coinbase block with
  | none => simp [capped_toNat]
  | some coinbase => simp [toNat_satAdd, capped]

/-- The three sums over the transactions of a block. -/
theorem toNat_addTransactions (transactions : List P.SignedTransaction) :
    (transactions.foldl addTransaction totals).totalTransactions.toNat =
        capped (totals.totalTransactions.toNat + transactions.length) ∧
      (transactions.foldl addTransaction totals).totalTransferVolume.toNat =
        capped (totals.totalTransferVolume.toNat +
          (transactions.map fun t => (P.transaction.amount t).toNat).sum) ∧
      (transactions.foldl addTransaction totals).totalTransactionFees.toNat =
        capped (totals.totalTransactionFees.toNat +
          (transactions.map fun t => (P.transaction.fee t).toNat).sum) := by
  have hcount := toNat_foldl addTransaction totalTransactions (fun _ : P.SignedTransaction => 1)
    (fun _ _ => by simp [addTransaction, toNat_satAdd, capped]) transactions totals
  have hvolume := toNat_foldl addTransaction totalTransferVolume
    (fun t => (P.transaction.amount t).toNat)
    (fun _ _ => by simp [addTransaction, toNat_satAdd, capped]) transactions totals
  have hfees := toNat_foldl addTransaction totalTransactionFees
    (fun t => (P.transaction.fee t).toNat)
    (fun _ _ => by simp [addTransaction, toNat_satAdd, capped]) transactions totals
  exact ⟨by simpa using hcount, hvolume, hfees⟩

/-- What one block adds to each total. -/
theorem toNat_addBlock :
    (totals.addBlock details block).blocks.toNat = capped (totals.blocks.toNat + 1) ∧
      (totals.addBlock details block).minedSupply.toNat =
        capped (totals.minedSupply.toNat + paid details Coinbase.subsidy block) ∧
      (totals.addBlock details block).totalFeesCollected.toNat =
        capped (totals.totalFeesCollected.toNat + paid details Coinbase.fees block) ∧
      (totals.addBlock details block).totalCoinbaseRewards.toNat =
        capped (totals.totalCoinbaseRewards.toNat + paid details Coinbase.total block) ∧
      (totals.addBlock details block).totalTransactions.toNat =
        capped (totals.totalTransactions.toNat + (P.block.transactions block).length) ∧
      (totals.addBlock details block).totalTransferVolume.toNat =
        capped (totals.totalTransferVolume.toNat + moved P.transaction.amount block) ∧
      (totals.addBlock details block).totalTransactionFees.toNat =
        capped (totals.totalTransactionFees.toNat + moved P.transaction.fee block) := by
  have hcoinbase := toNat_addCoinbase details (totals.addTime block) block
  have hmoved := toNat_addTransactions ((totals.addTime block).addCoinbase details block)
    (P.block.transactions block)
  obtain ⟨hcount, hvolume, hfees⟩ :
      ((totals.addTime block).addCoinbase details block).totalTransactions =
          totals.totalTransactions ∧
        ((totals.addTime block).addCoinbase details block).totalTransferVolume =
          totals.totalTransferVolume ∧
        ((totals.addTime block).addCoinbase details block).totalTransactionFees =
          totals.totalTransactionFees := by
    rw [addCoinbase_eq, addTime_eq]
    exact ⟨rfl, rfl, rfl⟩
  rw [hcount, hvolume, hfees] at hmoved
  refine ⟨?_, ?_, ?_, ?_, hmoved⟩
  all_goals rw [addBlock, foldl_addTransaction_eq]
  · rw [addCoinbase_eq, addTime_eq]
    simp [toNat_satAdd, capped]
  · rw [hcoinbase.1, addTime_eq]
  · rw [hcoinbase.2.1, addTime_eq]
  · rw [hcoinbase.2.2, addTime_eq]

theorem addBlock_previousTimestamp :
    (totals.addBlock details block).previousTimestamp = some (P.block.timestamp block) := by
  rw [addBlock, foldl_addTransaction_eq, addCoinbase_eq, addTime_eq]

/-- A block after another one is a sample of the block time. -/
theorem toNat_addBlock_time {previousTimestamp : UInt64}
    (h : totals.previousTimestamp = some previousTimestamp) :
    (totals.addBlock details block).totalBlockTimeSecs.toNat =
        capped (totals.totalBlockTimeSecs.toNat +
          ((P.block.timestamp block).toNat - previousTimestamp.toNat)) ∧
      (totals.addBlock details block).blockTimeSamples.toNat =
        capped (totals.blockTimeSamples.toNat + 1) := by
  rw [addBlock, foldl_addTransaction_eq, addCoinbase_eq]
  simp [addTime, h, toNat_satAdd, toNat_satSub, capped]

/-- The first block is none. -/
theorem addBlock_time_of_none (h : totals.previousTimestamp = none) :
    (totals.addBlock details block).totalBlockTimeSecs = totals.totalBlockTimeSecs ∧
      (totals.addBlock details block).blockTimeSamples = totals.blockTimeSamples := by
  rw [addBlock, foldl_addTransaction_eq, addCoinbase_eq]
  simp [addTime, h]

end Block

variable (details : Details P)

/-- The block times, once a timestamp to start from is known. -/
theorem toNat_foldl_addBlock_time (bs : List P.Block) {totals : Totals}
    {previousTimestamp : UInt64} (h : totals.previousTimestamp = some previousTimestamp) :
    (bs.foldl (addBlock details) totals).totalBlockTimeSecs.toNat =
        capped (totals.totalBlockTimeSecs.toNat + (blockTimes previousTimestamp bs).sum) ∧
      (bs.foldl (addBlock details) totals).blockTimeSamples.toNat =
        capped (totals.blockTimeSamples.toNat + bs.length) := by
  induction bs generalizing totals previousTimestamp with
  | nil => simp [blockTimes, capped_toNat]
  | cons b bs ih =>
      obtain ⟨htime, hsamples⟩ := toNat_addBlock_time details totals b h
      obtain ⟨htimes, hlength⟩ := ih (addBlock_previousTimestamp details totals b)
      rw [List.foldl_cons, htimes, hlength, htime, hsamples, capped_capped_add, capped_capped_add,
        blockTimes, List.sum_cons, List.length_cons, Nat.add_assoc, Nat.add_assoc,
        Nat.add_comm 1]
      exact ⟨rfl, rfl⟩

/-- The block times of a whole chain. -/
theorem toNat_foldl_time (first : P.Block) (bs : List P.Block) :
    ((first :: bs).foldl (addBlock details) {}).totalBlockTimeSecs.toNat =
        capped (blockTimes (P.block.timestamp first) bs).sum ∧
      ((first :: bs).foldl (addBlock details) {}).blockTimeSamples.toNat = capped bs.length := by
  obtain ⟨htime, hsamples⟩ := addBlock_time_of_none details {} first rfl
  have h := toNat_foldl_addBlock_time details bs (addBlock_previousTimestamp details {} first)
  rw [htime, hsamples] at h
  simpa using h

end Totals

/-! ## What the statistics say -/

/-- The statistics are those of a chain that starts with `first`. -/
structure ChainStats.Of (details : Details P) (supply : Supply) (stats : ChainStats)
    (first : P.Block) (bs : List P.Block) : Prop where
  blocks : stats.blocks.toNat = capped (first :: bs).length
  minedSupply : stats.minedSupply.toNat =
    capped ((first :: bs).map (paid details Coinbase.subsidy)).sum
  currentSupply : stats.currentSupply.toNat =
    capped (supply.genesisPremine.toNat + ((first :: bs).map (paid details Coinbase.subsidy)).sum)
  remainingMinedSupply : stats.remainingMinedSupply.toNat =
    supply.maxMinedSupply.toNat - ((first :: bs).map (paid details Coinbase.subsidy)).sum
  totalCoinbaseRewards : stats.totalCoinbaseRewards.toNat =
    capped ((first :: bs).map (paid details Coinbase.total)).sum
  totalFeesCollected : stats.totalFeesCollected.toNat =
    capped ((first :: bs).map (paid details Coinbase.fees)).sum
  totalTransactions : stats.totalTransactions.toNat =
    capped ((first :: bs).flatMap P.block.transactions).length
  totalTransferVolume : stats.totalTransferVolume.toNat =
    capped ((first :: bs).map (moved P.transaction.amount)).sum
  totalTransactionFees : stats.totalTransactionFees.toNat =
    capped ((first :: bs).map (moved P.transaction.fee)).sum
  averageTransferAmount : stats.averageTransferAmount.toNat =
    stats.totalTransferVolume.toNat / stats.totalTransactions.toNat
  averageBlockTimeSecs : stats.averageBlockTimeSecs.map UInt64.toNat =
    if bs = [] then none
    else some (capped (blockTimes (P.block.timestamp first) bs).sum / capped bs.length)

/-- The totals of a pass over a chain. -/
theorem Totals.stats_of (details : Details P) (supply : Supply) (height pending : UInt64)
    (first : P.Block) (bs : List P.Block) :
    (((first :: bs).foldl (addBlock details) {}).stats supply height pending).Of details supply
      first bs := by
  have hsum (total : Totals → UInt64) (part : P.Block → Nat) (hzero : total {} = 0)
      (hstep : ∀ totals b,
        (total (addBlock details totals b)).toNat = capped ((total totals).toNat + part b)) :
      (total ((first :: bs).foldl (addBlock details) {})).toNat =
        capped ((first :: bs).map part).sum := by
    have := toNat_foldl (addBlock details) total part hstep (first :: bs) {}
    simpa [hzero] using this
  have hblocks := hsum Totals.blocks (fun _ => 1) rfl fun t b => (toNat_addBlock details t b).1
  have hmined := hsum Totals.minedSupply _ rfl fun t b => (toNat_addBlock details t b).2.1
  have hcount := hsum Totals.totalTransactions _ rfl fun t b =>
    (toNat_addBlock details t b).2.2.2.2.1
  have hrewards := hsum Totals.totalCoinbaseRewards _ rfl fun t b =>
    (toNat_addBlock details t b).2.2.2.1
  have hcollected := hsum Totals.totalFeesCollected _ rfl fun t b =>
    (toNat_addBlock details t b).2.2.1
  have hvolume := hsum Totals.totalTransferVolume _ rfl fun t b =>
    (toNat_addBlock details t b).2.2.2.2.2.1
  have hfees := hsum Totals.totalTransactionFees _ rfl fun t b =>
    (toNat_addBlock details t b).2.2.2.2.2.2
  obtain ⟨htime, hsamples⟩ := toNat_foldl_time details first bs
  generalize (first :: bs).foldl (addBlock details) {} = totals at *
  exact {
    blocks := by
      rw [← Nat.mul_one (first :: bs).length, ← List.sum_replicate_nat, ← List.map_const']
      exact hblocks
    minedSupply := hmined
    currentSupply := by
      simp only [Totals.stats, toNat_satAdd, hmined]
      rw [Nat.add_comm, Nat.add_comm supply.genesisPremine.toNat]
      exact capped_capped_add _ _
    remainingMinedSupply := by
      have hbound := supply.maxMinedSupply.toNat_lt
      simp only [Totals.stats, toNat_satSub, hmined, capped]
      omega
    totalCoinbaseRewards := hrewards
    totalFeesCollected := hcollected
    totalTransactions := by
      rw [List.length_flatMap]
      exact hcount
    totalTransferVolume := hvolume
    totalTransactionFees := hfees
    averageTransferAmount := by
      simp only [Totals.stats]
      split
      · next hzero => simp [hzero]
      · exact UInt64.toNat_div _ _
    averageBlockTimeSecs := by
      simp only [Totals.stats, ← UInt64.toNat_inj, hsamples]
      cases bs with
      | nil => simp [capped]
      | cons b bs =>
          have hne : capped (bs.length + 1) ≠ 0 := by simp [capped]
          simp [hne, UInt64.toNat_div, htime, hsamples] }

/-- Where every coinbase takes the fees of its block, the fees collected are
the fees paid. -/
theorem ChainStats.Of.fees_eq {details : Details P} {supply : Supply} {stats : ChainStats}
    {first : P.Block} {bs : List P.Block} (h : stats.Of details supply first bs)
    (hfees : ∀ b ∈ first :: bs, paid details Coinbase.fees b = moved P.transaction.fee b) :
    stats.totalFeesCollected = stats.totalTransactionFees := by
  rw [← UInt64.toNat_inj, h.totalFeesCollected, h.totalTransactionFees, List.map_congr_left hfees]

/-- Where the clock never goes back, the average is the time of the chain over
the number of its steps. -/
theorem ChainStats.Of.averageBlockTimeSecs_of_pairwise {details : Details P} {supply : Supply}
    {stats : ChainStats} {first : P.Block} {bs : List P.Block}
    (h : stats.Of details supply first bs)
    (hclock : (first :: bs).Pairwise fun b c => P.block.timestamp b ≤ P.block.timestamp c) :
    stats.averageBlockTimeSecs.map UInt64.toNat =
      if bs = [] then none
      else some (((P.block.timestamp ((first :: bs).getLast (List.cons_ne_nil _ _))).toNat -
        (P.block.timestamp first).toNat) / capped bs.length) := by
  have hsum := sum_blockTimes hclock
  have hlast := (P.block.timestamp ((first :: bs).getLast (List.cons_ne_nil _ _))).toNat_lt
  have hcap : capped (blockTimes (P.block.timestamp first) bs).sum =
      (blockTimes (P.block.timestamp first) bs).sum := Nat.min_eq_left (by omega)
  rw [h.averageBlockTimeSecs, hcap, ← hsum, Nat.add_sub_cancel_left]

section Laws

variable (hfc : ForkChoiceLaws P) (hchain : ChainLaws P) (hrec : RecordLaws P)
  (details : Details P) (supply : Supply)

include hchain hrec

/-- Over a database that holds the ledger in memory, the statistics are those
of its chain. -/
theorem chainStats_of_backs {s : Node P} {r : BlockHash} (h : Node.Backs s.ledger s r) :
    ∃ stats first bs, s.ledger.chain.blocks.valuesList = first :: bs ∧
      chainStats details supply s = .ok stats ∧
      P.ledger.tipHeight s.ledger = some stats.height ∧
      stats.Of details supply first bs := by
  obtain ⟨g, bs, blocks, -, hstored, -⟩ := h
  obtain ⟨hof, htip⟩ := chainOf_of_foldlM hchain (replay_chain hchain hstored.replayed)
  have htipHeight : P.ledger.tipHeight s.ledger = (g :: bs).getLast?.map P.block.height := by
    rw [List.getLast?_eq_some_getLast (List.cons_ne_nil g bs), Option.map_some]
    exact (htip s.ledger.accounts _ (List.getLast?_eq_some_getLast (List.cons_ne_nil g bs))).height
  have hload := Storage.loadBlockByHeight_eq hrec hstored.holds.byHeight hof.byHeight
  have hblocks : ((List.range ((tipHeight s).toNat + 1)).filterMap fun i =>
      ((g :: bs)[i]?).map (Prod.mk (UInt64.ofNat i))).map Prod.snd = g :: bs := by
    rw [List.map_filterMap]
    simp only [Option.map_map, Function.comp_def, Option.map_id']
    rw [filterMap_getElem?_range, take_tipHeight hof.byHeight htipHeight]
  refine ⟨_, g, bs, hof.values, ?_, ?_, Totals.stats_of details supply (tipHeight s)
    (UInt64.ofNat s.mempool.transactions.size) g bs⟩
  · rw [chainStats, loadBlocks_eq hload hof.byHeight (range_lt _), Except.map, hblocks]
  · rw [tipHeight, htipHeight, List.getLast?_eq_some_getLast (List.cons_ne_nil g bs)]
    rfl

include hfc

/-- **The statistics are those of the active chain.**  After any run of a node
whose writes succeed, `chain_stats` answers, and every total is the sum over
the blocks of the ledger's chain as far as a `u64` holds it. -/
theorem stats_of_active_chain {db db' : Storage P} (hdb : Node.Written (fun _ => True) db)
    {env : Env} (henv : env.Faultless) {io : Nat} {consensus : Consensus} {s₀ : Node P}
    (hopen : Node.initOrLoad env io db consensus = (db', .ok s₀))
    (operations : List (Node.Operation P)) :
    ∃ stats first bs,
      (s₀.runAll env operations).ledger.chain.blocks.valuesList = first :: bs ∧
      chainStats details supply (s₀.runAll env operations) = .ok stats ∧
      P.ledger.tipHeight (s₀.runAll env operations).ledger = some stats.height ∧
      stats.Of details supply first bs ∧
      ((∀ b ∈ first :: bs, paid details Coinbase.fees b = moved P.transaction.fee b) →
        stats.totalFeesCollected = stats.totalTransactionFees) ∧
      ((first :: bs).Pairwise (fun b c => P.block.timestamp b ≤ P.block.timestamp c) →
        stats.averageBlockTimeSecs.map UInt64.toNat =
          if bs = [] then none
          else some (((P.block.timestamp ((first :: bs).getLast (List.cons_ne_nil _ _))).toNat -
            (P.block.timestamp first).toNat) / capped bs.length)) := by
  obtain ⟨_, _, g, _, _, hstored, hopened⟩ := hdb.opened hfc hchain hrec hopen
  have hbacks := (Node.runAll_steps env operations s₀).mirrors hfc hchain hrec henv hopened.synced
    (hopened.backs hstored)
  obtain ⟨stats, first, bs, hvalues, hstats, hheight, h⟩ :=
    chainStats_of_backs hchain hrec details supply hbacks
  exact ⟨stats, first, bs, hvalues, hstats, hheight, h, h.fees_eq,
    h.averageBlockTimeSecs_of_pairwise⟩

end Laws

end Rpc

namespace Reference

/-- Every block but the first one pays a subsidy and the fees. -/
def rewards : Rpc.Details paqus where
  coinbase := fun block =>
    let fees := block.transactions.foldl (fun fees tx => fees + tx.fee) 0
    if block.height = 0 then none else some ⟨50, fees, 50 + fees⟩
  blockRewardMaturity := 100

/-- A block with two payments, and a branch with one of them that wins. -/
def paymentMoved : List (Node.Operation paqus) :=
  [.applyBlock (block 2 1 1 [payment 2 0, payment 1 1]), .applyBlock (block 3 1 1 []),
    .applyBlock (block 4 2 3 [payment 2 0])]

end Reference

/-- The transactions of the branch that lost are not counted. -/
theorem Rpc.stats_of_active_chain_of_reorg :
    ∃ stats first bs, stats.Of Reference.rewards ⟨1000, 100⟩ first bs ∧
      chainStats Reference.rewards ⟨1000, 100⟩
        (Reference.genesisNode.runAll Reference.calm Reference.paymentMoved) = .ok stats ∧
      (stats.blocks, stats.currentSupply, stats.remainingMinedSupply) = (3, 1100, 0) ∧
      (stats.totalTransactions, stats.totalFeesCollected, stats.totalTransactionFees) =
        (1, 2, 2) := by
  obtain ⟨stats, first, bs, -, hstats, -, h, -⟩ := stats_of_active_chain
    Reference.forkChoiceLaws Reference.chainLaws Reference.recordLaws Reference.rewards
    ⟨1000, 100⟩ .empty Reference.calm_faultless (Reference.opened_eq_some Reference.opened_calm)
    Reference.paymentMoved
  have hvalues : ((chainStats Reference.rewards ⟨1000, 100⟩
      (Reference.genesisNode.runAll Reference.calm Reference.paymentMoved)).toOption.map
        fun stats => ((stats.blocks, stats.currentSupply, stats.remainingMinedSupply),
          stats.totalTransactions, stats.totalFeesCollected, stats.totalTransactionFees)) =
      some ((3, 1100, 0), 1, 2, 2) := by decide +kernel
  rw [hstats, Except.toOption, Option.map_some, Option.some.injEq] at hvalues
  exact ⟨stats, first, bs, h, hstats, Prod.mk.inj hvalues⟩

end PaqusNode
