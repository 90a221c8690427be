import PaqusNode.Storage.Roundtrip

/-!
# PaqusNode.Storage.Snapshot

What becomes of the state snapshots.  `save_ledger` clears their table with
the others and writes the snapshot of the tip at most, so the snapshot of a
height is there until the next block is saved.
-/

namespace PaqusNode

namespace Storage

variable {P : Paqus}

/-! ## Writing -/

/-- The snapshot of a ledger with the given tip. -/
def snapshotOf (ledger : P.Ledger) (tip : P.Block) : StateSnapshot P.Account :=
  ⟨P.block.height tip, P.block.hash tip, P.ledger.stateRoot ledger, ledger.accounts⟩

/-- The heights a snapshot is written at. -/
def SnapshotHeight (P : Paqus) (height : UInt64) : Prop :=
  height = 0 ∨ P.consensus.isSnapshotHeight height = true

instance (height : UInt64) : Decidable (SnapshotHeight P height) :=
  inferInstanceAs (Decidable (_ ∨ _))

/-- One more row, if the tip has a snapshot height. -/
theorem writeTip_snapshots {ledger : P.Ledger} {tip : P.Block} (htip : TipOf ledger tip)
    (db : Storage P) :
    (db.writeTip ledger).stateSnapshots =
      if SnapshotHeight P (P.block.height tip) then
        db.stateSnapshots.insert (P.block.height tip)
          (P.borsh.encode .snapshot (snapshotOf ledger tip))
      else db.stateSnapshots := by
  unfold writeTip SnapshotHeight
  simp only [htip.height, htip.hash]
  by_cases hsnapshot :
      P.block.height tip = 0 ∨ P.consensus.isSnapshotHeight (P.block.height tip) = true
  · simp only [hsnapshot, if_true]
    split <;> rfl
  · simp only [hsnapshot, if_false]
    split <;> rfl

/-- **`save_ledger` leaves the snapshot of the tip and no other.** -/
theorem getElem?_writeLedger {db db' : Storage P} {ledger : P.Ledger} {tip : P.Block}
    (htip : TipOf ledger tip) (h : db.writeLedger ledger = .ok db') (height : UInt64) :
    db'.stateSnapshots[height]? =
      if SnapshotHeight P (P.block.height tip) ∧ P.block.height tip = height then
        some (P.borsh.encode .snapshot (snapshotOf ledger tip))
      else none := by
  unfold writeLedger at h
  simp only at h
  split at h
  · cases h
  next mid hmid =>
  cases h
  obtain ⟨rfl, -⟩ := foldlM_writeChainBlock_ok hmid
  rw [writeTip_snapshots htip]
  by_cases hsnapshot : SnapshotHeight P (P.block.height tip)
  · simp [hsnapshot, BTreeMap.getElem?_insert_eq]
  · simp [hsnapshot]

/-- A `save_state_snapshot` writes no other height than the tip's, and there
the snapshot of the ledger. -/
theorem getElem?_saveStateSnapshot {ledger : P.Ledger} {tip : P.Block} (htip : TipOf ledger tip)
    (env : Env) (io : Nat) (db : Storage P) (height : UInt64) :
    (db.saveStateSnapshot env io ledger).1.stateSnapshots[height]? = db.stateSnapshots[height]? ∨
      P.block.height tip = height ∧
        (db.saveStateSnapshot env io ledger).1.stateSnapshots[height]? =
          some (P.borsh.encode .snapshot (snapshotOf ledger tip)) := by
  unfold saveStateSnapshot commit
  simp only [htip.height, htip.hash]
  split
  · exact .inl rfl
  cases env.commitFault io with
  | some code => exact .inl rfl
  | none =>
      simp only [BTreeMap.getElem?_insert_eq]
      split
      · next heq => exact .inr ⟨heq, rfl⟩
      · exact .inl rfl

/-! ## Growing -/

/-- `Extended db ledger blocks db' ledger'`: from a database and its ledger,
the chain is extended by `blocks`, each extension saved with `save_ledger`.
In between, the current ledger may be saved again, as `flush_to_storage` does
after every fetched or mined block, and so may side blocks and snapshots of
it, and the process may be started anew. -/
inductive Extended (db : Storage P) (ledger : P.Ledger) :
    List P.Block → Storage P → P.Ledger → Prop
  | start : Extended db ledger [] db ledger
  | extend {blocks : List P.Block} {db' : Storage P} {ledger' ledger'' : P.Ledger}
      {block : P.Block} (h : Extended db ledger blocks db' ledger') (env : Env) (io : Nat)
      (happly : P.ledger.applyBlock ledger' block = .ok ledger'')
      (hsave : (db'.saveLedger env io ledger'').2 = .ok ()) :
      Extended db ledger (blocks ++ [block]) (db'.saveLedger env io ledger'').1 ledger''
  | again {blocks : List P.Block} {db' : Storage P} {ledger' : P.Ledger}
      (h : Extended db ledger blocks db' ledger') (env : Env) (io : Nat) :
      Extended db ledger blocks (db'.saveLedger env io ledger').1 ledger'
  | sideBlock {blocks : List P.Block} {db' : Storage P} {ledger' : P.Ledger}
      (h : Extended db ledger blocks db' ledger') (env : Env) (io : Nat) (block : P.Block) :
      Extended db ledger blocks (db'.saveSideBlock env io block).1 ledger'
  | snapshot {blocks : List P.Block} {db' : Storage P} {ledger' : P.Ledger}
      (h : Extended db ledger blocks db' ledger') (env : Env) (io : Nat) :
      Extended db ledger blocks (db'.saveStateSnapshot env io ledger').1 ledger'

section Laws

variable (hchain : ChainLaws P)

include hchain

/-- A block on top is the new tip, one higher. -/
theorem tipOf_applyBlock {ledger ledger' : P.Ledger} {tip block : P.Block}
    (htip : TipOf ledger tip) (happly : P.ledger.applyBlock ledger block = .ok ledger') :
    TipOf ledger' block ∧ (P.block.height block).toNat = (P.block.height tip).toNat + 1 := by
  have hinsert := hchain.apply_chain happly
  obtain ⟨hhash, hheight⟩ := hchain.insert_tip ledger'.accounts hinsert
  exact ⟨⟨hhash, hheight⟩, (hchain.insert_next hinsert htip.hash htip.height).2⟩

/-- The chain grows by one height for every block. -/
theorem Extended.tip {db db' : Storage P} {ledger ledger' : P.Ledger} {blocks : List P.Block}
    {tip : P.Block} (h : Extended db ledger blocks db' ledger') (htip : TipOf ledger tip) :
    ∃ tip', TipOf ledger' tip' ∧
      (P.block.height tip').toNat = (P.block.height tip).toNat + blocks.length := by
  induction h with
  | start => exact ⟨tip, htip, rfl⟩
  | extend _ _ _ happly _ ih =>
      obtain ⟨tip', htip', hheight⟩ := ih
      obtain ⟨htip'', hnext⟩ := tipOf_applyBlock hchain htip' happly
      refine ⟨_, htip'', ?_⟩
      rw [hnext, hheight, List.length_append, List.length_singleton, Nat.add_assoc]
  | again _ _ _ ih => exact ih
  | sideBlock _ _ _ _ ih => exact ih
  | snapshot _ _ _ ih => exact ih

/-- The snapshot of the first ledger is there until the chain grows. -/
theorem Extended.row {db db' : Storage P} {ledger ledger' : P.Ledger} {blocks : List P.Block}
    {tip : P.Block} (h : Extended db ledger blocks db' ledger') (htip : TipOf ledger tip)
    (hheight : SnapshotHeight P (P.block.height tip))
    (hrow : db.stateSnapshots[P.block.height tip]? =
      some (P.borsh.encode .snapshot (snapshotOf ledger tip))) :
    (blocks = [] → ledger' = ledger) ∧
      db'.stateSnapshots[P.block.height tip]? =
        if blocks = [] then some (P.borsh.encode .snapshot (snapshotOf ledger tip)) else none := by
  induction h with
  | start => exact ⟨fun _ => rfl, hrow⟩
  | @extend blocks db' ledger' ledger'' block hbefore env io happly hsave _ =>
      refine ⟨fun hnil => absurd hnil (by simp), ?_⟩
      obtain ⟨tip', htip', hheight⟩ := hbefore.tip hchain htip
      obtain ⟨htip'', hnext⟩ := tipOf_applyBlock hchain htip' happly
      have hwrite := (saveLedger_cases env io db' ledger'').resolve_left fun hfail =>
        hfail.2 hsave
      -- the new tip is higher, so nothing is written back at this height
      have hne : P.block.height block ≠ P.block.height tip := by
        intro heq
        rw [heq] at hnext
        omega
      rw [getElem?_writeLedger htip'' hwrite, if_neg fun hsame => hne hsame.2, if_neg (by simp)]
  | @again blocks db' ledger' hbefore env io ih =>
      refine ⟨ih.1, ?_⟩
      rcases saveLedger_cases env io db' ledger' with ⟨hsame, -⟩ | hwrite
      · rw [hsame, ih.2]
      obtain ⟨tip', htip', hnumber⟩ := hbefore.tip hchain htip
      rw [getElem?_writeLedger htip' hwrite]
      by_cases hnil : blocks = []
      · obtain rfl := ih.1 hnil
        obtain ⟨hhash, hsame⟩ := htip'.unique htip
        rw [hsame, if_pos ⟨hheight, rfl⟩, if_pos hnil, snapshotOf, snapshotOf, hsame, hhash]
      · have hne : P.block.height tip' ≠ P.block.height tip := by
          intro heq
          rw [heq] at hnumber
          exact hnil (List.length_eq_zero_iff.mp (by omega))
        rw [if_neg fun h => hne h.2, if_neg hnil]
  | @sideBlock blocks db' ledger' _ env io block ih =>
      refine ⟨ih.1, ?_⟩
      rw [← ih.2]
      rcases saveSideBlock_cases env io db' block with ⟨hsame, -⟩ | hadded
      · rw [hsame]
      · rw [hadded]
        rfl
  | @snapshot blocks db' ledger' hbefore env io ih =>
      refine ⟨ih.1, ?_⟩
      obtain ⟨tip', htip', hnumber⟩ := hbefore.tip hchain htip
      rcases getElem?_saveStateSnapshot htip' env io db' (P.block.height tip) with
        hsame | ⟨hsame, hrow'⟩
      · rw [hsame, ih.2]
      · -- only the first ledger has this height
        obtain rfl : blocks = [] := by
          rw [hsame] at hnumber
          exact List.length_eq_zero_iff.mp (by omega)
        obtain rfl := ih.1 rfl
        rw [hrow', if_pos rfl, snapshotOf, snapshotOf, hsame, (htip'.unique htip).1]

end Laws

/-! ## Loading -/

theorem verifyStateRoot_snapshotOf (hroot : SnapshotLaws P) (ledger : P.Ledger) (tip : P.Block) :
    verifyStateRoot (snapshotOf ledger tip) = true := by
  rw [verifyStateRoot, snapshotOf, hroot.stateRoot_eq]
  exact beq_self_eq_true _

/-- A stored snapshot of a ledger loads. -/
theorem loadStateSnapshot_of_row (hrec : RecordLaws P) (hroot : SnapshotLaws P) {db : Storage P}
    {ledger : P.Ledger} {tip : P.Block}
    (hrow : db.stateSnapshots[P.block.height tip]? =
      some (P.borsh.encode .snapshot (snapshotOf ledger tip))) :
    db.loadStateSnapshot (P.block.height tip) = .ok (some (snapshotOf ledger tip)) := by
  have hheight : (snapshotOf ledger tip).height = P.block.height tip := rfl
  simp only [loadStateSnapshot, hrow, decode, hrec.decode_encode, hheight, ne_eq,
    not_true_eq_false, if_false, verifyStateRoot_snapshotOf hroot, Bool.not_true,
    Bool.false_eq_true]

/-- **A state snapshot survives exactly until the chain grows.**  After
`save_ledger` has stored the snapshot of a ledger and the chain has been
extended by `blocks`, the snapshot loads, with the accounts of that ledger
and their root, if and only if `blocks` is empty. -/
theorem state_snapshot_survives_iff (hchain : ChainLaws P) (hrec : RecordLaws P)
    (hroot : SnapshotLaws P) {db db' : Storage P} {ledger ledger' : P.Ledger} {tip : P.Block}
    {blocks : List P.Block} (htip : TipOf ledger tip)
    (hheight : SnapshotHeight P (P.block.height tip)) (env : Env) (io : Nat)
    (hsave : (db.saveLedger env io ledger).2 = .ok ())
    (hgrow : Extended (db.saveLedger env io ledger).1 ledger blocks db' ledger') :
    (∃ snapshot, db'.loadStateSnapshot (P.block.height tip) = .ok (some snapshot) ∧
        snapshot.accounts = ledger.accounts ∧ verifyStateRoot snapshot = true) ↔
      blocks = [] := by
  have hwrite := (saveLedger_cases env io db ledger).resolve_left fun hfail => hfail.2 hsave
  have hrow := getElem?_writeLedger htip hwrite (P.block.height tip)
  rw [if_pos ⟨hheight, rfl⟩] at hrow
  have hrow' := (hgrow.row hchain htip hheight hrow).2
  constructor
  · rintro ⟨snapshot, hload, -, -⟩
    by_contra hne
    rw [if_neg hne] at hrow'
    simp [loadStateSnapshot, hrow'] at hload
  · rintro rfl
    rw [if_pos rfl] at hrow'
    exact ⟨snapshotOf ledger tip, loadStateSnapshot_of_row hrec hroot hrow', rfl,
      verifyStateRoot_snapshotOf hroot ledger tip⟩

end Storage

/-! ## A chain with snapshots -/

namespace Reference

/-- The crate with the state root of the accounts, and a snapshot at every
second height. -/
abbrev rooted : Paqus := { paqus with
  ledger := { paqus.ledger with
    stateRoot := fun ledger => calculateStateRoot ledger.accounts
    stateRootAfterBlock := fun ledger block =>
      (applyBlock ledger block).map fun ledger => calculateStateRoot ledger.accounts }
  consensus := { paqus.consensus with
    isSnapshotHeight := fun height => height != 0 && height % 2 == 0 } }

theorem rooted_chainLaws : ChainLaws rooted := { chainLaws with }

theorem rooted_recordLaws : RecordLaws rooted := { recordLaws with }

theorem rooted_snapshotLaws : SnapshotLaws rooted := ⟨fun _ => rfl⟩

/-- The block at height 2. -/
def snapshotTip : Block := { genesis with hash := 3, height := 2, previousHash := 2 }

/-- The ledger at height 2. -/
def snapshotLedger : Ledger Account Block :=
  ([genesis, { genesis with hash := 2, height := 1, previousHash := 1 }, snapshotTip].foldlM
    applyBlock (Ledger.new Account Block)).toOption.get (by decide +kernel)

/-- The database after it has been saved. -/
def snapshotStorage : Storage rooted :=
  (Storage.empty.saveLedger ⟨fun _ => 0, fun _ => none, fun _ => none⟩ 0 snapshotLedger).1

/-- The block after it. -/
def nextBlock : Block := { genesis with hash := 4, height := 3, previousHash := 3 }

/-- The ledger at height 3. -/
def nextLedger : Ledger Account Block :=
  (rooted.ledger.applyBlock snapshotLedger nextBlock).toOption.get (by decide +kernel)

theorem applyBlock_nextBlock :
    rooted.ledger.applyBlock snapshotLedger nextBlock = .ok nextLedger :=
  Except.eq_ok_of_toOption (Option.some_get _).symm

end Reference

/-- A side block leaves the snapshot in place. -/
theorem Storage.state_snapshot_survives_iff_of_side_block :
    ∃ snapshot, (Reference.snapshotStorage.saveSideBlock
          ⟨fun _ => 0, fun _ => none, fun _ => none⟩ 1 Reference.nextBlock).1.loadStateSnapshot 2 =
        .ok (some snapshot) ∧
      snapshot.accounts = Reference.snapshotLedger.accounts ∧
      verifyStateRoot (P := Reference.rooted) snapshot = true := by
  have htip : TipOf (P := Reference.rooted) Reference.snapshotLedger Reference.snapshotTip :=
    ⟨by decide +kernel, by decide +kernel⟩
  have hgrow : Extended Reference.snapshotStorage Reference.snapshotLedger []
      (Reference.snapshotStorage.saveSideBlock
        ⟨fun _ => 0, fun _ => none, fun _ => none⟩ 1 Reference.nextBlock).1
      Reference.snapshotLedger :=
    .sideBlock .start _ _ _
  exact (Storage.state_snapshot_survives_iff Reference.rooted_chainLaws Reference.rooted_recordLaws
    Reference.rooted_snapshotLaws htip (by decide +kernel) _ 0 (by decide +kernel) hgrow).mpr rfl

/-- The snapshot of height 2 is stored, and is gone when the block at height 3
has been saved on top. -/
theorem Storage.state_snapshot_cleared :
    Reference.rooted.consensus.isSnapshotHeight 2 = true ∧
      (∃ snapshot, Reference.snapshotStorage.loadStateSnapshot 2 = .ok (some snapshot)) ∧
      ∃ after : Storage Reference.rooted, Extended Reference.snapshotStorage
          Reference.snapshotLedger [Reference.nextBlock] after Reference.nextLedger ∧
        after.loadStateSnapshot 2 = .ok none := by
  refine ⟨by decide +kernel, ?_, (Reference.snapshotStorage.saveLedger
    ⟨fun _ => 0, fun _ => none, fun _ => none⟩ 1 Reference.nextLedger).1, ?_, ?_⟩
  · have hsome : ((Reference.snapshotStorage.loadStateSnapshot 2).toOption.join).isSome := by
      decide +kernel
    obtain ⟨snapshot, hsnapshot⟩ := Option.isSome_iff_exists.mp hsome
    exact ⟨snapshot, Except.eq_ok_of_toOption (Option.join_eq_some_iff.mp hsnapshot)⟩
  · have hstart : Extended Reference.snapshotStorage Reference.snapshotLedger []
        Reference.snapshotStorage Reference.snapshotLedger := .start
    have hgrow := hstart.extend ⟨fun _ => 0, fun _ => none, fun _ => none⟩ 1
      Reference.applyBlock_nextBlock (by decide +kernel)
    rwa [List.nil_append] at hgrow
  · have hnone : (Reference.snapshotStorage.saveLedger
        ⟨fun _ => 0, fun _ => none, fun _ => none⟩ 1
        Reference.nextLedger).1.stateSnapshots[(2 : UInt64)]? = none :=
      Option.isNone_iff_eq_none.mp (by decide +kernel)
    rw [Storage.loadStateSnapshot, hnone]

end PaqusNode
