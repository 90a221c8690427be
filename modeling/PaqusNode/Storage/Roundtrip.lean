import PaqusNode.Paqus.Chain
import PaqusNode.Paqus.Reference
import PaqusNode.Storage

/-!
# PaqusNode.Storage.Roundtrip

What `save_ledger` writes is what `load_ledger` reads.  `Holds` says what the
tables contain when the database holds a given ledger, genesis accounts and
set of blocks by hash; writing establishes it, loading consumes it.
-/

namespace PaqusNode

namespace Storage

variable {P : Paqus}

variable {db db' : Storage P} {ledger : P.Ledger} {block : P.Block}
  {genesisAccounts : BTreeMap Address P.Account} {blocks : BlockHash → Option P.Block}
  {bs : List P.Block}

/-- The tables represent `ledger`, `genesisAccounts`, and the blocks
`blocks` by hash. -/
structure Holds (db : Storage P) (ledger : P.Ledger)
    (genesisAccounts : BTreeMap Address P.Account) (blocks : BlockHash → Option P.Block) :
    Prop where
  version : db.metaStorageVersion = some (P.borsh.encode .version storageVersion)
  accounts : ∀ address : Address,
    db.accounts[address]? = (ledger.accounts[address]?).map (P.borsh.encode .account)
  byHeight : ∀ height : UInt64,
    db.blocksByHeight[height]? = (ledger.chain.blocks[height]?).map (P.borsh.encode .block)
  byHash : ∀ hash : BlockHash,
    db.blocksByHash[hash]? = (blocks hash).map (P.borsh.encode .block)
  genesis : db.genesisAccounts = some (P.borsh.encode .accounts genesisAccounts)
  tip : ∃ block, TipOf ledger block ∧
    db.metaTipHeight = some (P.borsh.encode .height (P.block.height block)) ∧
    db.metaTipHash = some (P.borsh.encode .hash (P.block.hash block))

/-- The part of it that `load_ledger` reads once the version is checked. -/
structure LedgerRows (db : Storage P) (ledger : P.Ledger) : Prop where
  accounts : ∀ address : Address,
    db.accounts[address]? = (ledger.accounts[address]?).map (P.borsh.encode .account)
  byHeight : ∀ height : UInt64,
    db.blocksByHeight[height]? = (ledger.chain.blocks[height]?).map (P.borsh.encode .block)
  tip : ∃ block, TipOf ledger block ∧
    db.metaTipHeight = some (P.borsh.encode .height (P.block.height block)) ∧
    db.metaTipHash = some (P.borsh.encode .hash (P.block.hash block))

theorem Holds.rows (h : Holds db ledger genesisAccounts blocks) : LedgerRows db ledger :=
  ⟨h.accounts, h.byHeight, h.tip⟩

/-! ## Writing -/

/-- A transaction of the chain: its block and its position there. -/
structure Entry (P : Paqus) where
  block : P.Block
  index : Nat
  transaction : P.SignedTransaction

namespace Entry

/-- Where the entry's row in `tx_index` points. -/
def location (entry : Entry P) : TransactionLocation :=
  ⟨P.block.height entry.block, P.block.hash entry.block, UInt32.ofNat entry.index⟩

/-- The entry as the list of one of its two parties has it. -/
def addressLocation (entry : Entry P) (sent : Bool) : AddressTransactionLocation :=
  ⟨P.transaction.hash entry.transaction, P.block.height entry.block, P.block.hash entry.block,
    UInt32.ofNat entry.index, sent⟩

/-- The parties the entry is listed for: the sender, and the receiver unless
it is the sender. -/
def parties (entry : Entry P) : List (Address × Bool) :=
  (P.transaction.sender entry.transaction, true) ::
    if P.transaction.receiver entry.transaction ≠ P.transaction.sender entry.transaction then
      [(P.transaction.receiver entry.transaction, false)]
    else []

/-- The entry's row in `address_tx_index` for one party. -/
def partyRow (row : Entry P × Address × Bool) : BitVec 264 × P.borsh.Bytes :=
  (addressTxKey row.2.1 (P.block.height row.1.block) (UInt32.ofNat row.1.index) row.2.2,
    P.borsh.encode .addressTransactionLocation (row.1.addressLocation row.2.2))

end Entry

/-- The transactions of a block, the first of them at position `index`. -/
def blockEntries (block : P.Block) (index : Nat) (transactions : List P.SignedTransaction) :
    List (Entry P) :=
  (transactions.zipIdx index).map fun row => ⟨block, row.2, row.1⟩

/-- The transactions of a chain. -/
def chainEntries (bs : List P.Block) : List (Entry P) :=
  bs.flatMap fun b => blockEntries b 0 (P.block.transactions b)

/-- The rows of `tx_index` for some entries. -/
def txRows (rows : BTreeMap TransactionHash P.borsh.Bytes) (entries : List (Entry P)) :
    BTreeMap TransactionHash P.borsh.Bytes :=
  entries.foldl (fun rows entry => rows.insert (P.transaction.hash entry.transaction)
    (P.borsh.encode .transactionLocation entry.location)) rows

/-- Each entry with each of its parties. -/
def withParties (entries : List (Entry P)) : List (Entry P × Address × Bool) :=
  entries.flatMap fun entry => entry.parties.map (Prod.mk entry)

/-- The rows of `address_tx_index` for some entries. -/
def partyRows (rows : BTreeMap (BitVec 264) P.borsh.Bytes) (entries : List (Entry P)) :
    BTreeMap (BitVec 264) P.borsh.Bytes :=
  (withParties entries).foldl
    (fun rows row => rows.insert (Entry.partyRow row).1 (Entry.partyRow row).2) rows

/-- The rows that one transaction adds to the indexes. -/
theorem indexTransaction_eq (db : Storage P) (entry : Entry P) :
    db.indexTransaction entry.block entry.transaction (UInt32.ofNat entry.index) = { db with
      txIndex := txRows db.txIndex [entry]
      addressTxIndex := partyRows db.addressTxIndex [entry] } := by
  by_cases hself : P.transaction.receiver entry.transaction = P.transaction.sender entry.transaction
  all_goals
    simp only [indexTransaction, partyRows, withParties, Entry.parties, List.flatMap_cons,
      List.flatMap_nil, List.append_nil, hself, ne_eq, not_true_eq_false, not_false_eq_true,
      if_true, if_false]
    rfl

/-- The rows the transactions of one block leave in the indexes. -/
theorem indexBlockTransactions_ok {transactions : List P.SignedTransaction} {index : Nat}
    (h : indexBlockTransactions block index db transactions = .ok db') :
    db' = { db with
      txIndex := txRows db.txIndex (blockEntries block index transactions)
      addressTxIndex := partyRows db.addressTxIndex (blockEntries block index transactions) } ∧
    ∀ entry ∈ blockEntries block index transactions, entry.index < 2 ^ 32 := by
  induction transactions generalizing index db with
  | nil =>
      cases h
      exact ⟨rfl, by simp [blockEntries]⟩
  | cons transaction rest ih =>
      unfold indexBlockTransactions at h
      split at h
      · cases h
      next hindex =>
      obtain ⟨rfl, hrest⟩ := ih h
      rw [indexTransaction_eq db ⟨block, index, transaction⟩]
      refine ⟨?_, ?_⟩
      · simp [blockEntries, txRows, partyRows, withParties, List.foldl_append]
      · intro entry hentry
        rcases List.mem_cons.mp hentry with rfl | hentry
        · exact Nat.lt_of_not_le hindex
        · exact hrest entry hentry

/-- The rows a list of chain blocks leaves in the block tables and the
indexes. -/
theorem foldlM_writeChainBlock_ok (h : bs.foldlM writeChainBlock db = .ok db') :
    db' = { db with
      blocksByHeight := bs.foldl
        (fun rows b => rows.insert (P.block.height b) (P.borsh.encode .block b)) db.blocksByHeight
      blocksByHash := bs.foldl
        (fun rows b => rows.insert (P.block.hash b) (P.borsh.encode .block b)) db.blocksByHash
      txIndex := txRows db.txIndex (chainEntries bs)
      addressTxIndex := partyRows db.addressTxIndex (chainEntries bs) } ∧
    ∀ entry ∈ chainEntries bs, entry.index < 2 ^ 32 := by
  induction bs generalizing db with
  | nil =>
      cases h
      exact ⟨rfl, by simp [chainEntries]⟩
  | cons b bs ih =>
      obtain ⟨mid, hmid, h⟩ := foldlM_cons_eq_ok.mp h
      obtain ⟨rfl, hfirst⟩ := indexBlockTransactions_ok hmid
      obtain ⟨rfl, hrest⟩ := ih h
      refine ⟨?_, ?_⟩
      · simp [chainEntries, txRows, partyRows, withParties, List.foldl_append]
      · intro entry hentry
        rcases List.mem_append.mp hentry with hentry | hentry
        · exact hfirst entry hentry
        · exact hrest entry hentry

/-- The records that the tip writes. -/
theorem writeTip_eq (htip : TipOf ledger block) (db : Storage P) :
    ∃ stateSnapshots, db.writeTip ledger = { db with
      metaTipHeight := some (P.borsh.encode .height (P.block.height block))
      metaTipHash := some (P.borsh.encode .hash (P.block.hash block))
      stateSnapshots := stateSnapshots
      genesisAccounts := if P.block.height block = 0 then
          some (P.borsh.encode .accounts ledger.accounts)
        else db.genesisAccounts } := by
  unfold writeTip
  simp only [htip.height, htip.hash]
  by_cases hsnapshot :
      P.block.height block = 0 ∨ P.consensus.isSnapshotHeight (P.block.height block)
  all_goals
    simp only [hsnapshot, if_true, if_false]
    by_cases hzero : P.block.height block = 0
    all_goals
      simp only [hzero, if_true, if_false]
      exact ⟨_, rfl⟩

/-- `writeTip` touches no other table. -/
theorem writeTip_frame (ledger : P.Ledger) (db : Storage P) :
    ∃ metaTipHeight metaTipHash stateSnapshots genesisAccounts, db.writeTip ledger = { db with
      metaTipHeight := metaTipHeight
      metaTipHash := metaTipHash
      stateSnapshots := stateSnapshots
      genesisAccounts := genesisAccounts } := by
  unfold writeTip
  split
  · simp only
    split <;> split <;> exact ⟨_, _, _, _, rfl⟩
  · exact ⟨_, _, _, _, rfl⟩

/-- The account rows are the ledger's accounts. -/
theorem getElem?_writeAccounts (hkeyed : AccountsKeyed P ledger.accounts) (address : Address) :
    (writeAccounts ledger)[address]? =
      (ledger.accounts[address]?).map (P.borsh.encode .account) := by
  have hmem : ∀ {account : P.Account}, account ∈ ledger.accounts.valuesList →
      ledger.accounts[P.account.address account]? = some account := by
    intro account haccount
    obtain ⟨k, hk⟩ := BTreeMap.mem_valuesList.mp haccount
    rw [hkeyed k account hk, hk]
  unfold writeAccounts
  cases haddress : ledger.accounts[address]? with
  | none =>
      rw [BTreeMap.getElem?_foldl_insert_of_ne]
      · simp
      · rintro account haccount rfl
        rw [hmem haccount] at haddress
        cases haddress
  | some account =>
      obtain rfl := hkeyed address account haddress
      rw [BTreeMap.getElem?_foldl_insert_of_mem P.account.address (P.borsh.encode .account)]
      · rfl
      · intro other hother heq
        have hsame := hmem hother
        rw [heq, haddress] at hsame
        cases hsame
        rfl
      · exact BTreeMap.mem_valuesList.mpr ⟨_, haddress⟩

/-- The height rows of a chain are its blocks. -/
theorem getElem?_heightRows {chain : Chain P.Block} (hof : ByHeight chain bs) (height : UInt64) :
    (bs.foldl (fun rows b => rows.insert (P.block.height b) (P.borsh.encode .block b))
        (∅ : BTreeMap UInt64 P.borsh.Bytes))[height]? =
      (chain.blocks[height]?).map (P.borsh.encode .block) := by
  rw [hof.lookup]
  cases hlook : bs[height.toNat]? with
  | none =>
      rw [BTreeMap.getElem?_foldl_insert_of_ne]
      · simp
      · rintro b hb rfl
        rw [hof.getElem?_height hb] at hlook
        cases hlook
  | some b =>
      have hheight : P.block.height b = height := UInt64.toNat_inj.mp (hof.height hlook)
      subst hheight
      rw [BTreeMap.getElem?_foldl_insert_of_mem P.block.height (P.borsh.encode .block)]
      · rfl
      · intro other hother heq
        have hsame := hof.getElem?_height hother
        rw [heq, hlook] at hsame
        cases hsame
        rfl
      · exact List.mem_of_getElem? hlook

/-- The hash rows after writing a chain: its blocks on top of the blocks
already there. -/
theorem getElem?_hashRows {rows : BTreeMap BlockHash P.borsh.Bytes}
    {blocks' : BlockHash → Option P.Block}
    (hrows : ∀ hash : BlockHash, rows[hash]? = (blocks hash).map (P.borsh.encode .block))
    (hnew : ∀ b ∈ bs, blocks' (P.block.hash b) = some b)
    (hold : ∀ hash, (∀ b ∈ bs, P.block.hash b ≠ hash) → blocks' hash = blocks hash)
    (hash : BlockHash) :
    (bs.foldl (fun rows b => rows.insert (P.block.hash b) (P.borsh.encode .block b)) rows)[hash]? =
      (blocks' hash).map (P.borsh.encode .block) := by
  by_cases hin : ∃ b ∈ bs, P.block.hash b = hash
  · obtain ⟨b, hb, rfl⟩ := hin
    rw [BTreeMap.getElem?_foldl_insert_of_mem P.block.hash (P.borsh.encode .block) _ _ hb,
      hnew b hb]
    · rfl
    · intro other hother heq
      have hsame := hnew other hother
      rw [heq, hnew b hb] at hsame
      cases hsame
      rfl
  · have hnone : ∀ b ∈ bs, P.block.hash b ≠ hash := fun b hb hh => hin ⟨b, hb, hh⟩
    rw [BTreeMap.getElem?_foldl_insert_of_ne P.block.hash (P.borsh.encode .block) _ hnone, hrows,
      hold hash hnone]

/-- What the write transaction of `save_ledger` leaves in the tables, whatever
was there before. -/
structure Written (db : Storage P) (ledger : P.Ledger) (db' : Storage P) : Prop where
  version : db'.metaStorageVersion = db.metaStorageVersion
  accounts : db'.accounts = writeAccounts ledger
  byHeight : db'.blocksByHeight = ledger.chain.blocks.valuesList.foldl
    (fun rows b => rows.insert (P.block.height b) (P.borsh.encode .block b)) ∅
  byHash : db'.blocksByHash = ledger.chain.blocks.valuesList.foldl
    (fun rows b => rows.insert (P.block.hash b) (P.borsh.encode .block b)) db.blocksByHash
  txIndex : db'.txIndex = txRows ∅ (chainEntries ledger.chain.blocks.valuesList)
  addressTxIndex : db'.addressTxIndex = partyRows ∅ (chainEntries ledger.chain.blocks.valuesList)
  sized : ∀ entry ∈ chainEntries ledger.chain.blocks.valuesList, entry.index < 2 ^ 32
  tip : ∀ block, TipOf ledger block →
    db'.metaTipHeight = some (P.borsh.encode .height (P.block.height block)) ∧
    db'.metaTipHash = some (P.borsh.encode .hash (P.block.hash block)) ∧
    db'.genesisAccounts = if P.block.height block = 0 then
        some (P.borsh.encode .accounts ledger.accounts)
      else db.genesisAccounts

/-- **What `write_ledger` leaves in the store.** -/
theorem writeLedger_written (h : db.writeLedger ledger = .ok db') : Written db ledger db' := by
  unfold writeLedger at h
  simp only at h
  split at h
  · cases h
  next mid hmid =>
  cases h
  obtain ⟨rfl, hsized⟩ := foldlM_writeChainBlock_ok hmid
  obtain ⟨tipHeight, tipHash, stateSnapshots, genesisAccounts, hframe⟩ := writeTip_frame ledger _
  refine ⟨?_, ?_, ?_, ?_, ?_, ?_, hsized, ?_⟩
  case refine_7 =>
    intro block htip
    obtain ⟨stateSnapshots, heq⟩ := writeTip_eq htip _
    rw [heq]
    exact ⟨rfl, rfl, rfl⟩
  all_goals rw [hframe]

/-- What was written is the ledger. -/
theorem Written.rows (h : Written db ledger db') (hkeyed : AccountsKeyed P ledger.accounts)
    (hof : ByHeight ledger.chain bs) (htip : TipOf ledger block) : LedgerRows db' ledger := by
  obtain ⟨hheight, hhash, -⟩ := h.tip block htip
  refine ⟨?_, ?_, block, htip, hheight, hhash⟩
  · rw [h.accounts]
    exact getElem?_writeAccounts hkeyed
  · rw [h.byHeight, hof.values]
    exact getElem?_heightRows hof

/-- **Writing a ledger establishes `Holds`.** -/
theorem writeLedger_holds {blocks' : BlockHash → Option P.Block}
    (hversion : db.metaStorageVersion = some (P.borsh.encode .version storageVersion))
    (hgenesis : db.genesisAccounts = some (P.borsh.encode .accounts genesisAccounts) ∨
      P.block.height block = 0)
    (haccounts : P.block.height block = 0 → ledger.accounts = genesisAccounts)
    (hrows : ∀ hash : BlockHash, db.blocksByHash[hash]? = (blocks hash).map (P.borsh.encode .block))
    (hnew : ∀ b ∈ bs, blocks' (P.block.hash b) = some b)
    (hold : ∀ hash, (∀ b ∈ bs, P.block.hash b ≠ hash) → blocks' hash = blocks hash)
    (hkeyed : AccountsKeyed P ledger.accounts) (hof : ChainOf ledger.chain bs)
    (htip : TipOf ledger block) (h : db.writeLedger ledger = .ok db') :
    Holds db' ledger genesisAccounts blocks' := by
  have hwritten := writeLedger_written h
  obtain ⟨haccountRows, hheightRows, htipRows⟩ := hwritten.rows hkeyed hof.byHeight htip
  refine ⟨hwritten.version.trans hversion, haccountRows, hheightRows, ?_, ?_, htipRows⟩
  · rw [hwritten.byHash, hof.values]
    exact getElem?_hashRows hrows hnew hold
  · rw [(hwritten.tip block htip).2.2]
    split
    · next hzero => rw [haccounts hzero]
    · next hne => exact hgenesis.resolve_right hne

/-- Positions that are `u32` can be indexed. -/
theorem indexBlockTransactions_isOk {transactions : List P.SignedTransaction} {index : Nat}
    (db : Storage P) (h : index + transactions.length ≤ 2 ^ 32) :
    ∃ db', indexBlockTransactions block index db transactions = .ok db' := by
  induction transactions generalizing index db with
  | nil => exact ⟨db, rfl⟩
  | cons transaction rest ih =>
      rw [List.length_cons] at h
      unfold indexBlockTransactions
      rw [if_neg (by omega)]
      exact ih _ (by omega)

/-- A ledger whose blocks have at most `2 ^ 32` transactions each can be
written. -/
theorem writeLedger_isOk (db : Storage P) (hof : ChainOf ledger.chain bs)
    (hsize : ∀ b ∈ bs, (P.block.transactions b).length ≤ 2 ^ 32) :
    ∃ db', db.writeLedger ledger = .ok db' := by
  have hfold : ∀ db : Storage P, ∃ db', bs.foldlM writeChainBlock db = .ok db' := by
    clear hof
    induction bs with
    | nil => exact fun db => ⟨db, rfl⟩
    | cons b bs ih =>
        intro db
        obtain ⟨mid, hmid⟩ : ∃ mid, writeChainBlock db b = .ok mid :=
          indexBlockTransactions_isOk _ (by simpa using hsize b List.mem_cons_self)
        obtain ⟨db', hdb'⟩ := ih (fun c hc => hsize c (List.mem_cons_of_mem _ hc)) mid
        exact ⟨db', foldlM_cons_eq_ok.mpr ⟨mid, hmid, hdb'⟩⟩
  obtain ⟨mid, hmid⟩ := hfold { db with
    blocksByHeight := ∅
    accounts := writeAccounts ledger
    stateSnapshots := ∅
    txIndex := ∅
    addressTxIndex := ∅ }
  refine ⟨mid.writeTip ledger, ?_⟩
  unfold writeLedger
  simp only [hof.values, hmid]

/-- A `save_ledger` leaves the database as it was, or as the write
transaction left it. -/
theorem saveLedger_cases (env : Env) (io : Nat) (db : Storage P) (ledger : P.Ledger) :
    (saveLedger env io db ledger).1 = db ∧ (saveLedger env io db ledger).2 ≠ .ok () ∨
      db.writeLedger ledger = .ok (saveLedger env io db ledger).1 := by
  unfold saveLedger commit
  cases hwrite : db.writeLedger ledger with
  | error e => exact .inl ⟨rfl, by simp⟩
  | ok after =>
      cases env.commitFault io with
      | some code => exact .inl ⟨rfl, by simp⟩
      | none => exact .inr rfl

/-- The database with one more block by hash. -/
def withBlock (db : Storage P) (block : P.Block) : Storage P :=
  { db with
    blocksByHash := db.blocksByHash.insert (P.block.hash block) (P.borsh.encode .block block) }

/-- A `save_side_block` leaves the database as it was, or adds the block. -/
theorem saveSideBlock_cases (env : Env) (io : Nat) (db : Storage P) (block : P.Block) :
    (saveSideBlock env io db block).1 = db ∧ (saveSideBlock env io db block).2 ≠ .ok () ∨
      saveSideBlock env io db block = (db.withBlock block, .ok ()) := by
  unfold saveSideBlock commit
  cases env.commitFault io with
  | some code => exact .inl ⟨rfl, by simp⟩
  | none => exact .inr rfl

/-! ## Loading -/

/-- Rows that can all be decoded are. -/
theorem mapM_decode_eq {kind : RecordKind} {rows : List P.borsh.Bytes}
    (h : ∀ bytes ∈ rows, (P.borsh.decode kind bytes).isSome) :
    rows.mapM (decode (P := P) kind) = .ok (rows.filterMap (P.borsh.decode kind)) := by
  induction rows with
  | nil => rfl
  | cons bytes rows ih =>
      obtain ⟨value, hvalue⟩ := Option.isSome_iff_exists.mp (h bytes List.mem_cons_self)
      have hdecode : decode (P := P) kind bytes = .ok value := by
        unfold decode
        rw [hvalue]
      rw [List.mapM_cons, hdecode, ih fun b hb => h b (List.mem_cons_of_mem bytes hb),
        List.filterMap_cons_some hvalue]
      rfl

section Load

variable (hrec : RecordLaws P)

include hrec

@[simp] theorem decode_encode (kind : RecordKind) (value : kind.Val P.Account P.Block) :
    decode kind (P.borsh.encode kind value) = .ok value := by
  unfold decode
  rw [hrec.decode_encode]

theorem loadTip_of_rows (h : LedgerRows db ledger) (htip : TipOf ledger block) :
    db.loadTip = .ok (some (P.block.height block, P.block.hash block)) := by
  obtain ⟨b, hb, hheight, hhash⟩ := h.tip
  have heqh := Option.some.inj (htip.hash.symm.trans hb.hash)
  have heqn := Option.some.inj (htip.height.symm.trans hb.height)
  unfold loadTip
  simp only [hheight, hhash, decode_encode hrec, heqh, heqn]

theorem loadStorageVersion_of_stamp
    (h : db.metaStorageVersion = some (P.borsh.encode .version storageVersion)) :
    db.loadStorageVersion = .ok (some storageVersion) := by
  unfold loadStorageVersion readValue
  simp only [h, decode_encode hrec, Except.map]

omit hrec in
theorem ensureStorageVersion_of_version (env : Env) (io : Nat)
    (h : db.loadStorageVersion = .ok (some storageVersion)) :
    db.ensureStorageVersion env io = (db, .ok ()) := by
  unfold ensureStorageVersion
  simp only [h, if_true]

theorem loadGenesisAccounts_of_holds (h : Holds db ledger genesisAccounts blocks) :
    db.loadGenesisAccounts = .ok (some genesisAccounts) := by
  unfold loadGenesisAccounts readValue
  simp only [h.genesis, decode_encode hrec, Except.map]

/-- Over the height rows of a chain, a block is loaded exactly where the
chain has it. -/
theorem loadBlockByHeight_eq {chain : Chain P.Block} (hrows : ∀ height : UInt64,
      db.blocksByHeight[height]? = (chain.blocks[height]?).map (P.borsh.encode .block))
    (hof : ByHeight chain bs) (height : UInt64) :
    db.loadBlockByHeight height = .ok (chain.blocks[height]?) := by
  unfold loadBlockByHeight
  rw [hrows]
  cases hb : chain.blocks[height]? with
  | none => rfl
  | some b =>
      rw [hof.lookup] at hb
      have hheight : P.block.height b = height := UInt64.toNat_inj.mp (hof.height hb)
      simp only [Option.map_some, decode_encode hrec, hheight, ne_eq, not_true_eq_false, if_false]

theorem loadBlockByHeight_of_rows (h : LedgerRows db ledger) (hof : ChainOf ledger.chain bs)
    {i : Nat} {b : P.Block} (hi : bs[i]? = some b) :
    db.loadBlockByHeight (UInt64.ofNat i) = .ok (some b) := by
  have hkey : (UInt64.ofNat i).toNat = i := by
    rw [← hof.height hi, UInt64.ofNat_toNat]
  rw [loadBlockByHeight_eq hrec h.byHeight hof.byHeight, hof.lookup, hkey, hi]

/-- The integrity walk accepts the chain from every height down. -/
theorem checkChain_of_rows (h : LedgerRows db ledger) (hof : ChainOf ledger.chain bs) {i : Nat}
    {b : P.Block} (hi : bs[i]? = some b) : db.checkChain i (P.block.hash b) = .ok () := by
  induction i generalizing b with
  | zero =>
      have hload := loadBlockByHeight_of_rows hrec h hof hi
      rw [show UInt64.ofNat 0 = 0 from rfl] at hload
      unfold checkChain
      simp only [hload, hof.first hi, ne_eq, not_true_eq_false, if_false]
  | succ i ih =>
      have hlt : i < bs.length := by
        have := (List.getElem?_eq_some_iff.mp hi).1
        omega
      have hp := List.getElem?_eq_getElem hlt
      unfold checkChain
      simp only [loadBlockByHeight_of_rows hrec h hof hi, loadBlockByHeight_of_rows hrec h hof hp,
        hof.link hi hp, ne_eq, not_true_eq_false, if_false]
      exact ih hp

/-- The rows of a ledger pass the check of the chain. -/
theorem validateChainIntegrity_of_rows (h : LedgerRows db ledger) (hof : ChainOf ledger.chain bs)
    (hlast : bs.getLast? = some block) (htip : TipOf ledger block) :
    db.validateChainIntegrity = .ok () := by
  rw [List.getLast?_eq_getElem?] at hlast
  have hload := loadBlockByHeight_of_rows hrec h hof hlast
  rw [← hof.height hlast, UInt64.ofNat_toNat] at hload
  unfold validateChainIntegrity
  simp only [loadTip_of_rows hrec h htip, hload, ne_eq, not_true_eq_false, if_false]
  exact checkChain_of_rows hrec h hof (by rw [hof.height hlast, hlast])

/-- The account scan reads back the ledger's accounts. -/
theorem loadAccounts_of_rows (h : LedgerRows db ledger) (hkeyed : AccountsKeyed P ledger.accounts) :
    db.accounts.toList.foldlM loadAccount ∅ = .ok ledger.accounts := by
  have hlist : db.accounts.toList =
      ledger.accounts.toList.map fun row => (row.1, P.borsh.encode .account row.2) := by
    apply BTreeMap.toList_eq_of_sorted
    · rw [List.pairwise_map]
      exact Std.ExtTreeMap.ordered_keys_toList
    · intro k bytes
      rw [h.accounts, List.mem_map, Option.map_eq_some_iff]
      constructor
      · rintro ⟨⟨k', account⟩, hmem, heq⟩
        cases heq
        exact ⟨account, Std.ExtTreeMap.mem_toList_iff_getElem?_eq_some.mp hmem, rfl⟩
      · rintro ⟨account, haccount, rfl⟩
        exact ⟨(k, account), Std.ExtTreeMap.mem_toList_iff_getElem?_eq_some.mpr haccount, rfl⟩
  have hrow : ∀ (rows : List (Address × P.Account)) (m : BTreeMap Address P.Account),
      (∀ row ∈ rows, P.account.address row.2 = row.1) →
      (rows.map fun row => (row.1, P.borsh.encode .account row.2)).foldlM loadAccount m =
        .ok ((rows.map Prod.snd).foldl
          (fun m account => m.insert (P.account.address account) account) m) := by
    intro rows
    induction rows with
    | nil =>
        intro m _
        rfl
    | cons row rows ih =>
        intro m hrows
        have haddress := hrows row List.mem_cons_self
        rw [List.map_cons, foldlM_cons_eq_ok]
        refine ⟨m.insert row.1 row.2, ?_, ?_⟩
        · unfold loadAccount
          simp only [decode_encode hrec, haddress, ne_eq, not_true_eq_false, if_false]
        · rw [ih _ fun r hr => hrows r (List.mem_cons_of_mem _ hr), List.map_cons,
            List.foldl_cons, haddress]
  rw [hlist, hrow]
  · exact congrArg Except.ok (BTreeMap.foldl_insert_valuesList hkeyed)
  · intro row hmem
    exact hkeyed row.1 row.2 (Std.ExtTreeMap.mem_toList_iff_getElem?_eq_some.mp hmem)

/-- The chain scan rebuilds the chain block by block. -/
theorem loadChain_of_rows (h : LedgerRows db ledger) (hof : ChainOf ledger.chain bs) {k : Nat}
    (hk : k ≤ bs.length) {chain : Chain P.Block}
    (hfold : (bs.take k).foldlM P.ledger.insertBlock (Chain.new P.Block) = .ok chain) :
    (List.range k).foldlM db.loadChainBlock (Chain.new P.Block) = .ok chain := by
  induction k generalizing chain with
  | zero =>
      rw [List.take_zero] at hfold
      cases hfold
      rfl
  | succ k ih =>
      have hb := List.getElem?_eq_getElem (show k < bs.length by omega)
      rw [List.take_add_one, hb, Option.toList_some] at hfold
      obtain ⟨before, hbefore, hinsert⟩ := foldlM_concat_eq_ok.mp hfold
      rw [List.range_succ, foldlM_concat_eq_ok]
      refine ⟨before, ih (by omega) hbefore, ?_⟩
      unfold loadChainBlock
      simp only [loadBlockByHeight_of_rows hrec h hof hb, hinsert]

/-- **Loading reads the ledger back.** -/
theorem loadLedger_of_rows (env : Env) (io : Nat)
    (hversion : db.loadStorageVersion = .ok (some storageVersion)) (h : LedgerRows db ledger)
    (hkeyed : AccountsKeyed P ledger.accounts) (hof : ChainOf ledger.chain bs)
    (hfold : bs.foldlM P.ledger.insertBlock (Chain.new P.Block) = .ok ledger.chain)
    (hlast : bs.getLast? = some block) (htip : TipOf ledger block) :
    db.loadLedger env io = (db, .ok ledger) := by
  have hlen : (P.block.height block).toNat + 1 = bs.length := by
    have hget := hlast
    rw [List.getLast?_eq_getElem?] at hget
    have := (List.getElem?_eq_some_iff.mp hget).1
    rw [hof.height hget]
    omega
  have hchain := loadChain_of_rows hrec h hof (Nat.le_refl _) (by rwa [List.take_length])
  unfold loadLedger readLedger
  simp only [ensureStorageVersion_of_version env io hversion,
    validateChainIntegrity_of_rows hrec h hof hlast htip, loadAccounts_of_rows hrec h hkeyed,
    loadTip_of_rows hrec h htip, hlen, hchain]

/-- The stored blocks, in some order. -/
theorem loadBlocksByHash_of_holds (h : Holds db ledger genesisAccounts blocks) :
    ∃ stored, db.loadBlocksByHash = .ok stored ∧
      ∀ b, b ∈ stored ↔ ∃ hash, blocks hash = some b := by
  have hrows : ∀ bytes ∈ BTreeMap.valuesList db.blocksByHash, ∃ hash b,
      blocks hash = some b ∧ bytes = P.borsh.encode .block b := by
    intro bytes hbytes
    obtain ⟨hash, hhash⟩ := BTreeMap.mem_valuesList.mp hbytes
    rw [h.byHash] at hhash
    obtain ⟨b, hb, rfl⟩ := Option.map_eq_some_iff.mp hhash
    exact ⟨hash, b, hb, rfl⟩
  refine ⟨_, mapM_decode_eq ?_, ?_⟩
  · intro bytes hbytes
    obtain ⟨hash, b, -, rfl⟩ := hrows bytes hbytes
    rw [hrec.decode_encode]
    rfl
  · intro b
    rw [List.mem_filterMap]
    constructor
    · rintro ⟨bytes, hbytes, hdecode⟩
      obtain ⟨hash, c, hc, rfl⟩ := hrows bytes hbytes
      rw [hrec.decode_encode] at hdecode
      cases hdecode
      exact ⟨hash, hc⟩
    · rintro ⟨hash, hhash⟩
      refine ⟨_, BTreeMap.mem_valuesList.mpr ⟨hash, ?_⟩, hrec.decode_encode .block b⟩
      rw [h.byHash, hhash]
      rfl

/-- **`save_ledger` then `load_ledger` is the identity**, over whatever a
database of this version holds: once the write is committed, loading gives
back the ledger and writes nothing. -/
theorem loadLedger_saveLedger (hchain : ChainLaws P) {db : Storage P} {ledger : P.Ledger}
    {bs : List P.Block} (hversion : db.loadStorageVersion = .ok (some storageVersion))
    (hkeyed : AccountsKeyed P ledger.accounts) (hof : ChainOf ledger.chain bs) (hne : bs ≠ [])
    (haccepted : Accepted bs) (env : Env) (io io' : Nat) (hcommit : env.commitFault io = none) :
    (db.saveLedger env io ledger).2 = flush env io ∧
      (db.saveLedger env io ledger).1.loadLedger env io' =
        ((db.saveLedger env io ledger).1, .ok ledger) := by
  have hfold := hof.foldlM hchain haccepted
  have hlast : bs.getLast? = some (bs.getLast hne) := List.getLast?_eq_some_getLast hne
  have htip := (chainOf_of_foldlM hchain hfold).2 ledger.accounts _ hlast
  obtain ⟨after, hafter⟩ := writeLedger_isOk db hof fun b hb => by
    obtain ⟨before, next, hinsert⟩ := foldlM_mem hfold hb
    exact hrec.insert_size hinsert
  have hsave : db.saveLedger env io ledger = (after, flush env io) := by
    unfold saveLedger commit
    simp only [hafter, hcommit]
  have hwritten := writeLedger_written hafter
  have hversion' : after.loadStorageVersion = .ok (some storageVersion) := by
    unfold loadStorageVersion
    rw [hwritten.version]
    exact hversion
  rw [hsave]
  exact ⟨rfl, loadLedger_of_rows hrec env io' hversion'
    (hwritten.rows hkeyed hof.byHeight htip) hkeyed hof hfold hlast htip⟩

end Load

end Storage

namespace Reference

/-- The chain of the genesis block alone. -/
def genesisChain : Chain Block :=
  (paqus.ledger.insertBlock (Chain.new paqus.Block) paqus.genesisBlock).toOption.get
    (by decide +kernel)

theorem insertBlock_genesis :
    paqus.ledger.insertBlock (Chain.new paqus.Block) paqus.genesisBlock = .ok genesisChain :=
  Except.eq_ok_of_toOption (Option.some_get _).symm

/-- The chain of the genesis block is accepted. -/
theorem genesis_accepted : Accepted (P := paqus) [paqus.genesisBlock] := by
  intro i b before hb hbefore
  obtain ⟨rfl, rfl⟩ : 0 = i ∧ paqus.genesisBlock = b := by
    cases i with
    | zero => exact ⟨rfl, Option.some.inj hb⟩
    | succ i => cases hb
  obtain rfl := hbefore.byHeight.chain_eq ChainOf.new.byHeight
  exact ⟨genesisChain, insertBlock_genesis⟩

/-- A ledger of the genesis block alone. -/
def genesisLedger : Ledger Account Block := ⟨(∅ : Accounts).insert 1 ⟨1, 0, 100⟩, genesisChain⟩

theorem genesisLedger_of :
    ChainOf (P := paqus) genesisLedger.chain [paqus.genesisBlock] := by
  have hfold : [paqus.genesisBlock].foldlM paqus.ledger.insertBlock (Chain.new paqus.Block) =
      .ok genesisChain :=
    foldlM_cons_eq_ok.mpr ⟨genesisChain, insertBlock_genesis, rfl⟩
  dsimp only [genesisLedger]
  exact (chainOf_of_foldlM chainLaws hfold).1

/-- The same ledger with a block on top. -/
def tallerLedger : Ledger Account Block :=
  { genesisLedger with chain := ⟨genesisLedger.chain.blocks.insert 1
    { genesis with hash := 2, height := 1, previousHash := 1 }⟩ }

/-- A database that holds the taller ledger and a side block. -/
def usedStorage : Storage paqus :=
  let stamped : Storage paqus := { Storage.empty with
    metaStorageVersion := some (paqus.borsh.encode .version storageVersion) }
  let env : Env := ⟨fun _ => 0, fun _ => none, fun _ => none⟩
  ((stamped.saveLedger env 0 tallerLedger).1.saveSideBlock env 1
    { genesis with hash := 3, height := 1, previousHash := 1 }).1

end Reference

/-- The taller ledger leaves no trace in what is loaded. -/
theorem Storage.loadLedger_saveLedger_of_shorter :
    (Reference.usedStorage.saveLedger ⟨fun _ => 0, fun _ => none, fun _ => none⟩ 2
      Reference.genesisLedger).1.loadLedger ⟨fun _ => 0, fun _ => none, fun _ => none⟩ 3 =
      ((Reference.usedStorage.saveLedger ⟨fun _ => 0, fun _ => none, fun _ => none⟩ 2
        Reference.genesisLedger).1, .ok Reference.genesisLedger) ∧
      (Reference.usedStorage.blocksByHeight[(1 : UInt64)]?).isSome :=
  have hversion : Reference.usedStorage.loadStorageVersion = .ok (some storageVersion) := by
    decide +kernel
  have hkeyed : AccountsKeyed Reference.paqus Reference.genesisLedger.accounts :=
    Reference.insert_keyed (fun _ _ h => by simp at h) rfl
  ⟨(loadLedger_saveLedger Reference.recordLaws Reference.chainLaws hversion hkeyed
    Reference.genesisLedger_of (List.cons_ne_nil _ _) Reference.genesis_accepted _ 2 3 rfl).2,
    by decide +kernel⟩

end PaqusNode
