import PaqusNode.Storage.Roundtrip

/-!
# PaqusNode.Storage.Index

The two transaction indexes.  `save_ledger` clears them and files every
transaction of the chain again, so whatever was there before, `tx_index`
finds the chain's transactions and no other, and the keys of
`address_tx_index` that start with an address are its transactions: the key
is address, height, position and direction side by side, and so different for
any two of them.

`save_side_block` writes to `blocks_by_hash` only, which neither lookup
reads.
-/

namespace PaqusNode

namespace Storage

variable {P : Paqus}

/-! ## The transactions of a chain -/

/-- The entries of a chain are the transactions of its blocks, with their positions. -/
theorem mem_chainEntries {bs : List P.Block} {entry : Entry P} :
    entry ∈ chainEntries bs ↔ entry.block ∈ bs ∧
      (P.block.transactions entry.block)[entry.index]? = some entry.transaction := by
  simp only [chainEntries, blockEntries, List.mem_flatMap, List.mem_map,
    List.mem_zipIdx_iff_getElem?]
  constructor
  · rintro ⟨b, hb, ⟨transaction, index⟩, hindex, rfl⟩
    exact ⟨hb, hindex⟩
  · rintro ⟨hb, hindex⟩
    exact ⟨entry.block, hb, (entry.transaction, entry.index), hindex, rfl⟩

/-- The entries are the transactions of the chain, in order. -/
theorem map_transaction_chainEntries (bs : List P.Block) :
    (chainEntries bs).map Entry.transaction = bs.flatMap P.block.transactions := by
  unfold chainEntries blockEntries
  rw [List.map_flatMap]
  congr 1
  funext b
  rw [List.map_map]
  exact List.zipIdx_map_fst 0 _

/-- One entry comes before another, by height and position. -/
def Entry.Before (a b : Entry P) : Prop :=
  P.block.height a.block < P.block.height b.block ∨
    P.block.height a.block = P.block.height b.block ∧ a.index < b.index

/-- The entries come in the order of height and position. -/
theorem chainEntries_ordered {chain : Chain P.Block} {bs : List P.Block}
    (hof : ByHeight chain bs) : (chainEntries bs).Pairwise Entry.Before := by
  rw [chainEntries, List.pairwise_flatMap]
  refine ⟨?_, ?_⟩
  · intro b _
    have hindex : ((P.block.transactions b).zipIdx.map Prod.snd).Pairwise (· < ·) := by
      rw [List.zipIdx_map_snd]
      exact List.pairwise_lt_range' 1
    rw [blockEntries, List.pairwise_map]
    exact (List.pairwise_map.mp hindex).imp fun h => .inr ⟨rfl, h⟩
  · rw [List.pairwise_iff_getElem]
    intro i j hi hj hij x hx y hy
    obtain ⟨_, -, rfl⟩ := List.mem_map.mp hx
    obtain ⟨_, -, rfl⟩ := List.mem_map.mp hy
    refine .inl (UInt64.lt_iff_toNat_lt.mpr ?_)
    rw [hof.height (List.getElem?_eq_getElem hi), hof.height (List.getElem?_eq_getElem hj)]
    exact hij

/-! ## What the indexes hold -/

/-- The indexes and the height table are those of `ledger`. -/
structure IndexRows (db : Storage P) (ledger : P.Ledger) : Prop where
  byHeight : ∀ height : UInt64,
    db.blocksByHeight[height]? = (ledger.chain.blocks[height]?).map (P.borsh.encode .block)
  txIndex : db.txIndex = txRows ∅ (chainEntries ledger.chain.blocks.valuesList)
  addressTxIndex : db.addressTxIndex = partyRows ∅ (chainEntries ledger.chain.blocks.valuesList)
  sized : ∀ entry ∈ chainEntries ledger.chain.blocks.valuesList, entry.index < 2 ^ 32

theorem Written.indexRows {db db' : Storage P} {ledger : P.Ledger} {bs : List P.Block}
    (h : Written db ledger db') (hof : ByHeight ledger.chain bs) : IndexRows db' ledger := by
  refine ⟨?_, h.txIndex, h.addressTxIndex, h.sized⟩
  rw [h.byHeight, hof.values]
  exact getElem?_heightRows hof

/-- A side block touches none of it. -/
theorem IndexRows.saveSideBlock {db : Storage P} {ledger : P.Ledger} (h : IndexRows db ledger)
    (env : Env) (io : Nat) (block : P.Block) :
    IndexRows (db.saveSideBlock env io block).1 ledger := by
  rcases saveSideBlock_cases env io db block with ⟨heq, -⟩ | heq
  · rw [heq]
    exact h
  · rw [heq]
    exact ⟨h.byHeight, h.txIndex, h.addressTxIndex, h.sized⟩

/-- Any number of side blocks, each saved at its own moment. -/
def saveSideBlocks (env : Env) (db : Storage P) (blocks : List (Nat × P.Block)) : Storage P :=
  blocks.foldl (fun db row => (db.saveSideBlock env row.1 row.2).1) db

theorem IndexRows.saveSideBlocks {db : Storage P} {ledger : P.Ledger} (h : IndexRows db ledger)
    (env : Env) (blocks : List (Nat × P.Block)) :
    IndexRows (db.saveSideBlocks env blocks) ledger := by
  induction blocks generalizing db with
  | nil => exact h
  | cons row rest ih => exact ih (h.saveSideBlock env row.1 row.2)

/-! ## Transactions by hash -/

section Load

variable (hrec : RecordLaws P) {db : Storage P} {ledger : P.Ledger} {bs : List P.Block}
  (h : IndexRows db ledger) (hof : ByHeight ledger.chain bs)
  (hnodup : ((bs.flatMap P.block.transactions).map P.transaction.hash).Nodup)

include h hof hnodup

omit h hof in
theorem nodup_hash_chainEntries :
    ((chainEntries bs).map fun entry => P.transaction.hash entry.transaction).Nodup := by
  rw [← map_transaction_chainEntries, List.map_map] at hnodup
  exact hnodup

/-- Every transaction of the chain is found by its hash. -/
theorem getElem?_txIndex {entry : Entry P} (hentry : entry ∈ chainEntries bs) :
    db.txIndex[P.transaction.hash entry.transaction]? =
      some (P.borsh.encode .transactionLocation entry.location) := by
  rw [h.txIndex, hof.values]
  refine BTreeMap.getElem?_foldl_insert_of_mem (fun entry : Entry P =>
    P.transaction.hash entry.transaction) _ _ ?_ hentry
  intro other hother heq
  rw [List.inj_on_of_nodup_map (nodup_hash_chainEntries hnodup) hother hentry heq]

omit hnodup in
theorem getElem?_txIndex_of_ne {hash : TransactionHash}
    (hne : ∀ entry ∈ chainEntries bs, P.transaction.hash entry.transaction ≠ hash) :
    db.txIndex[hash]? = none := by
  rw [h.txIndex, hof.values, txRows, BTreeMap.getElem?_foldl_insert_of_ne
    (fun entry : Entry P => P.transaction.hash entry.transaction) _ _ hne]
  simp

include hrec

/-- **A transaction of the chain is found**, at its block and position. -/
theorem loadTransaction_of_mem {entry : Entry P} (hentry : entry ∈ chainEntries bs) :
    db.loadTransaction (P.transaction.hash entry.transaction) =
      .ok (some (entry.location, entry.transaction)) := by
  obtain ⟨hblock, hindex⟩ := mem_chainEntries.mp hentry
  have hsized : entry.index < 2 ^ 32 := h.sized entry (by rwa [hof.values])
  have hload : db.loadBlockByHeight (P.block.height entry.block) = .ok (some entry.block) := by
    rw [loadBlockByHeight_eq hrec h.byHeight hof, hof.lookup, hof.getElem?_height hblock]
  have hposition : (UInt32.ofNat entry.index).toNat = entry.index := by
    rw [UInt32.toNat_ofNat', Nat.mod_eq_of_lt hsized]
  unfold loadTransaction loadTransactionLocation readValue
  simp only [getElem?_txIndex h hof hnodup hentry, decode_encode hrec, Except.map, Entry.location,
    hload, hposition, hindex, ne_eq, not_true_eq_false, if_false]

omit hnodup hrec in
/-- No other hash is found, and none is an error. -/
theorem loadTransaction_of_ne {hash : TransactionHash}
    (hne : ∀ entry ∈ chainEntries bs, P.transaction.hash entry.transaction ≠ hash) :
    db.loadTransaction hash = .ok none := by
  unfold loadTransaction loadTransactionLocation readValue
  simp only [getElem?_txIndex_of_ne h hof hne]

/-- The lookup by index is a search through the chain. -/
theorem loadTransaction_eq (hash : TransactionHash) :
    db.loadTransaction hash =
      .ok (((chainEntries bs).find? fun entry => P.transaction.hash entry.transaction == hash).map
        fun entry => (entry.location, entry.transaction)) := by
  cases hfind : (chainEntries bs).find? fun entry =>
      P.transaction.hash entry.transaction == hash with
  | none =>
      refine loadTransaction_of_ne h hof ?_
      intro entry hentry heq
      have hnot := List.find?_eq_none.mp hfind entry hentry
      exact hnot (beq_iff_eq.mpr heq)
  | some entry =>
      have hhash := List.find?_some hfind
      rw [beq_iff_eq] at hhash
      rw [← hhash]
      exact loadTransaction_of_mem hrec h hof hnodup (List.mem_of_find?_eq_some hfind)

end Load

/-! ## Transactions by address -/

theorem keyAddress_addressTxKey (address : Address) (height : UInt64) (txIndex : UInt32)
    (sent : Bool) : keyAddress (addressTxKey address height txIndex sent) = address := by
  unfold keyAddress addressTxKey
  rw [BitVec.extractLsb'_append_eq_of_le (by decide),
    BitVec.extractLsb'_append_eq_of_le (by decide)]
  exact BitVec.extractLsb'_append_eq_left

/-- The keys of the address index do not collide. -/
theorem addressTxKey_inj {address address' : Address} {height height' : UInt64}
    {txIndex txIndex' : UInt32} {sent sent' : Bool}
    (h : addressTxKey address height txIndex sent = addressTxKey address' height' txIndex' sent') :
    address = address' ∧ height = height' ∧ txIndex = txIndex' ∧ sent = sent' := by
  obtain ⟨h, hsent⟩ := bits_append_inj h
  obtain ⟨h, hindex⟩ := bits_append_inj h
  obtain ⟨haddress, hheight⟩ := bits_append_inj h
  refine ⟨haddress, UInt64.toBitVec_inj.mp hheight, UInt32.toBitVec_inj.mp hindex, ?_⟩
  cases sent <;> cases sent' <;> first | rfl | simp at hsent

/-- Height, position and direction as one number. -/
def rank (location : AddressTransactionLocation) : Nat :=
  (location.blockHeight.toNat * 2 ^ 32 + location.txIndex.toNat) * 2 + location.sent.toNat

/-- The order of locations is that of their ranks. -/
theorem locationLe_iff {a b : AddressTransactionLocation} : LocationLe a b ↔ rank a ≤ rank b := by
  have hle : a.sent ≤ b.sent ↔ a.sent.toNat ≤ b.sent.toNat := by
    cases a.sent <;> cases b.sent <;> decide
  have ha := a.txIndex.toNat_lt
  have hb := b.txIndex.toNat_lt
  have hsa := Bool.toNat_le a.sent
  have hsb := Bool.toNat_le b.sent
  simp only [LocationLe, rank, UInt64.lt_iff_toNat_lt, ← UInt64.toNat_inj, UInt32.lt_iff_toNat_lt,
    ← UInt32.toNat_inj, hle]
  omega

/-- The entry as the list of `address` has it: a transfer to oneself counts
as sent. -/
def Entry.forAddress (address : Address) (entry : Entry P) : Option AddressTransactionLocation :=
  if P.transaction.sender entry.transaction = address then some (entry.addressLocation true)
  else if P.transaction.receiver entry.transaction = address then
    some (entry.addressLocation false)
  else none

/-- A row for an address is the entry's own, up to the side the address is on. -/
theorem forAddress_eq_some {address : Address} {entry : Entry P}
    {location : AddressTransactionLocation} (h : entry.forAddress address = some location) :
    location = entry.addressLocation location.sent := by
  unfold Entry.forAddress at h
  split at h
  · cases h
    rfl
  split at h
  · cases h
    rfl
  · cases h

/-- An entry has one row for an address at most. -/
theorem forAddress_toList (address : Address) (entry : Entry P) :
    ((entry.parties.map (Prod.mk entry)).filter fun row => row.2.1 == address).map
        (fun row => row.1.addressLocation row.2.2) = (entry.forAddress address).toList := by
  unfold Entry.parties Entry.forAddress
  by_cases hself : P.transaction.receiver entry.transaction =
      P.transaction.sender entry.transaction <;>
    by_cases hsender : P.transaction.sender entry.transaction = address <;>
    by_cases hreceiver : P.transaction.receiver entry.transaction = address <;>
    simp_all

/-- The rows of one address among all parties are its list. -/
theorem map_filter_withParties (address : Address) (entries : List (Entry P)) :
    ((withParties entries).filter fun row => row.2.1 == address).map
        (fun row => row.1.addressLocation row.2.2) =
      entries.filterMap (Entry.forAddress address) := by
  rw [withParties, List.filter_flatMap, List.map_flatMap, List.filterMap_eq_flatMap_toList]
  congr 1
  funext entry
  exact forAddress_toList address entry

/-- Entries in order have ranks in order. -/
theorem rank_lt_of_before {a b : Entry P} (h : a.Before b) (ha : a.index < 2 ^ 32)
    (hb : b.index < 2 ^ 32) (sent sent' : Bool) :
    rank (a.addressLocation sent) < rank (b.addressLocation sent') := by
  have hsent := Bool.toNat_le sent
  have hsent' := Bool.toNat_le sent'
  simp only [Entry.Before, UInt64.lt_iff_toNat_lt, ← UInt64.toNat_inj] at h
  simp only [rank, Entry.addressLocation, UInt32.toNat_ofNat', Nat.mod_eq_of_lt ha,
    Nat.mod_eq_of_lt hb]
  omega

section Load

variable (hrec : RecordLaws P) {db : Storage P} {ledger : P.Ledger} {bs : List P.Block}
  (h : IndexRows db ledger) (hof : ByHeight ledger.chain bs)

include h hof

theorem chainEntries_ranked : (chainEntries bs).Pairwise fun a b =>
    ∀ sent sent', rank (a.addressLocation sent) < rank (b.addressLocation sent') := by
  refine (chainEntries_ordered hof).imp_of_mem ?_
  intro a b ha hb hbefore
  rw [← hof.values] at ha hb
  exact rank_lt_of_before hbefore (h.sized a ha) (h.sized b hb)

/-- No two rows of the address index have one key. -/
theorem nodup_partyKeys :
    ((withParties (chainEntries bs)).map fun row => (Entry.partyRow row).1).Nodup := by
  rw [List.Nodup, List.pairwise_map, withParties, List.pairwise_flatMap]
  refine ⟨?_, ?_⟩
  · intro entry _
    unfold Entry.parties
    split
    · simp only [List.map_cons, List.map_nil, List.pairwise_pair]
      intro heq
      cases (addressTxKey_inj heq).2.2.2
    · simp
  · refine (chainEntries_ranked h hof).imp ?_
    intro a b hlt x hx y hy heq
    obtain ⟨⟨_, sent⟩, -, rfl⟩ := List.mem_map.mp hx
    obtain ⟨⟨_, sent'⟩, -, rfl⟩ := List.mem_map.mp hy
    obtain ⟨-, hheight, hindex, rfl⟩ := addressTxKey_inj heq
    refine absurd (hlt sent sent) ?_
    simp only [rank, Entry.addressLocation, hheight, hindex, Nat.lt_irrefl, not_false_eq_true]

/-- The bytes under the keys of an address. -/
theorem addressRows_perm (address : Address) :
    ((db.addressTxIndex.toList.filter fun row => keyAddress row.1 == address).map Prod.snd).Perm
      (((chainEntries bs).filterMap (Entry.forAddress address)).map
        (P.borsh.encode .addressTransactionLocation)) := by
  have hperm := BTreeMap.toList_foldl_insert_perm _ (fun row => (Entry.partyRow (P := P) row).2)
    (nodup_partyKeys h hof)
  have hkey : ((fun row : BitVec 264 × P.borsh.Bytes => keyAddress row.1 == address) ∘
      fun row : Entry P × Address × Bool => ((Entry.partyRow row).1, (Entry.partyRow row).2)) =
      fun row => row.2.1 == address := by
    funext row
    simp only [Function.comp_apply, Entry.partyRow, keyAddress_addressTxKey]
  rw [h.addressTxIndex, hof.values, ← map_filter_withParties]
  refine ((hperm.filter _).map Prod.snd).trans (List.Perm.of_eq ?_)
  rw [List.filter_map, hkey, List.map_map, List.map_map]
  rfl

/-- The rows for an address are in the order of the chain. -/
theorem filterMap_forAddress_ranked (address : Address) :
    ((chainEntries bs).filterMap (Entry.forAddress address)).Pairwise
      fun a b => rank a < rank b := by
  rw [List.pairwise_filterMap]
  refine (chainEntries_ranked h hof).imp ?_
  intro a b hlt location hlocation location' hlocation'
  rw [forAddress_eq_some hlocation, forAddress_eq_some hlocation']
  exact hlt _ _

include hrec

/-- **The list of an address** is its transactions in the order of the
chain. -/
theorem loadAddressTransactionLocations_eq (address : Address) :
    db.loadAddressTransactionLocations address =
      .ok ((chainEntries bs).filterMap (Entry.forAddress address)) := by
  have hrows := addressRows_perm h hof address
  have hranked := filterMap_forAddress_ranked h hof address
  have hdecode : ∀ bytes ∈ (db.addressTxIndex.toList.filter fun row =>
      keyAddress row.1 == address).map Prod.snd,
      (P.borsh.decode .addressTransactionLocation bytes).isSome := by
    intro bytes hbytes
    obtain ⟨location, -, rfl⟩ := List.mem_map.mp (hrows.mem_iff.mp hbytes)
    rw [hrec.decode_encode]
    rfl
  have hlocations : (((db.addressTxIndex.toList.filter fun row =>
      keyAddress row.1 == address).map Prod.snd).filterMap
        (P.borsh.decode .addressTransactionLocation)).Perm
      ((chainEntries bs).filterMap (Entry.forAddress address)) := by
    refine (hrows.filterMap _).trans (List.Perm.of_eq ?_)
    rw [List.filterMap_map]
    simp only [Function.comp_def, hrec.decode_encode]
    exact List.filterMap_some
  have hperm := (List.perm_insertionSort LocationLe _).trans hlocations
  have : Std.Total LocationLe := ⟨fun a b => by simp only [locationLe_iff]; omega⟩
  have : IsTrans AddressTransactionLocation LocationLe :=
    ⟨fun a b c => by simp only [locationLe_iff]; omega⟩
  unfold loadAddressTransactionLocations
  rw [mapM_decode_eq hdecode]
  refine congrArg Except.ok (hperm.eq_of_pairwise ?_ (List.pairwise_insertionSort LocationLe _)
    (hranked.imp fun hlt => locationLe_iff.mpr (Nat.le_of_lt hlt)))
  -- two locations of one rank are one
  intro a b ha hb hab hba
  have hnodup : (((chainEntries bs).filterMap (Entry.forAddress address)).map rank).Nodup :=
    List.pairwise_map.mpr (hranked.imp Nat.ne_of_lt)
  rw [locationLe_iff] at hab hba
  exact List.inj_on_of_nodup_map hnodup (hperm.mem_iff.mp ha) hb (Nat.le_antisymm hab hba)

end Load

/-! ## Exactness -/

/-- The chain has `transaction` at `location`. -/
def Located (ledger : P.Ledger) (location : TransactionLocation)
    (transaction : P.SignedTransaction) : Prop :=
  ∃ block, ledger.chain.blocks[location.blockHeight]? = some block ∧
    P.block.hash block = location.blockHash ∧
    (P.block.transactions block)[location.txIndex.toNat]? = some transaction

/-- What the lookups answer when the indexes are those of `ledger`: by hash,
the transaction of the chain with that hash, and no error; by address, the
transactions it sent or received, each once, in the order of height and
position, a transfer to oneself as sent. -/
structure IndexExact (db : Storage P) (ledger : P.Ledger) : Prop where
  byHash : ∀ hash location transaction,
    db.loadTransaction hash = .ok (some (location, transaction)) ↔
      Located ledger location transaction ∧ P.transaction.hash transaction = hash
  noError : ∀ hash, ∃ found, db.loadTransaction hash = .ok found
  byAddress : ∀ address, ∃ locations,
    db.loadAddressTransactionLocations address = .ok locations ∧
      locations.Pairwise (fun a b => a.blockHeight < b.blockHeight ∨
        a.blockHeight = b.blockHeight ∧ a.txIndex < b.txIndex) ∧
      ∀ location, location ∈ locations ↔ ∃ transaction,
        Located ledger ⟨location.blockHeight, location.blockHash, location.txIndex⟩ transaction ∧
        location.txHash = P.transaction.hash transaction ∧
        if location.sent then P.transaction.sender transaction = address
        else P.transaction.receiver transaction = address ∧
          P.transaction.sender transaction ≠ address

section Exact

variable (hrec : RecordLaws P) {db : Storage P} {ledger : P.Ledger} {bs : List P.Block}
  (h : IndexRows db ledger) (hof : ByHeight ledger.chain bs)

include h hof

/-- What is located is an entry, and the other way round. -/
theorem located_iff {location : TransactionLocation} {transaction : P.SignedTransaction} :
    Located ledger location transaction ↔
      ∃ entry ∈ chainEntries bs, entry.location = location ∧ entry.transaction = transaction := by
  constructor
  · rintro ⟨block, hblock, hhash, hposition⟩
    rw [hof.lookup] at hblock
    have hheight : P.block.height block = location.blockHeight :=
      UInt64.toNat_inj.mp (hof.height hblock)
    refine ⟨⟨block, location.txIndex.toNat, transaction⟩,
      mem_chainEntries.mpr ⟨List.mem_of_getElem? hblock, hposition⟩, ?_, rfl⟩
    simp only [Entry.location, hheight, hhash, UInt32.ofNat_toNat]
  · rintro ⟨entry, hentry, rfl, rfl⟩
    obtain ⟨hblock, hposition⟩ := mem_chainEntries.mp hentry
    have hsized : entry.index < 2 ^ 32 := h.sized entry (by rwa [hof.values])
    refine ⟨entry.block, ?_, rfl, ?_⟩
    · rw [hof.lookup]
      exact hof.getElem?_height hblock
    · simp only [Entry.location, UInt32.toNat_ofNat', Nat.mod_eq_of_lt hsized]
      exact hposition

/-- The rows for an address are the places where it sends or receives. -/
theorem mem_filterMap_forAddress {address : Address} {location : AddressTransactionLocation} :
    location ∈ (chainEntries bs).filterMap (Entry.forAddress address) ↔ ∃ transaction,
      Located ledger ⟨location.blockHeight, location.blockHash, location.txIndex⟩ transaction ∧
      location.txHash = P.transaction.hash transaction ∧
      if location.sent then P.transaction.sender transaction = address
      else P.transaction.receiver transaction = address ∧
        P.transaction.sender transaction ≠ address := by
  rw [List.mem_filterMap]
  constructor
  · rintro ⟨entry, hentry, hlocation⟩
    refine ⟨entry.transaction, (located_iff h hof).mpr ⟨entry, hentry, ?_, rfl⟩, ?_, ?_⟩
    · rw [forAddress_eq_some hlocation]
      rfl
    · rw [forAddress_eq_some hlocation]
      rfl
    · unfold Entry.forAddress at hlocation
      split at hlocation
      · next hsender =>
          cases hlocation
          exact hsender
      split at hlocation
      · next hsender hreceiver =>
          cases hlocation
          exact ⟨hreceiver, hsender⟩
      · cases hlocation
  · rintro ⟨transaction, hlocated, hhash, hparty⟩
    obtain ⟨entry, hentry, hlocation, rfl⟩ := (located_iff h hof).mp hlocated
    have heq : location = entry.addressLocation location.sent := by
      obtain ⟨txHash, height, blockHash, txIndex, sent⟩ := location
      cases hlocation
      cases hhash
      rfl
    refine ⟨entry, hentry, ?_⟩
    unfold Entry.forAddress
    cases hsent : location.sent with
    | true =>
        rw [hsent, if_pos rfl] at hparty
        rw [if_pos hparty, heq, hsent]
    | false =>
        rw [hsent, if_neg Bool.false_ne_true] at hparty
        rw [if_neg hparty.2, if_pos hparty.1, heq, hsent]

include hrec

/-- **The indexes are exact.** -/
theorem IndexRows.exact
    (hnodup : ((bs.flatMap P.block.transactions).map P.transaction.hash).Nodup) :
    IndexExact db ledger where
  byHash hash location transaction := by
    rw [located_iff h hof]
    constructor
    · intro hload
      rw [loadTransaction_eq hrec h hof hnodup] at hload
      obtain ⟨entry, hfind, heq⟩ := Option.map_eq_some_iff.mp (Except.ok.inj hload)
      have hhash := List.find?_some hfind
      rw [beq_iff_eq] at hhash
      cases heq
      exact ⟨⟨entry, List.mem_of_find?_eq_some hfind, rfl, rfl⟩, hhash⟩
    · rintro ⟨⟨entry, hentry, rfl, rfl⟩, rfl⟩
      exact loadTransaction_of_mem hrec h hof hnodup hentry
  noError hash := ⟨_, loadTransaction_eq hrec h hof hnodup hash⟩
  byAddress address := by
    refine ⟨_, loadAddressTransactionLocations_eq hrec h hof address, ?_,
      fun location => mem_filterMap_forAddress h hof⟩
    rw [List.pairwise_filterMap]
    refine (chainEntries_ordered hof).imp_of_mem ?_
    intro a b ha hb hbefore location hlocation location' hlocation'
    rw [← hof.values] at ha hb
    rw [forAddress_eq_some hlocation, forAddress_eq_some hlocation']
    simp only [Entry.addressLocation, UInt32.lt_iff_toNat_lt, UInt32.toNat_ofNat',
      Nat.mod_eq_of_lt (h.sized a ha), Nat.mod_eq_of_lt (h.sized b hb)]
    exact hbefore

end Exact

end Storage

end PaqusNode
