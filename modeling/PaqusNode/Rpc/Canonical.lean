import PaqusNode.Node.Restart
import PaqusNode.Rpc

/-!
# PaqusNode.Rpc.Canonical

Which blocks the RPC server reports as confirmed.  `block_response` gives
every block it is handed at least one confirmation and calls its transactions
confirmed, so what counts is where the block was read from: the height table
is rewritten with the ledger, the hash table also keeps every side block and
every block a reorg has disconnected.

All that is in the height table is in the hash table too, in every state a
node can be in.  So the answers are about the active chain exactly when the
hash table holds nothing else.
-/

namespace PaqusNode

namespace Rpc

variable {P : Paqus}

/-- The active chain has a block with this hash. -/
def OnChain (ledger : P.Ledger) (hash : BlockHash) : Prop :=
  ∃ block ∈ ledger.chain.blocks.valuesList, P.block.hash block = hash

/-- If the transaction is reported as confirmed, then in a block of the active
chain. -/
def TxResponse.Canonical (ledger : P.Ledger) (response : TxResponse) : Prop :=
  response.status = .confirmed → ∃ hash, response.blockHash = some hash ∧ OnChain ledger hash

/-- If the block is reported with confirmations, it is one of the active
chain, and so are its transactions. -/
def BlockResponse.Canonical (ledger : P.Ledger) (response : BlockResponse) : Prop :=
  (1 ≤ response.confirmations → OnChain ledger response.hash) ∧
    ∀ transaction ∈ response.transactions, transaction.Canonical ledger

/-- All read requests report the active chain only. -/
structure ReportsCanonical (details : Details P) (env : Env) (s : Node P) : Prop where
  tx : ∀ hash response, rpcTx env s hash = .ok response → response.Canonical s.ledger
  address : ∀ address activity, addressActivity details env s address = .ok activity →
    ∀ response ∈ activity.transactions, response.Canonical s.ledger
  blockByHeight : ∀ height response, rpcBlockByHeight env s height = .ok response →
    response.Canonical s.ledger
  blockByHash : ∀ hash response, rpcBlockByHash env s hash = .ok response →
    response.Canonical s.ledger
  latestBlocks : ∀ responses, rpcLatestBlocks env s = .ok responses →
    ∀ response ∈ responses, response.Canonical s.ledger

/-! ## Responses -/

/-- Every block has a confirmation. -/
theorem one_le_confirmations (tip height : UInt64) : 1 ≤ confirmations tip height := by
  rw [UInt64.le_iff_toNat_le, confirmations, toNat_satAdd]
  simp only [UInt64.toNat_one]
  omega

theorem confirmedResponse_canonical {ledger : P.Ledger} {block : P.Block}
    (h : OnChain ledger (P.block.hash block)) (env : Env) (io : Nat)
    (transaction : P.SignedTransaction) :
    (confirmedResponse env io block transaction).Canonical ledger :=
  fun _ => ⟨_, rfl, h⟩

/-- A response on a block is canonical if the block is on the chain. -/
theorem blockResponse_canonical_iff (env : Env) (io : Nat) (s : Node P) {ledger : P.Ledger}
    {block : P.Block} :
    (blockResponse env io s block).Canonical ledger ↔ OnChain ledger (P.block.hash block) := by
  constructor
  · intro h
    exact h.1 (one_le_confirmations _ _)
  · intro h
    refine ⟨fun _ => h, ?_⟩
    intro transaction htransaction
    obtain ⟨row, -, rfl⟩ := List.mem_map.mp htransaction
    exact confirmedResponse_canonical h env _ row.1

/-! ## Where the reported blocks come from -/

/-- The loaded blocks are those stored at their heights. -/
theorem loadBlocks_mem {s : Node P} {heights : List Nat} {blocks : List (UInt64 × P.Block)}
    (h : loadBlocks s heights = .ok blocks) {row : UInt64 × P.Block} (hrow : row ∈ blocks) :
    s.storage.loadBlockByHeight row.1 = .ok (some row.2) := by
  induction heights generalizing blocks with
  | nil =>
      cases h
      cases hrow
  | cons height rest ih =>
      unfold loadBlocks at h
      split at h
      · cases h
      · exact ih h hrow
      next block hload =>
      obtain ⟨blocks', hrest, rfl⟩ := Except.map_eq_ok h
      rcases List.mem_cons.mp hrow with rfl | hrow
      · exact hload
      · exact ih hrest hrow

/-- Every response is about one of the blocks. -/
theorem blockResponses_mem {env : Env} {s : Node P} {io : Nat}
    {blocks : List (UInt64 × P.Block)} {response : BlockResponse}
    (h : response ∈ blockResponses env s io blocks) :
    ∃ io', ∃ row ∈ blocks, response = blockResponse env io' s row.2 := by
  induction blocks generalizing io with
  | nil => cases h
  | cons row rest ih =>
      rcases List.mem_cons.mp h with rfl | h
      · exact ⟨io, row, List.mem_cons_self, rfl⟩
      · obtain ⟨io', row', hrow', heq⟩ := ih h
        exact ⟨io', row', List.mem_cons_of_mem row hrow', heq⟩

/-- A transaction found in the chain is in a stored block. -/
theorem findInChain_ok {env : Env} {s : Node P} {hash : TransactionHash} {heights : List Nat}
    {response : TxResponse} (h : findInChain env s hash heights = .ok (some response)) :
    ∃ height block transaction, s.storage.loadBlockByHeight height = .ok (some block) ∧
      response = confirmedResponse env s.io block transaction := by
  induction heights with
  | nil => cases h
  | cons height rest ih =>
      unfold findInChain at h
      split at h
      · cases h
      · exact ih h
      next block hload =>
      split at h
      · next transaction _ =>
          cases h
          exact ⟨_, block, transaction, hload, rfl⟩
      · exact ih h

/-- A confirmed transaction of an address is in a stored block. -/
theorem addressActivity_mem {details : Details P} {env : Env} {s : Node P} {address : Address}
    {activity : AddressActivity} (h : addressActivity details env s address = .ok activity)
    {response : TxResponse} (hresponse : response ∈ activity.transactions)
    (hconfirmed : response.status = .confirmed) :
    ∃ io height block transaction, s.storage.loadBlockByHeight height = .ok (some block) ∧
      response = confirmedResponse env io block transaction := by
  cases hblocks : loadBlocks s (List.range ((tipHeight s).toNat + 1)) with
  | error e =>
      unfold addressActivity at h
      simp only [hblocks] at h
      cases h
  | ok blocks =>
      obtain ⟨activity', hactivity', hfilter⟩ := addressActivity_ok details env address hblocks
      obtain rfl : activity' = activity := Except.ok.inj (hactivity'.symm.trans h)
      have hmem : response ∈ activity'.transactions.reverse.filter
          (fun response => response.status == .confirmed) :=
        List.mem_filter.mpr ⟨List.mem_reverse.mpr hresponse, beq_iff_eq.mpr hconfirmed⟩
      rw [hfilter] at hmem
      obtain ⟨⟨⟨block, transaction⟩, i⟩, hrow, rfl⟩ := List.mem_map.mp hmem
      have hfound : (block, transaction) ∈ touched address (blocks.map Prod.snd) :=
        List.mem_of_getElem? (List.mem_zipIdx_iff_getElem?.mp hrow)
      obtain ⟨block', hblock', hpair⟩ := List.mem_flatMap.mp hfound
      obtain ⟨transaction', -, heq⟩ := List.mem_map.mp hpair
      cases heq
      obtain ⟨row, hblock, rfl⟩ := List.mem_map.mp hblock'
      exact ⟨_, row.1, row.2, transaction, loadBlocks_mem hblocks hblock, rfl⟩

/-- All requests report the active chain if all they can load is on it. -/
theorem reportsCanonical_of_loaded {details : Details P} {env : Env} {s : Node P}
    (hheight : ∀ height block, s.storage.loadBlockByHeight height = .ok (some block) →
      OnChain s.ledger (P.block.hash block))
    (hhash : ∀ hash block, s.storage.loadBlockByHash hash = .ok (some block) →
      OnChain s.ledger (P.block.hash block)) :
    ReportsCanonical details env s where
  tx hash response h := by
    unfold rpcTx findTransaction at h
    split at h
    · next found hfound =>
        cases h
        split at hfound
        · -- a pending transaction
          cases hfound
          intro hconfirmed
          cases hconfirmed
        · obtain ⟨height, block, transaction, hload, rfl⟩ := findInChain_ok hfound
          exact confirmedResponse_canonical (hheight height block hload) env _ transaction
    · cases h
    · cases h
  address address activity h response hresponse hconfirmed := by
    obtain ⟨io, height, block, transaction, hload, rfl⟩ :=
      addressActivity_mem h hresponse hconfirmed
    exact confirmedResponse_canonical (hheight height block hload) env io transaction hconfirmed
  blockByHeight height response h := by
    unfold rpcBlockByHeight at h
    split at h
    · next block hload =>
        cases h
        exact (blockResponse_canonical_iff env _ s).mpr (hheight height block hload)
    · cases h
    · cases h
  blockByHash hash response h := by
    unfold rpcBlockByHash at h
    split at h
    · next block hload =>
        cases h
        exact (blockResponse_canonical_iff env _ s).mpr (hhash hash block hload)
    · cases h
    · cases h
  latestBlocks responses h response hresponse := by
    obtain ⟨blocks, hblocks, rfl⟩ := Except.map_eq_ok h
    obtain ⟨io, row, hrow, rfl⟩ := blockResponses_mem hresponse
    exact (blockResponse_canonical_iff env io s).mpr (hheight _ _ (loadBlocks_mem hblocks hrow))

/-! ## What a node has stored -/

section Laws

variable (hfc : ForkChoiceLaws P) (hchain : ChainLaws P) (hrec : RecordLaws P)

include hchain hrec

/-- A block in the height table is in the hash table. -/
theorem isSome_blocksByHash_of_loadBlockByHeight {s : Node P} {r : BlockHash}
    (h : s.Backed r) {height : UInt64} {block : P.Block}
    (hload : s.storage.loadBlockByHeight height = .ok (some block)) :
    (s.storage.blocksByHash[P.block.hash block]?).isSome := by
  obtain ⟨ledger, g, branch, blocks, -, hstored, -⟩ := h
  obtain ⟨hof, -⟩ := chainOf_of_foldlM hchain (replay_chain hchain hstored.replayed)
  rw [Storage.loadBlockByHeight_eq hrec hstored.holds.byHeight hof.byHeight, hof.lookup] at hload
  have hmem := List.mem_of_getElem? (Except.ok.inj hload)
  rw [hstored.holds.byHash, hstored.chained block hmem]
  rfl

omit hchain in
/-- What is in the hash table can be loaded. -/
theorem loadBlockByHash_of_isSome {s : Node P} {r : BlockHash} (h : s.Backed r) {hash : BlockHash}
    (hsome : (s.storage.blocksByHash[hash]?).isSome) :
    ∃ block, s.storage.loadBlockByHash hash = .ok (some block) ∧ P.block.hash block = hash := by
  obtain ⟨ledger, g, branch, blocks, -, hstored, -⟩ := h
  rw [hstored.holds.byHash, Option.isSome_map] at hsome
  obtain ⟨block, hblock⟩ := Option.isSome_iff_exists.mp hsome
  have hhash := hstored.hashed hblock
  refine ⟨block, ?_, hhash⟩
  unfold Storage.loadBlockByHash
  rw [hstored.holds.byHash, hblock]
  simp only [Option.map_some, Storage.decode_encode hrec, hhash, ne_eq, not_true_eq_false,
    if_false]

omit hchain hrec in
/-- A block loaded by hash has a row, and that hash. -/
theorem loadBlockByHash_some {db : Storage P} {hash : BlockHash} {block : P.Block}
    (h : db.loadBlockByHash hash = .ok (some block)) :
    (db.blocksByHash[hash]?).isSome ∧ P.block.hash block = hash := by
  unfold Storage.loadBlockByHash at h
  split at h
  · cases h
  next bytes hbytes =>
  rw [hbytes]
  split at h
  · cases h
  split at h
  · cases h
  next hhash =>
  cases h
  exact ⟨rfl, Decidable.not_not.mp hhash⟩

/-- The responses are canonical exactly if no side block is stored. -/
theorem reportsCanonical_iff_of_backed {s : Node P} {r : BlockHash} (h : s.Backed r)
    (details : Details P) (env : Env) :
    ReportsCanonical details env s ↔
      ∀ hash : BlockHash, (s.storage.blocksByHash[hash]?).isSome → OnChain s.ledger hash := by
  constructor
  · intro hreports hash hsome
    obtain ⟨block, hload, rfl⟩ := loadBlockByHash_of_isSome hrec h hsome
    have hresponse : rpcBlockByHash env s (P.block.hash block) =
        .ok (blockResponse env s.io s block) := by
      unfold rpcBlockByHash
      rw [hload]
    exact (blockResponse_canonical_iff env _ s).mp (hreports.blockByHash _ _ hresponse)
  · intro honly
    refine reportsCanonical_of_loaded ?_ ?_
    · intro height block hload
      exact honly _ (isSome_blocksByHash_of_loadBlockByHeight hchain hrec h hload)
    · intro hash block hload
      obtain ⟨hsome, rfl⟩ := loadBlockByHash_some hload
      exact honly _ hsome

include hfc

/-- **Only canonical transactions are reported confirmed** exactly when no
other block is stored.  The node has been opened over any database earlier
runs have left, and has then run through any calls and any storage
failures. -/
theorem confirmed_canonical_iff {db db' : Storage P} (hdb : Node.Written (fun _ => True) db)
    {env : Env} {io : Nat} {consensus : Consensus} {s₀ : Node P}
    (hopen : Node.initOrLoad env io db consensus = (db', .ok s₀))
    (operations : List (Node.Operation P)) (details : Details P) :
    ReportsCanonical details env (s₀.runAll env operations) ↔
      ∀ hash : BlockHash, ((s₀.runAll env operations).storage.blocksByHash[hash]?).isSome →
        OnChain (s₀.runAll env operations).ledger hash := by
  obtain ⟨_, _, g, _, _, hstored, hopened⟩ := hdb.opened hfc hchain hrec hopen
  have hbacked := (Node.runAll_steps env operations s₀).backed hfc hchain hrec hopened.synced
    (hopened.backed hstored)
  exact reportsCanonical_iff_of_backed hchain hrec hbacked details env

end Laws

end Rpc

namespace Reference

/-- A block with a payment on the active chain, then a branch of two blocks
that wins. -/
def paymentDisconnected : Node paqus :=
  genesisNode.runAll calm [.applyBlock (block 2 1 1 [payment 2 0]), .applyBlock (block 3 1 1 []),
    .applyBlock (block 4 2 3 [])]

/-- The block with the payment alone. -/
def paymentConnected : Node paqus :=
  genesisNode.runAll calm [.applyBlock (block 2 1 1 [payment 2 0])]

end Reference

/-- The disconnected block is still reported with two confirmations, and its
payment as confirmed. -/
theorem Rpc.disconnected_block_confirmed :
    ∃ response, rpcBlockByHash Reference.calm Reference.paymentDisconnected 2 = .ok response ∧
      response.confirmations = 2 ∧
      response.transactions.map (fun t => (t.hash, t.blockHash, t.status)) =
        [((Reference.payment 2 0).hash, some 2, .confirmed)] ∧
      ¬OnChain (P := Reference.paqus) Reference.paymentDisconnected.ledger 2 := by
  have hresponse : ((rpcBlockByHash Reference.calm Reference.paymentDisconnected 2).toOption.map
      fun r => (r.confirmations, r.transactions.map fun t => (t.hash, t.blockHash, t.status))) =
      some (2, [((Reference.payment 2 0).hash, some 2, .confirmed)]) := by decide +kernel
  have hgone : ¬(Reference.paymentDisconnected.ledger.chain.blocks.valuesList.map
      Reference.Block.hash).contains 2 := by decide +kernel
  obtain ⟨response, hok, heq⟩ := Option.map_eq_some_iff.mp hresponse
  obtain ⟨hconfirmations, htransactions⟩ := Prod.mk.inj heq
  refine ⟨response, Except.eq_ok_of_toOption hok, hconfirmations, htransactions, ?_⟩
  rintro ⟨block, hblock, hhash⟩
  exact hgone (List.contains_iff_mem.mpr (List.mem_map.mpr ⟨block, hblock, hhash⟩))

/-- While the chain has only been extended, everything stored is on it. -/
theorem Rpc.confirmed_canonical_iff_of_extended :
    ReportsCanonical ⟨fun _ => none, 100⟩ Reference.calm Reference.paymentConnected ∧
      (rpcTx Reference.calm Reference.paymentConnected
        (Reference.payment 2 0).hash).toOption.map TxResponse.status = some .confirmed := by
  have hstored : Reference.paymentConnected.storage.blocksByHash.keys.all (fun hash =>
      (Reference.paymentConnected.ledger.chain.blocks.valuesList.map
        Reference.Block.hash).contains hash) = true := by decide +kernel
  have hiff : ReportsCanonical ⟨fun _ => none, 100⟩ Reference.calm Reference.paymentConnected ↔
      ∀ hash : BlockHash, (Reference.paymentConnected.storage.blocksByHash[hash]?).isSome →
        OnChain Reference.paymentConnected.ledger hash := by
    unfold Reference.paymentConnected
    exact confirmed_canonical_iff Reference.forkChoiceLaws Reference.chainLaws
      Reference.recordLaws .empty (Reference.opened_eq_some Reference.opened_calm) _ _
  refine ⟨hiff.mpr ?_, by decide +kernel⟩
  intro hash hsome
  have hkey := Std.ExtTreeMap.mem_keys.mpr (Std.ExtTreeMap.mem_iff_isSome_getElem?.mpr hsome)
  obtain ⟨block, hblock, hhash⟩ := List.mem_map.mp
    (List.contains_iff_mem.mp (List.all_eq_true.mp hstored hash hkey))
  exact ⟨block, hblock, hhash⟩

end PaqusNode
