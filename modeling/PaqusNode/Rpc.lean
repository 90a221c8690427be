import PaqusNode.Node.Open
import PaqusNode.Storage.Index

/-!
# PaqusNode.Rpc

The read side of the RPC server (`src/main.rs`): how blocks and transactions
are looked up and reported.  `/tx` and `/address` do not use the transaction
indexes; they read every block of the chain by height.  Over the tables that
`save_ledger` writes, the scans and the indexes give the same answers.

Hashes and addresses are reported as values, not as hex.  A block response
leaves out the fields that only copy a block's own data (Merkle root, nonce,
size, coinbase, allocations, amounts moved) and the display constants.
Requests that do not parse are not modelled, nor is a poisoned lock.
-/

namespace PaqusNode

namespace Rpc

variable {P : Paqus}

/-! ## Responses -/

/-- The two values of `TxResponse::status`. -/
inductive TxStatus where
  | pending
  | confirmed
deriving DecidableEq, Repr

/-- `TxResponse`. -/
structure TxResponse where
  hash : TransactionHash
  sender : Address
  receiver : Address
  amount : UInt32
  fee : UInt32
  nonce : UInt64
  timestamp : UInt64
  ageSecs : UInt64
  blockHeight : Option UInt64
  blockHash : Option BlockHash
  status : TxStatus
deriving DecidableEq, Repr

/-- `BlockResponse`. -/
structure BlockResponse where
  height : UInt64
  hash : BlockHash
  previousHash : BlockHash
  stateRoot : Hash
  minerAddress : Address
  difficulty : UInt32
  timestamp : UInt64
  ageSecs : UInt64
  confirmations : UInt64
  blockTimeSecs : Option UInt64
  txCount : Nat
  transactions : List TxResponse
deriving DecidableEq, Repr

/-- What a coinbase pays. -/
structure Coinbase where
  subsidy : UInt32
  fees : UInt32
  total : UInt32
deriving DecidableEq, Repr

/-- `MinedBlockResponse`. -/
structure MinedBlockResponse where
  height : UInt64
  hash : BlockHash
  confirmations : UInt64
  maturityHeight : UInt64
  matured : Bool
  coinbase : Coinbase
  txCount : Nat
  timestamp : UInt64
deriving DecidableEq, Repr

/-- `AddressActivity`. -/
structure AddressActivity where
  minedBlocks : List MinedBlockResponse
  transactions : List TxResponse
deriving DecidableEq, Repr

/-- What responses read of the crate beyond what the node itself reads. -/
structure Details (P : Paqus) where
  coinbase : P.Block → Option Coinbase
  /-- `BLOCK_REWARD_MATURITY`. -/
  blockRewardMaturity : UInt64

/-- The errors of the read requests. -/
inductive RpcError where
  /-- 404, "block_not_found". -/
  | blockNotFound
  /-- 404, "transaction_not_found". -/
  | transactionNotFound
  /-- 500, "failed to load block: …". -/
  | failedToLoadBlock (error : StorageError)
deriving DecidableEq, Repr

/-- `tx_response`, with the `io`-th reading of the clock. -/
def txResponse (env : Env) (io : Nat) (transaction : P.SignedTransaction)
    (blockHeight : Option UInt64) (blockHash : Option BlockHash) (status : TxStatus) :
    TxResponse where
  hash := P.transaction.hash transaction
  sender := P.transaction.sender transaction
  receiver := P.transaction.receiver transaction
  amount := P.transaction.amount transaction
  fee := P.transaction.fee transaction
  nonce := P.transaction.nonce transaction
  timestamp := P.transaction.timestamp transaction
  ageSecs := satSub (env.clock io) (P.transaction.timestamp transaction)
  blockHeight := blockHeight
  blockHash := blockHash
  status := status

/-- A transaction found in a block. -/
def confirmedResponse (env : Env) (io : Nat) (block : P.Block)
    (transaction : P.SignedTransaction) : TxResponse :=
  txResponse env io transaction (some (P.block.height block)) (some (P.block.hash block)) .confirmed

/-- `node.tip_height().unwrap_or(Height(0))`. -/
def tipHeight (s : Node P) : UInt64 := (P.ledger.tipHeight s.ledger).getD 0

/-- `tip_height.saturating_sub(height).saturating_add(1)`. -/
def confirmations (tip height : UInt64) : UInt64 := satAdd (satSub tip height) 1

/-- The timestamp of the block below, if it can be loaded. -/
def previousTimestamp (s : Node P) (height : UInt64) : Option UInt64 :=
  if height = 0 then none
  else
    match s.storage.loadBlockByHeight (height - 1) with
    | .ok (some previous) => some (P.block.timestamp previous)
    | _ => none

/-- `block_response` with no status given, as all its callers call it. -/
def blockResponse (env : Env) (io : Nat) (s : Node P) (block : P.Block) : BlockResponse where
  height := P.block.height block
  hash := P.block.hash block
  previousHash := P.block.previousHash block
  stateRoot := P.block.stateRoot block
  minerAddress := P.block.minerAddress block
  difficulty := P.block.difficulty block
  timestamp := P.block.timestamp block
  ageSecs := satSub (env.clock io) (P.block.timestamp block)
  confirmations := confirmations (tipHeight s) (P.block.height block)
  blockTimeSecs := (previousTimestamp s (P.block.height block)).map fun timestamp =>
    satSub (P.block.timestamp block) timestamp
  txCount := (P.block.transactions block).length
  transactions := (P.block.transactions block).zipIdx.map fun row =>
    confirmedResponse env (io + 1 + row.2) block row.1

/-! ## Requests -/

/-- `rpc_block_by_height`. -/
def rpcBlockByHeight (env : Env) (s : Node P) (height : UInt64) : Except RpcError BlockResponse :=
  match s.storage.loadBlockByHeight height with
  | .ok (some block) => .ok (blockResponse env s.io s block)
  | .ok none => .error .blockNotFound
  | .error e => .error (.failedToLoadBlock e)

/-- `rpc_block_by_hash`. -/
def rpcBlockByHash (env : Env) (s : Node P) (hash : BlockHash) : Except RpcError BlockResponse :=
  match s.storage.loadBlockByHash hash with
  | .ok (some block) => .ok (blockResponse env s.io s block)
  | .ok none => .error .blockNotFound
  | .error e => .error (.failedToLoadBlock e)

/-- The loop over heights: what is not stored is skipped, what cannot be
loaded ends it. -/
def loadBlocks (s : Node P) : List Nat → Except RpcError (List (UInt64 × P.Block))
  | [] => .ok []
  | height :: rest =>
      match s.storage.loadBlockByHeight (UInt64.ofNat height) with
      | .error e => .error (.failedToLoadBlock e)
      | .ok none => loadBlocks s rest
      | .ok (some block) => (loadBlocks s rest).map ((UInt64.ofNat height, block) :: ·)

/-- The responses to some blocks; each takes one reading of the clock, and one
more for each of its transactions. -/
def blockResponses (env : Env) (s : Node P) : Nat → List (UInt64 × P.Block) → List BlockResponse
  | _, [] => []
  | io, (_, block) :: rest =>
      blockResponse env io s block ::
        blockResponses env s (io + 1 + (P.block.transactions block).length) rest

/-- `rpc_latest_blocks`: the last ten heights, from the tip down. -/
def rpcLatestBlocks (env : Env) (s : Node P) : Except RpcError (List BlockResponse) :=
  let tip := tipHeight s
  let start := satSub tip 9
  (loadBlocks s (List.range' start.toNat (tip.toNat + 1 - start.toNat)).reverse).map
    (blockResponses env s s.io)

/-- The search of `find_transaction` through the blocks, which ends with the
first match. -/
def findInChain (env : Env) (s : Node P) (hash : TransactionHash) :
    List Nat → Except RpcError (Option TxResponse)
  | [] => .ok none
  | height :: rest =>
      match s.storage.loadBlockByHeight (UInt64.ofNat height) with
      | .error e => .error (.failedToLoadBlock e)
      | .ok none => findInChain env s hash rest
      | .ok (some block) =>
          match (P.block.transactions block).find? fun t => P.transaction.hash t == hash with
          | some transaction => .ok (some (confirmedResponse env s.io block transaction))
          | none => findInChain env s hash rest

/-- `find_transaction`: the mempool first, then the chain from height 0 up. -/
def findTransaction (env : Env) (s : Node P) (hash : TransactionHash) :
    Except RpcError (Option TxResponse) :=
  match s.mempool.transactionList.find? fun t => P.transaction.hash t == hash with
  | some transaction => .ok (some (txResponse env s.io transaction none none .pending))
  | none => findInChain env s hash (List.range ((tipHeight s).toNat + 1))

/-- `rpc_tx`. -/
def rpcTx (env : Env) (s : Node P) (hash : TransactionHash) : Except RpcError TxResponse :=
  match findTransaction env s hash with
  | .ok (some transaction) => .ok transaction
  | .ok none => .error .transactionNotFound
  | .error e => .error e

/-- Sent or received by `address`. -/
def touches (address : Address) (transaction : P.SignedTransaction) : Bool :=
  P.transaction.sender transaction == address || P.transaction.receiver transaction == address

/-- The entry of `mined_blocks` for one block. -/
def minedBlock (details : Details P) (tip : UInt64) (address : Address)
    (row : UInt64 × P.Block) : List MinedBlockResponse :=
  if P.block.minerAddress row.2 = address then
    match details.coinbase row.2 with
    | none => []
    | some coinbase =>
        let maturityHeight := satAdd row.1 details.blockRewardMaturity
        [{ height := row.1
           hash := P.block.hash row.2
           confirmations := confirmations tip row.1
           maturityHeight := maturityHeight
           matured := decide (maturityHeight ≤ tip)
           coinbase := coinbase
           txCount := (P.block.transactions row.2).length
           timestamp := P.block.timestamp row.2 }]
  else []

/-- The transactions of `address` in some blocks, each with its block. -/
def touched (address : Address) (blocks : List P.Block) :
    List (P.Block × P.SignedTransaction) :=
  blocks.flatMap fun block =>
    ((P.block.transactions block).filter (touches address)).map (Prod.mk block)

/-- `address_activity`: the chain from height 0 up, then the mempool, the
newest first in the result. -/
def addressActivity (details : Details P) (env : Env) (s : Node P) (address : Address) :
    Except RpcError AddressActivity :=
  let tip := tipHeight s
  match loadBlocks s (List.range (tip.toNat + 1)) with
  | .error e => .error e
  | .ok blocks =>
      let confirmed := (touched address (blocks.map Prod.snd)).zipIdx.map fun row =>
        confirmedResponse env (s.io + row.2) row.1.1 row.1.2
      let pending := (s.mempool.transactionList.filter (touches address)).zipIdx.map fun row =>
        txResponse env (s.io + confirmed.length + row.2) row.1 none none .pending
      .ok ⟨(blocks.flatMap (minedBlock details tip address)).reverse,
        (confirmed ++ pending).reverse⟩

/-- What `/address` reports as confirmed is what the scan found in the
blocks. -/
theorem addressActivity_ok (details : Details P) (env : Env) {s : Node P} (address : Address)
    {blocks : List (UInt64 × P.Block)}
    (h : loadBlocks s (List.range ((tipHeight s).toNat + 1)) = .ok blocks) :
    ∃ activity, addressActivity details env s address = .ok activity ∧
      activity.transactions.reverse.filter (fun response => response.status == .confirmed) =
        (touched address (blocks.map Prod.snd)).zipIdx.map fun row =>
          confirmedResponse env (s.io + row.2) row.1.1 row.1.2 := by
  unfold addressActivity
  simp only [h]
  refine ⟨_, rfl, ?_⟩
  rw [List.reverse_reverse, List.filter_append, List.filter_eq_self.mpr,
    List.filter_eq_nil_iff.mpr, List.append_nil]
  · intro response hresponse
    obtain ⟨row, -, rfl⟩ := List.mem_map.mp hresponse
    exact Bool.false_ne_true
  · intro response hresponse
    obtain ⟨row, -, rfl⟩ := List.mem_map.mp hresponse
    rfl

/-! ## Scans of the chain -/

theorem filterMap_getElem?_range {α : Type} (l : List α) (n : Nat) :
    (List.range n).filterMap (fun i => l[i]?) = l.take n := by
  induction n with
  | zero => rfl
  | succ n ih =>
      rw [List.range_succ, List.filterMap_append, ih, List.take_add_one]
      cases hn : l[n]? <;> simp [hn]

/-- The first match by hash among a block's entries. -/
theorem find?_blockEntries (block : P.Block) (hash : TransactionHash) :
    ((Storage.blockEntries block 0 (P.block.transactions block)).find? fun entry =>
        P.transaction.hash entry.transaction == hash).map Storage.Entry.transaction =
      (P.block.transactions block).find? fun t => P.transaction.hash t == hash := by
  have hfst := List.zipIdx_map_fst 0 (P.block.transactions block)
  conv => rhs; rw [← hfst]
  rw [Storage.blockEntries, List.find?_map, List.find?_map, Option.map_map]
  rfl

section Scan

variable {s : Node P} {bs : List P.Block}
  (hload : ∀ height, s.storage.loadBlockByHeight height = .ok (s.ledger.chain.blocks[height]?))
  (hof : ByHeight s.ledger.chain bs)

include hload hof

theorem loadBlockByHeight_ofNat {i : Nat} (hi : i < 2 ^ 64) :
    s.storage.loadBlockByHeight (UInt64.ofNat i) = .ok bs[i]? := by
  rw [hload, hof.lookup, UInt64.toNat_ofNat', Nat.mod_eq_of_lt hi]

/-- The loop over heights reads the blocks there are. -/
theorem loadBlocks_eq {heights : List Nat} (hbound : ∀ i ∈ heights, i < 2 ^ 64) :
    loadBlocks s heights =
      .ok (heights.filterMap fun i => (bs[i]?).map (Prod.mk (UInt64.ofNat i))) := by
  induction heights with
  | nil => rfl
  | cons i rest ih =>
      unfold loadBlocks
      rw [loadBlockByHeight_ofNat hload hof (hbound i List.mem_cons_self),
        ih fun j hj => hbound j (List.mem_cons_of_mem i hj)]
      cases hb : bs[i]? with
      | none => simp [hb]
      | some b => simp [hb, Except.map]

/-- The search through the blocks is a search through their entries. -/
theorem findInChain_eq (env : Env) (hash : TransactionHash) {heights : List Nat}
    (hbound : ∀ i ∈ heights, i < 2 ^ 64) :
    findInChain env s hash heights =
      .ok (((Storage.chainEntries (heights.filterMap fun i => bs[i]?)).find? fun entry =>
        P.transaction.hash entry.transaction == hash).map fun entry =>
          confirmedResponse env s.io entry.block entry.transaction) := by
  induction heights with
  | nil => rfl
  | cons i rest ih =>
      unfold findInChain
      rw [loadBlockByHeight_ofNat hload hof (hbound i List.mem_cons_self),
        ih fun j hj => hbound j (List.mem_cons_of_mem i hj)]
      cases hb : bs[i]? with
      | none => simp [hb]
      | some b =>
          have hentries : Storage.chainEntries ((i :: rest).filterMap fun i => bs[i]?) =
              Storage.blockEntries b 0 (P.block.transactions b) ++
                Storage.chainEntries (rest.filterMap fun i => bs[i]?) := by
            simp [Storage.chainEntries, hb]
          have hfirst := find?_blockEntries b hash
          rw [hentries, List.find?_append]
          cases hfind : (Storage.blockEntries b 0 (P.block.transactions b)).find? fun entry =>
              P.transaction.hash entry.transaction == hash with
          | none =>
              rw [hfind] at hfirst
              simp only [← hfirst, Option.map_none, Option.none_or]
          | some entry =>
              rw [hfind] at hfirst
              obtain ⟨row, -, rfl⟩ := List.mem_map.mp (List.mem_of_find?_eq_some hfind)
              simp only [← hfirst, Option.map_some, Option.some_or]

omit hload in
/-- The heights up to the tip are the chain. -/
theorem take_tipHeight (htip : P.ledger.tipHeight s.ledger = bs.getLast?.map P.block.height) :
    bs.take ((tipHeight s).toNat + 1) = bs := by
  refine List.take_of_length_le ?_
  cases hlast : bs.getLast? with
  | none => simp [List.getLast?_eq_none_iff.mp hlast]
  | some b =>
      rw [List.getLast?_eq_getElem?] at hlast
      rw [tipHeight, htip, List.getLast?_eq_getElem?, hlast, Option.map_some, Option.getD_some,
        hof.height hlast]
      omega

end Scan

/-! ## Scans and indexes agree -/

theorem range_lt (tip : UInt64) : ∀ i ∈ List.range (tip.toNat + 1), i < 2 ^ 64 := by
  intro i hi
  have hbound := tip.toNat_lt
  rw [List.mem_range] at hi
  omega

/-- What an index entry of `address` says of a transaction. -/
def summary (address : Address) (block : P.Block) (transaction : P.SignedTransaction) :
    TransactionHash × Option UInt64 × Option BlockHash × Bool :=
  (P.transaction.hash transaction, some (P.block.height block), some (P.block.hash block),
    P.transaction.sender transaction == address)

/-- A row of the index as the scan of the chain would summarise it. -/
theorem map_forAddress (address : Address) (entry : Storage.Entry P) :
    (entry.forAddress address).map (fun location => (location.txHash, some location.blockHeight,
        some location.blockHash, location.sent)) =
      if touches address entry.transaction then
        some (summary address entry.block entry.transaction)
      else none := by
  unfold Storage.Entry.forAddress touches summary
  by_cases hsender : P.transaction.sender entry.transaction = address
  · simp [hsender, Storage.Entry.addressLocation]
  · by_cases hreceiver : P.transaction.receiver entry.transaction = address
    · simp [hsender, hreceiver, Storage.Entry.addressLocation]
    · simp [hsender, hreceiver]

/-- The index entries of an address are the transactions a scan finds. -/
theorem map_filterMap_forAddress (address : Address) (bs : List P.Block) :
    ((Storage.chainEntries bs).filterMap (Storage.Entry.forAddress address)).map
        (fun location => (location.txHash, some location.blockHeight, some location.blockHash,
          location.sent)) =
      (touched address bs).map fun row => summary address row.1 row.2 := by
  rw [List.map_filterMap, Storage.chainEntries, List.filterMap_flatMap, touched, List.map_flatMap]
  congr 1
  funext block
  have hentry : ((fun entry : Storage.Entry P => (entry.forAddress address).map
      fun location => (location.txHash, some location.blockHeight, some location.blockHash,
        location.sent)) ∘ fun row : P.SignedTransaction × Nat => ⟨block, row.2, row.1⟩) =
      (fun t => if touches address t then some (summary address block t) else none) ∘ Prod.fst :=
    funext fun row => map_forAddress address ⟨block, row.2, row.1⟩
  rw [Storage.blockEntries, List.filterMap_map, hentry, ← List.filterMap_map, List.zipIdx_map_fst,
    List.map_map, ← List.filterMap_eq_map, List.filterMap_filter]
  rfl

/-- For one node: `/tx` and `/address` answer from the chain what the two
indexes answer. -/
structure ScansAgree (details : Details P) (env : Env) (s : Node P) : Prop where
  tx : ∀ hash, (∀ t ∈ s.mempool.transactionList, P.transaction.hash t ≠ hash) →
    ∃ found, s.storage.loadTransaction hash = .ok found ∧
      findTransaction env s hash = .ok (found.map fun row =>
        txResponse env s.io row.2 (some row.1.blockHeight) (some row.1.blockHash) .confirmed)
  address : ∀ address, ∃ locations activity,
    s.storage.loadAddressTransactionLocations address = .ok locations ∧
      addressActivity details env s address = .ok activity ∧
      (activity.transactions.reverse.filter fun response =>
          response.status == .confirmed).map (fun response => (response.hash, response.blockHeight,
            response.blockHash, response.sender == address)) =
        locations.map fun location => (location.txHash, some location.blockHeight,
          some location.blockHash, location.sent)

section Agree

variable (hrec : RecordLaws P) {s : Node P} {bs : List P.Block}
  (h : Storage.IndexRows s.storage s.ledger) (hof : ByHeight s.ledger.chain bs)
  (htip : P.ledger.tipHeight s.ledger = bs.getLast?.map P.block.height)
  (hnodup : ((bs.flatMap P.block.transactions).map P.transaction.hash).Nodup)

include hrec h hof htip hnodup

/-- **The scans and the indexes of the storage find the same transactions.** -/
theorem scansAgree (details : Details P) (env : Env) : ScansAgree details env s where
  tx hash hfree := by
    have hload := Storage.loadBlockByHeight_eq hrec h.byHeight hof
    have hnone : (s.mempool.transactionList.find? fun t => P.transaction.hash t == hash) = none :=
      List.find?_eq_none.mpr fun t ht heq => hfree t ht (beq_iff_eq.mp heq)
    refine ⟨_, Storage.loadTransaction_eq hrec h hof hnodup hash, ?_⟩
    unfold findTransaction
    simp only [hnone]
    rw [findInChain_eq hload hof env hash (range_lt _), filterMap_getElem?_range,
      take_tipHeight hof htip, Option.map_map]
    rfl
  address address := by
    have hload := Storage.loadBlockByHeight_eq hrec h.byHeight hof
    have hblocks : ((List.range ((tipHeight s).toNat + 1)).filterMap fun i =>
        (bs[i]?).map (Prod.mk (UInt64.ofNat i))).map Prod.snd = bs := by
      rw [List.map_filterMap]
      simp only [Option.map_map, Function.comp_def, Option.map_id']
      rw [filterMap_getElem?_range, take_tipHeight hof htip]
    obtain ⟨activity, hactivity, hconfirmed⟩ :=
      addressActivity_ok details env address (loadBlocks_eq hload hof (range_lt _))
    refine ⟨_, activity, Storage.loadAddressTransactionLocations_eq hrec h hof address,
      hactivity, ?_⟩
    rw [hconfirmed, hblocks, map_filterMap_forAddress, List.map_map]
    have hfst := List.zipIdx_map_fst 0 (touched address bs)
    conv => rhs; rw [← hfst, List.map_map]
    rfl

end Agree

/-- **The transaction indexes are exact.**  After `save_ledger`, over any
earlier content and with any side blocks stored since, the two lookups answer
for the chain of the ledger, and the scans of `/tx` and `/address` agree with
them. -/
theorem indexes_exact (hrec : RecordLaws P) {ledger : P.Ledger} {bs : List P.Block}
    (hof : ByHeight ledger.chain bs)
    (htip : P.ledger.tipHeight ledger = bs.getLast?.map P.block.height)
    (hnodup : ((bs.flatMap P.block.transactions).map P.transaction.hash).Nodup) (env : Env)
    (io : Nat) (db : Storage P) (hsaved : (db.saveLedger env io ledger).2 = .ok ())
    (blocks : List (Nat × P.Block)) :
    Storage.IndexExact ((db.saveLedger env io ledger).1.saveSideBlocks env blocks) ledger ∧
      ∀ (details : Details P) (s : Node P), s.ledger = ledger →
        s.storage = (db.saveLedger env io ledger).1.saveSideBlocks env blocks →
        ScansAgree details env s := by
  have hwritten : Storage.Written db ledger (db.saveLedger env io ledger).1 := by
    rcases Storage.saveLedger_cases env io db ledger with ⟨-, hfailed⟩ | hwrite
    · exact absurd hsaved hfailed
    · exact Storage.writeLedger_written hwrite
  have hrows := (hwritten.indexRows hof).saveSideBlocks env blocks
  refine ⟨hrows.exact hrec hof hnodup, ?_⟩
  intro details s hledger hstorage
  subst hledger
  rw [← hstorage] at hrows
  exact scansAgree hrec hrows hof htip hnodup details env

end Rpc

namespace Reference

/-- The genesis block and one with two payments of the miner. -/
def paidBlocks : List Block := [genesis, block 2 1 1 [payment 2 0, payment 1 1]]

def paidChain : Chain Block :=
  (paidBlocks.foldlM paqus.ledger.insertBlock (Chain.new paqus.Block)).toOption.get
    (by decide +kernel)

def paidLedger : Ledger Account Block := ⟨∅, paidChain⟩

theorem paidLedger_of : ChainOf (P := paqus) paidLedger.chain paidBlocks := by
  have hfold : paidBlocks.foldlM paqus.ledger.insertBlock (Chain.new paqus.Block) =
      .ok paidChain :=
    Except.eq_ok_of_toOption (Option.some_get _).symm
  dsimp only [paidLedger]
  exact (chainOf_of_foldlM chainLaws hfold).1

end Reference

/-- The second payment is found where it is, over a database that held other
blocks. -/
theorem Rpc.indexes_exact_of_payments :
    Storage.IndexExact ((Reference.usedStorage.saveLedger Reference.calm 2
        Reference.paidLedger).1.saveSideBlocks Reference.calm [(3, Reference.block 5 1 1 [])])
        Reference.paidLedger ∧
      ((Reference.usedStorage.saveLedger Reference.calm 2
        Reference.paidLedger).1.saveSideBlocks Reference.calm
          [(3, Reference.block 5 1 1 [])]).loadTransaction (Reference.payment 1 1).hash =
        .ok (some (⟨1, 2, 1⟩, Reference.payment 1 1)) :=
  have hsaved : (Reference.usedStorage.saveLedger Reference.calm 2 Reference.paidLedger).2 =
      .ok () := by decide +kernel
  have htip : Reference.paqus.ledger.tipHeight Reference.paidLedger =
      Reference.paidBlocks.getLast?.map Reference.paqus.block.height := by decide +kernel
  have hnodup : ((Reference.paidBlocks.flatMap Reference.paqus.block.transactions).map
      Reference.paqus.transaction.hash).Nodup := by decide +kernel
  ⟨(indexes_exact Reference.recordLaws Reference.paidLedger_of.byHeight htip hnodup
    Reference.calm 2 Reference.usedStorage hsaved [(3, Reference.block 5 1 1 [])]).1,
    by decide +kernel⟩

end PaqusNode
