import PaqusNode.Mempool

/-!
# PaqusNode.Miner

Block production: the greedy transaction selection and candidate block of
`runtime/mempool/mempool.rs`, and the nonce search of
`runtime/miner/miner.rs`.
-/

namespace PaqusNode

/-- `Iterator::max_by`: the last of the maximal elements. -/
def maxBy {α : Type} (cmp : α → α → Ordering) : List α → Option α
  | [] => none
  | x :: xs => some (xs.foldl (fun best y => if cmp best y = .gt then best else y) x)

namespace Mempool

variable {P : Paqus}

/-! ## Selection -/

/-- What `select_for_block` compares: a sender's next transaction. -/
structure Candidate where
  sender : Address
  fee : UInt32
  nonce : UInt64
  hash : TransactionHash
deriving DecidableEq, Repr

/-- The order of `select_for_block`: by fee, then towards the lower nonce
and the lower hash. -/
def Candidate.cmp (left right : Candidate) : Ordering :=
  (compare left.fee right.fee).then
    ((compare right.nonce left.nonce).then (compare right.hash left.hash))

/-- The key order of a sender's queue: nonce, then hash. -/
def queueLe (a b : P.SignedTransaction) : Prop :=
  P.transaction.nonce a < P.transaction.nonce b ∨
    P.transaction.nonce a = P.transaction.nonce b ∧ P.transaction.hash a ≤ P.transaction.hash b

instance : DecidableRel (queueLe (P := P)) := fun _ _ => inferInstanceAs (Decidable (_ ∨ _))

/-- The pool split into one queue per sender. -/
def bySender (pool : Mempool P) : BTreeMap Address (List P.SignedTransaction) :=
  let groups := pool.transactionList.foldl
    (fun groups transaction => groups.alter (P.transaction.sender transaction)
      fun queue => some (queue.getD [] ++ [transaction]))
    (∅ : BTreeMap Address (List P.SignedTransaction))
  groups.map fun _ queue => queue.insertionSort queueLe

/-- The heads of all queues, in address order. -/
def candidates (queues : BTreeMap Address (List P.SignedTransaction)) : List Candidate :=
  queues.toList.filterMap fun (sender, queue) =>
    queue.head?.map fun transaction =>
      ⟨sender, P.transaction.fee transaction, P.transaction.nonce transaction,
        P.transaction.hash transaction⟩

/-- The selection loop, with room for `limit` more transactions. -/
def selectLoop : Nat → BTreeMap Address (List P.SignedTransaction) → List P.SignedTransaction
  | 0, _ => []
  | limit + 1, queues =>
      match maxBy Candidate.cmp (candidates queues) with
      | none => []
      | some candidate =>
          match queues[candidate.sender]? with
          | some (transaction :: rest) =>
              transaction :: selectLoop limit
                (if rest.isEmpty then queues.erase candidate.sender
                 else queues.insert candidate.sender rest)
          -- `expect("selected sender should exist")`: a candidate heads a non-empty queue
          | _ => []

/-- `select_for_block`. -/
def selectForBlock (pool : Mempool P) (limit : Nat) : List P.SignedTransaction :=
  selectLoop limit pool.bySender

/-- The height of the candidate block. -/
def candidateHeight (ledger : P.Ledger) : UInt64 :=
  match P.ledger.tipHeight ledger with
  | some h => satAdd h 1
  | none => 0

/-- `create_candidate_block` once the transactions are selected and their
fees added up. -/
def candidateBlock (ledger : P.Ledger) (minerAddress : Address) (timestamp nonce : UInt64)
    (fees : UInt32) (transactions : List P.SignedTransaction) : Except LedgerError P.Block :=
  let height := candidateHeight ledger
  let previousHash := (P.ledger.tipHash ledger).getD 0
  let coinbase : Except LedgerError (Option (UInt32 × UInt32)) :=
    if height = 0 ∧ previousHash = 0 then .ok none
    else (P.ledger.mintableSubsidy ledger height).map fun subsidy => some (subsidy, fees)
  match coinbase with
  | .error e => .error e
  | .ok coinbase =>
      let block := P.block.withCoinbase height previousHash minerAddress P.consensus.difficultyStart
        timestamp nonce coinbase transactions
      match P.ledger.stateRootAfterBlock ledger block with
      | .error e => .error e
      | .ok stateRoot => .ok (P.block.setStateRoot block stateRoot)

/-- `create_candidate_block`. -/
def createCandidateBlock (pool : Mempool P) (ledger : P.Ledger) (minerAddress : Address)
    (timestamp nonce : UInt64) (transactionLimit : Nat) : Except LedgerError P.Block :=
  let transactions := pool.selectForBlock transactionLimit
  candidateBlock ledger minerAddress timestamp nonce (feeSum transactions) transactions

end Mempool

/-! ## Mining -/

structure MiningConfig where
  difficulty : UInt32
  maxAttempts : UInt64
  transactionLimit : Nat
deriving DecidableEq, Repr

structure MiningResult (P : Paqus) where
  block : P.Block
  attempts : UInt64

variable {P : Paqus}

/-- `prepare_candidate_block`. -/
def prepareCandidateBlock (pool : Mempool P) (ledger : P.Ledger) (minerAddress : Address)
    (timestamp : UInt64) (transactionLimit : Nat) (difficulty : UInt32) :
    Except ConsensusError P.Block :=
  match pool.createCandidateBlock ledger minerAddress timestamp 0 transactionLimit with
  | .error _ => .error (.invalidBlock .invalidStateRoot)
  | .ok block => .ok (P.block.setDifficulty block difficulty)

/-- The attempt loop of `mine_prepared_block`, with `fuel` attempts left
and `attempt` the next nonce. -/
def mineLoop (block : P.Block) (consensus : Consensus) (config : MiningConfig) :
    (fuel attempt : Nat) → Except ConsensusError (Option (MiningResult P))
  | 0, _ => .ok none
  | fuel + 1, attempt =>
      let block := P.block.setNonce block (UInt64.ofNat attempt)
      let found : MiningResult P := ⟨block, satAdd (UInt64.ofNat attempt) 1⟩
      if config.difficulty = 0 then .ok (some found)
      else
        match P.consensus.proofOfWorkHash consensus block with
        | .error e => .error e
        | .ok hash =>
            match P.consensus.validateProofOfWorkHashWithDifficulty consensus hash
                config.difficulty with
            | .ok () => .ok (some found)
            | .error _ => mineLoop block consensus config fuel (attempt + 1)

/-- `mine_prepared_block`. -/
def minePreparedBlock (block : P.Block) (consensus : Consensus) (config : MiningConfig) :
    Except ConsensusError (Option (MiningResult P)) :=
  mineLoop block consensus config config.maxAttempts.toNat 0

/-- `mine_candidate_block`. -/
def mineCandidateBlock (pool : Mempool P) (ledger : P.Ledger) (consensus : Consensus)
    (minerAddress : Address) (timestamp : UInt64) (config : MiningConfig) :
    Except ConsensusError (Option (MiningResult P)) :=
  match prepareCandidateBlock pool ledger minerAddress timestamp config.transactionLimit
      config.difficulty with
  | .error e => .error e
  | .ok block => minePreparedBlock block consensus config

end PaqusNode
