import PaqusNode.Paqus

/-!
# PaqusNode.Cache

The in-memory read cache (`runtime/cache.rs`): a copy of the ledger's
accounts and of the active chain, indexed by height and by hash.
-/

namespace PaqusNode

structure CoreCache (P : Paqus) where
  accounts : BTreeMap Address P.Account
  blocksByHeight : BTreeMap UInt64 P.Block
  blocksByHash : BTreeMap BlockHash P.Block
  tipHeight : Option UInt64
  tipHash : Option BlockHash

namespace CoreCache

variable {P : Paqus}

/-- `CoreCache::new`. -/
def new : CoreCache P := ⟨∅, ∅, ∅, none, none⟩

/-- `insert_account`. -/
def insertAccount (cache : CoreCache P) (account : P.Account) : CoreCache P :=
  { cache with accounts := cache.accounts.insert (P.account.address account) account }

/-- `insert_block`. -/
def insertBlock (cache : CoreCache P) (block : P.Block) : CoreCache P :=
  { cache with
    blocksByHeight := cache.blocksByHeight.insert (P.block.height block) block
    blocksByHash := cache.blocksByHash.insert (P.block.hash block) block
    tipHeight := some (P.block.height block)
    tipHash := some (P.block.hash block) }

/-- `from_ledger`. -/
def fromLedger (ledger : P.Ledger) : CoreCache P :=
  let cache := ledger.accounts.valuesList.foldl insertAccount new
  let cache := ledger.chain.blocks.valuesList.foldl insertBlock cache
  { cache with tipHeight := P.ledger.tipHeight ledger, tipHash := P.ledger.tipHash ledger }

/-- `block_by_hash`. -/
def blockByHash (cache : CoreCache P) (hash : BlockHash) : Option P.Block :=
  cache.blocksByHash[hash]?

end CoreCache

end PaqusNode
