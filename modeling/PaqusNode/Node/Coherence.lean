import PaqusNode.Network.Message
import PaqusNode.Node.Reopen
import PaqusNode.Node.Run

/-!
# PaqusNode.Node.Coherence

The read cache is a copy of the ledger.  Extending the tip patches it (one
block, the accounts of the block's senders, receivers and miner), a reorg
rebuilds it, and both happen before the write that can still fail; so
whatever a call of `apply_block` returns, the cache is the one that
`CoreCache::from_ledger` would build, and the two block requests of a peer,
one served from the cache and one from the ledger, are answered from the
same chain.
-/

namespace PaqusNode

variable {P : Paqus}

namespace CoreCache

/-! ## What the cache holds -/

theorem foldl_insertAccount (accounts : List P.Account) (cache : CoreCache P) :
    accounts.foldl insertAccount cache = { cache with
      accounts := accounts.foldl
        (fun m account => m.insert (P.account.address account) account) cache.accounts } := by
  induction accounts generalizing cache with
  | nil => rfl
  | cons account rest ih => exact ih _

/-- Inserting blocks into a cache fills its two tables. -/
theorem foldl_insertBlock (blocks : List P.Block) (cache : CoreCache P) :
    (blocks.foldl insertBlock cache).accounts = cache.accounts ∧
      (blocks.foldl insertBlock cache).blocksByHeight = blocks.foldl
        (fun m block => m.insert (P.block.height block) block) cache.blocksByHeight ∧
      (blocks.foldl insertBlock cache).blocksByHash = blocks.foldl
        (fun m block => m.insert (P.block.hash block) block) cache.blocksByHash := by
  induction blocks generalizing cache with
  | nil => exact ⟨rfl, rfl, rfl⟩
  | cons block rest ih => exact ih _

/-- `from_ledger`, field by field. -/
theorem fromLedger_eq (ledger : P.Ledger) :
    fromLedger ledger = {
      accounts := ledger.accounts.valuesList.foldl
        (fun m account => m.insert (P.account.address account) account) ∅
      blocksByHeight := ledger.chain.blocks.valuesList.foldl
        (fun m block => m.insert (P.block.height block) block) ∅
      blocksByHash := ledger.chain.blocks.valuesList.foldl
        (fun m block => m.insert (P.block.hash block) block) ∅
      tipHeight := P.ledger.tipHeight ledger
      tipHash := P.ledger.tipHash ledger } := by
  unfold fromLedger
  obtain ⟨haccounts, hheight, hhash⟩ := foldl_insertBlock ledger.chain.blocks.valuesList
    (ledger.accounts.valuesList.foldl insertAccount new)
  simp only [haccounts, hheight, hhash]
  simp only [foldl_insertAccount]
  rfl

/-- What is found by hash is a block of the chain with that hash. -/
theorem blockByHash_fromLedger {ledger : P.Ledger} {hash : BlockHash} {block : P.Block}
    (h : (fromLedger ledger).blockByHash hash = some block) :
    block ∈ ledger.chain.blocks.valuesList ∧ P.block.hash block = hash := by
  rw [blockByHash, fromLedger_eq] at h
  rcases BTreeMap.exists_of_getElem?_foldl_insert P.block.hash (fun block => block) h with
    ⟨row, hmem, hhash, rfl⟩ | h
  · exact ⟨hmem, hhash⟩
  · simp at h

/-- Every block of the chain has its hash in the cache. -/
theorem isSome_blockByHash_fromLedger {ledger : P.Ledger} {block : P.Block}
    (h : block ∈ ledger.chain.blocks.valuesList) :
    ((fromLedger ledger).blockByHash (P.block.hash block)).isSome := by
  rw [blockByHash, fromLedger_eq]
  exact BTreeMap.isSome_getElem?_foldl_insert P.block.hash (fun block => block) h

end CoreCache

namespace Node

/-! ## Extending the tip -/

/-- The addresses whose accounts a block may change. -/
def participants (block : P.Block) : List Address :=
  (P.block.transactions block).flatMap
      (fun transaction => [P.transaction.sender transaction, P.transaction.receiver transaction]) ++
    [P.block.minerAddress block]

/-- One account of the ledger copied to the cache, if there is one. -/
def refreshAccount (ledger : P.Ledger) (cache : CoreCache P) (address : Address) : CoreCache P :=
  match ledger.account address with
  | some account => cache.insertAccount account
  | none => cache

theorem refreshCache_eq (cache : CoreCache P) (ledger : P.Ledger) (block : P.Block) :
    refreshCache cache ledger block =
      (participants block).foldl (refreshAccount ledger) (cache.insertBlock block) := by
  rw [participants, List.foldl_append, List.foldl_flatMap]
  rfl

/-- Copying accounts changes those accounts only, to what the ledger has. -/
theorem foldl_refreshAccount {ledger : P.Ledger} (hkeyed : AccountsKeyed P ledger.accounts)
    (addresses : List Address) (cache : CoreCache P) :
    ∃ accounts,
      addresses.foldl (refreshAccount ledger) cache = { cache with accounts := accounts } ∧
      ∀ address : Address, accounts[address]? =
        if address ∈ addresses ∧ (ledger.accounts[address]?).isSome then ledger.accounts[address]?
        else cache.accounts[address]? := by
  induction addresses generalizing cache with
  | nil => exact ⟨cache.accounts, rfl, by simp⟩
  | cons first rest ih =>
      obtain ⟨accounts, heq, hlookup⟩ := ih (refreshAccount ledger cache first)
      refine ⟨accounts, ?_, ?_⟩
      · rw [List.foldl_cons, heq]
        unfold refreshAccount
        split <;> rfl
      · intro address
        rw [hlookup]
        by_cases hrest : address ∈ rest ∧ (ledger.accounts[address]?).isSome
        · rw [if_pos hrest, if_pos ⟨List.mem_cons_of_mem _ hrest.1, hrest.2⟩]
        · rw [if_neg hrest]
          unfold refreshAccount Ledger.account
          cases hfirst : ledger.accounts[first]? with
          | none =>
              rw [if_neg]
              rintro ⟨hmem, hsome⟩
              rcases List.mem_cons.mp hmem with rfl | hmem
              · rw [hfirst] at hsome
                cases hsome
              · exact hrest ⟨hmem, hsome⟩
          | some account =>
              simp only [CoreCache.insertAccount]
              rw [BTreeMap.getElem?_insert_eq, hkeyed first account hfirst]
              by_cases heq : first = address
              · subst heq
                rw [if_pos rfl, if_pos ⟨List.mem_cons_self, by rw [hfirst]; rfl⟩, hfirst]
              · rw [if_neg heq, if_neg]
                rintro ⟨hmem, hsome⟩
                exact hrest ⟨(List.mem_cons.mp hmem).resolve_left (Ne.symm heq), hsome⟩

/-- **The patched cache is the rebuilt one**, for a block that applies on top
of the chain. -/
theorem refreshCache_fromLedger (haccount : AccountLaws P) {ledger ledger' : P.Ledger}
    {block : P.Block} (happly : P.ledger.applyBlock ledger block = .ok ledger')
    (hheight : P.block.height block ≠ 0) (hkeyed : AccountsKeyed P ledger.accounts)
    (hkeyed' : AccountsKeyed P ledger'.accounts)
    (hvalues : ledger'.chain.blocks.valuesList = ledger.chain.blocks.valuesList ++ [block])
    (htip : TipOf ledger' block) :
    refreshCache (CoreCache.fromLedger ledger) ledger' block = CoreCache.fromLedger ledger' := by
  obtain ⟨accounts, heq, hlookup⟩ := foldl_refreshAccount hkeyed' (participants block)
    ((CoreCache.fromLedger ledger).insertBlock block)
  rw [refreshCache_eq, heq, CoreCache.fromLedger_eq, CoreCache.fromLedger_eq, hvalues,
    htip.hash, htip.height]
  rw [CoreCache.fromLedger_eq] at hlookup
  simp only [CoreCache.insertBlock, BTreeMap.foldl_insert_valuesList hkeyed] at hlookup
  simp only [CoreCache.insertBlock, List.foldl_append, List.foldl_cons, List.foldl_nil,
    BTreeMap.foldl_insert_valuesList hkeyed', CoreCache.mk.injEq, and_true]
  refine Std.ExtTreeMap.ext_getElem? fun address => ?_
  rw [hlookup]
  by_cases hmem : address ∈ participants block
  · cases hsome : ledger'.accounts[address]? with
    | some account => simp [hmem]
    | none =>
        -- an account that is not there now was not there before
        rw [if_neg (by simp), ← Option.not_isSome_iff_eq_none]
        intro hbefore
        have hafter := haccount.apply_keeps happly hheight address hbefore
        rw [hsome] at hafter
        cases hafter
  · rw [if_neg fun h => hmem h.1]
    simp only [participants, List.mem_append, List.mem_flatMap, List.mem_cons, List.not_mem_nil,
      or_false, not_or, not_exists, not_and] at hmem
    refine (haccount.apply_other happly hheight address ?_ (Ne.symm hmem.2)).symm
    intro transaction ht
    exact ⟨Ne.symm (hmem.1 transaction ht).1, Ne.symm (hmem.1 transaction ht).2⟩

/-! ## Coherence along a run -/

/-- The cache is the one built from the ledger, whose chain holds at least
one block and whose accounts are under their own addresses, as are those the
node replays branches from. -/
structure Coherent (s : Node P) : Prop where
  cache : s.cache = CoreCache.fromLedger s.ledger
  chain : ∃ bs, bs ≠ [] ∧
    bs.foldlM P.ledger.insertBlock (Chain.new P.Block) = .ok s.ledger.chain
  keyed : AccountsKeyed P s.ledger.accounts
  genesis : AccountsKeyed P s.genesisAccounts

/-- Coherence is about the cache, the ledger and the first accounts. -/
theorem Coherent.congr {s s' : Node P} (h : s.Coherent) (hcache : s'.cache = s.cache)
    (hledger : s'.ledger = s.ledger) (hgenesis : s'.genesisAccounts = s.genesisAccounts) :
    s'.Coherent := by
  refine ⟨?_, ?_, ?_, ?_⟩
  · rw [hcache, hledger]
    exact h.cache
  · rw [hledger]
    exact h.chain
  · rw [hledger]
    exact h.keyed
  · rw [hgenesis]
    exact h.genesis

theorem Coherent.saveLedger {s : Node P} (h : s.Coherent) (env : Env) :
    (s.saveLedger env).1.Coherent := by
  obtain ⟨storage, durable, hsave⟩ := saveLedger_fst env s
  rw [hsave]
  exact h.congr rfl rfl rfl

section Laws

variable (hchain : ChainLaws P) (hrec : RecordLaws P) (haccount : AccountLaws P)

include hchain hrec haccount

/-- A block on top of the ledger keeps the cache coherent. -/
theorem Coherent.extended {s : Node P} (h : s.Coherent) {block : P.Block} {ledger' : P.Ledger}
    (happly : P.ledger.applyBlock s.ledger block = .ok ledger') :
    Coherent { s with ledger := ledger', cache := refreshCache s.cache ledger' block } := by
  obtain ⟨bs, hne, hbuilt⟩ := h.chain
  have hbuilt' : (bs ++ [block]).foldlM P.ledger.insertBlock (Chain.new P.Block) =
      .ok ledger'.chain := foldlM_concat_eq_ok.mpr ⟨_, hbuilt, hchain.apply_chain happly⟩
  obtain ⟨hof, -⟩ := chainOf_of_foldlM hchain hbuilt
  obtain ⟨hof', htip⟩ := chainOf_of_foldlM hchain hbuilt'
  have hheight : P.block.height block ≠ 0 := by
    have hlast := hof'.height List.getElem?_concat_length
    have hpos := List.length_pos_iff.mpr hne
    intro hzero
    rw [hzero] at hlast
    exact absurd hlast (Nat.ne_of_lt hpos)
  have hkeyed' := hrec.apply_keyed happly h.keyed
  have hvalues : ledger'.chain.blocks.valuesList = s.ledger.chain.blocks.valuesList ++ [block] := by
    rw [hof'.values, hof.values]
  have hcache : refreshCache s.cache ledger' block = CoreCache.fromLedger ledger' := by
    rw [h.cache]
    exact refreshCache_fromLedger haccount happly hheight h.keyed hkeyed' hvalues
      (htip _ block List.getLast?_concat)
  exact ⟨hcache, ⟨bs ++ [block], by simp, hbuilt'⟩, hkeyed', h.genesis⟩

/-- **One step keeps the cache coherent**, whatever it returns. -/
theorem Step.coherent {env : Env} {s s' : Node P} (h : s.Coherent) (hstep : Step env s s') :
    s'.Coherent := by
  cases hstep with
  | save => exact h.saveLedger env
  | sync hsync => exact h.congr hsync.cache hsync.ledger hsync.genesisAccounts
  | pool _ => exact h.congr rfl rfl rfl
  | connect block =>
      rcases applyKnownParentBlock_cases env s block with ⟨e, heq⟩ | ⟨hash, fc, -, -, -, heq⟩
      · rw [heq]
        exact h.congr rfl rfl rfl
      have hindexed : Coherent { s.tick with forkChoice := fc } := h.congr rfl rfl rfl
      rw [heq]
      have hends := connect_connectsTo env { s.tick with forkChoice := fc } block hash
      generalize (Node.connect env { s.tick with forkChoice := fc } block hash).1 = s' at hends ⊢
      cases hends with
      | refused => exact hindexed
      | side => exact hindexed.congr rfl rfl rfl
      | extended happly =>
          exact (hindexed.extended hchain hrec haccount happly).congr rfl rfl rfl
      | @reorged _ ledger offered _ hledger _ storage durable =>
          obtain ⟨genesis, branch, hreplay⟩ := ledgerForBranchTip_replay hledger
          obtain ⟨mempool, hfold⟩ := foldl_reinsert env offered
            { tick { s.tick with forkChoice := fc } with
              ledger := ledger, cache := CoreCache.fromLedger ledger
              storage := storage, durable := durable }
          rw [hfold]
          exact ⟨rfl, ⟨genesis :: branch, by simp, replay_chain hchain hreplay⟩,
            replay_keyed hrec h.genesis hreplay, h.genesis⟩

theorem Coherent.applyBlocks {s : Node P} (h : s.Coherent) (env : Env) (blocks : List P.Block) :
    (s.applyBlocks env blocks).Coherent :=
  (applyBlocks_steps env blocks s).invariant Coherent
    (fun h hstep => hstep.coherent hchain hrec haccount h) h

/-- From a coherent cache, through any blocks and any storage failures: the
cache stays the one built from the ledger, a block a peer is given by hash is
one it can have by height, and every block of the ledger can be had by
hash. -/
theorem cache_coherent (params : Network.ChainParams) (env : Env) {s : Node P} (h : s.Coherent)
    (blocks : List P.Block) :
    (s.applyBlocks env blocks).cache = CoreCache.fromLedger (s.applyBlocks env blocks).ledger ∧
      (∀ hash block,
        (Network.handleMessage params env (s.applyBlocks env blocks) (.getBlockByHash hash)).2 =
          .ok (some (.block block)) →
        P.block.hash block = hash ∧ ∃ height,
          (Network.handleMessage params env (s.applyBlocks env blocks)
            (.getBlockByHeight height)).2 = .ok (some (.block block))) ∧
      ∀ height block,
        (Network.handleMessage params env (s.applyBlocks env blocks)
          (.getBlockByHeight height)).2 = .ok (some (.block block)) →
        ∃ block', P.block.hash block' = P.block.hash block ∧
          (Network.handleMessage params env (s.applyBlocks env blocks)
            (.getBlockByHash (P.block.hash block))).2 = .ok (some (.block block')) := by
  have hcache := (h.applyBlocks hchain hrec haccount env blocks).cache
  generalize s.applyBlocks env blocks = s' at hcache
  simp only [Network.handleMessage, hcache, Except.ok.injEq, Option.map_eq_some_iff,
    Network.Message.block.injEq, exists_eq_right]
  refine ⟨trivial, ?_, ?_⟩
  · intro hash block hfound
    obtain ⟨hmem, hhash⟩ := CoreCache.blockByHash_fromLedger hfound
    exact ⟨hhash, BTreeMap.mem_valuesList.mp hmem⟩
  · intro height block hfound
    obtain ⟨block', hblock'⟩ := Option.isSome_iff_exists.mp
      (CoreCache.isSome_blockByHash_fromLedger (BTreeMap.mem_valuesList.mpr ⟨height, hfound⟩))
    exact ⟨block', (CoreCache.blockByHash_fromLedger hblock').2, hblock'⟩

omit haccount in
/-- A node opened over an empty database starts coherent. -/
theorem coherent_of_initOrLoad (hfc : ForkChoiceLaws P) {env : Env} {io : Nat}
    {consensus : Consensus} {db : Storage P} {s : Node P}
    (hopen : initOrLoad env io Storage.empty consensus = (db, .ok s)) : s.Coherent := by
  rcases initOrLoad_of_blank hfc hchain hrec (.inl rfl) env io consensus with
    ⟨-, hfail⟩ | ⟨ledger, hstored, hok⟩
  · exact absurd (by rw [hopen]) (hfail s)
  obtain ⟨-, -, hopened⟩ := hok s (by rw [hopen])
  have hkeyed := replay_keyed hrec hstored.keyed hstored.replayed
  refine ⟨initOrLoad_cache hopen, ⟨[P.genesisBlock], by simp, ?_⟩, ?_, ?_⟩
  · rw [hopened.ledger]
    exact replay_chain hchain hstored.replayed
  · rw [hopened.ledger]
    exact hkeyed
  · rw [hopened.genesisAccounts]
    exact hkeyed

end Laws

/-- Along a reorganisation the block of the abandoned branch is no longer
served by hash. -/
theorem cache_coherent_of_reorg :
    (Reference.genesisNode.applyBlocks Reference.calm Reference.sideBranchWins).cache =
        CoreCache.fromLedger
          (Reference.genesisNode.applyBlocks Reference.calm Reference.sideBranchWins).ledger ∧
      Reference.paqus.ledger.tipHash
        (Reference.genesisNode.applyBlocks Reference.calm Reference.sideBranchWins).ledger =
        some 4 ∧
      ((Reference.genesisNode.applyBlocks Reference.calm Reference.sideBranchWins).cache.blockByHash
        2).isNone :=
  have hcoherent := coherent_of_initOrLoad Reference.chainLaws Reference.recordLaws
    Reference.forkChoiceLaws (Reference.opened_eq_some Reference.opened_calm)
  ⟨(cache_coherent Reference.chainLaws Reference.recordLaws Reference.accountLaws
    ⟨1, 1, "", "", #v[0, 0, 0, 0]⟩ Reference.calm hcoherent Reference.sideBranchWins).1,
    by decide +kernel, by decide +kernel⟩

end Node

end PaqusNode
