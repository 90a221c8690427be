import Mathlib.Data.List.Induction
import PaqusNode.Mempool.Slots

/-!
# PaqusNode.Mempool.Capacity

The limits of the pool and its byte counter.  `remove_confirmed` leaves the
counter behind, so in general it says nothing about the entries; but every
insertion prunes first, and pruning counts afresh.  The limits are therefore
exact in every run, and the counter is exact in the runs that confirm
nothing pending.
-/

namespace PaqusNode

namespace Mempool

variable {P : Paqus}

variable {pool pool' : Mempool P} {hash : TransactionHash} {t : P.SignedTransaction}

/-! ## Bytes -/

/-- The bytes of some entries. -/
def bytes (transactions : BTreeMap TransactionHash (MempoolEntry P)) : Nat :=
  (transactions.valuesList.map fun entry =>
    P.transaction.serializedSize entry.transaction).sum

/-- The bytes of all entries. -/
def weight (pool : Mempool P) : Nat := bytes pool.transactions

theorem bytes_insert {transactions : BTreeMap TransactionHash (MempoolEntry P)}
    (entry : MempoolEntry P) (h : transactions[hash]? = none) :
    bytes (transactions.insert hash entry) =
      P.transaction.serializedSize entry.transaction + bytes transactions :=
  BTreeMap.sum_valuesList_insert entry h _

theorem bytes_erase {transactions : BTreeMap TransactionHash (MempoolEntry P)}
    {entry : MempoolEntry P} (h : transactions[hash]? = some entry) :
    bytes transactions =
      P.transaction.serializedSize entry.transaction + bytes (transactions.erase hash) :=
  BTreeMap.sum_valuesList_erase h _

/-- The saturating sum saturates once. -/
theorem sumBytes_eq (entries : List (MempoolEntry P)) :
    sumBytes entries = min (entries.map fun entry =>
      P.transaction.serializedSize entry.transaction).sum usizeMax := by
  have hfold : ∀ acc ≤ usizeMax, entries.foldl (fun acc entry =>
        min (acc + P.transaction.serializedSize entry.transaction) usizeMax) acc =
      min (acc + (entries.map fun entry =>
        P.transaction.serializedSize entry.transaction).sum) usizeMax := by
    induction entries with
    | nil =>
        intro acc hacc
        simp [hacc]
    | cons entry rest ih =>
        intro acc _
        rw [List.foldl_cons, ih _ (Nat.min_le_right _ _), List.map_cons, List.sum_cons]
        omega
  rw [sumBytes, hfold 0 (Nat.zero_le _), Nat.zero_add]

theorem sumBytes_le (entries : List (MempoolEntry P)) :
    sumBytes entries ≤
      (entries.map fun entry => P.transaction.serializedSize entry.transaction).sum := by
  rw [sumBytes_eq]
  exact Nat.min_le_left _ _

/-- Pruning counts afresh. -/
theorem totalBytes_pruneExpired (pool : Mempool P) (now : UInt64) :
    (pool.pruneExpired now).totalBytes = min (pool.pruneExpired now).weight usizeMax :=
  sumBytes_eq _

theorem pruneExpired_sub (pool : Mempool P) (now : UInt64) (hash : TransactionHash)
    (entry : MempoolEntry P) (h : (pool.pruneExpired now).transactions[hash]? = some entry) :
    (hash, entry) ∈ [] ∨ pool.transactions[hash]? = some entry := by
  rw [getElem?_pruneExpired, Option.filter_eq_some_iff] at h
  exact .inr h.1

/-- After an insertion there is only the newcomer and what was there. -/
theorem Inserted.sub {now : UInt64} {replacement : Option TransactionHash}
    (h : Inserted pool pool' t now replacement) (hash : TransactionHash) (entry : MempoolEntry P)
    (hentry : pool'.transactions[hash]? = some entry) :
    (hash, entry) ∈ [(P.transaction.hash t, ⟨t, now⟩)] ∨ pool.transactions[hash]? = some entry := by
  rw [h.lookup] at hentry
  split at hentry
  · next heq =>
      cases hentry
      simp [heq]
  split at hentry
  · cases hentry
  · exact .inr hentry

/-! ## One insertion, exactly -/

/-- The entries without the replaced one. -/
def without (transactions : BTreeMap TransactionHash (MempoolEntry P)) :
    Option TransactionHash → BTreeMap TransactionHash (MempoolEntry P)
  | none => transactions
  | some hash => transactions.erase hash

/-- The entries with `t` in the place of `replacement`. -/
def taken (held : BTreeMap TransactionHash (MempoolEntry P)) (t : P.SignedTransaction)
    (now : UInt64) (replacement : Option TransactionHash) :
    BTreeMap TransactionHash (MempoolEntry P) :=
  (without held replacement).insert (P.transaction.hash t) ⟨t, now⟩

theorem without_eq_none {held : BTreeMap TransactionHash (MempoolEntry P)} (h : held[hash]? = none)
    (replacement : Option TransactionHash) : (without held replacement)[hash]? = none := by
  cases replacement with
  | none => exact h
  | some r =>
      rw [without, BTreeMap.getElem?_erase_eq, h]
      split <;> rfl

theorem bytes_taken {held : BTreeMap TransactionHash (MempoolEntry P)} (now : UInt64)
    (hfresh : held[P.transaction.hash t]? = none) (replacement : Option TransactionHash) :
    bytes (taken held t now replacement) =
      bytes (without held replacement) + P.transaction.serializedSize t := by
  rw [taken, bytes_insert _ (without_eq_none hfresh replacement), Nat.add_comm]

/-- `remove`, whether the entry is there or not. -/
theorem remove_eq (pool : Mempool P) (hash : TransactionHash) :
    pool.remove hash = { pool with
      transactions := pool.transactions.erase hash
      totalBytes := pool.totalBytes - pool.replacementSize (some hash) } := by
  unfold remove replacementSize
  rw [Option.bind_some]
  cases hentry : pool.transactions[hash]? with
  | some entry => rfl
  | none =>
      have hsame : pool.transactions.erase hash = pool.transactions := by
        refine Std.ExtTreeMap.ext_getElem? fun k => ?_
        rw [BTreeMap.getElem?_erase_eq]
        split
        · next heq => rw [← heq, hentry]
        · rfl
      simp [hsame]

/-- What `remove` takes off the bytes. -/
theorem weight_remove (pool : Mempool P) (hash : TransactionHash) :
    (pool.remove hash).weight + pool.replacementSize (some hash) = pool.weight := by
  unfold remove replacementSize
  rw [Option.bind_some]
  cases hentry : pool.transactions[hash]? with
  | none => rfl
  | some entry =>
      have hbytes : pool.weight = _ := bytes_erase hentry
      rw [hbytes, Nat.add_comm]
      rfl

/-- What `insert_unchecked` does with a new transaction. -/
theorem insertUnchecked_eq (now : UInt64) (replacement : Option TransactionHash)
    (hfresh : pool.transactions[P.transaction.hash t]? = none) :
    pool.insertUnchecked t now replacement =
      if (replacement = none ∧ pool.config.maxTransactions ≤ pool.transactions.size) ∨
          pool.config.maxBytes < min (pool.totalBytes - pool.replacementSize replacement +
            P.transaction.serializedSize t) usizeMax then
        .error .mempoolFull
      else .ok (P.transaction.hash t, { pool with
        transactions := taken pool.transactions t now replacement
        totalBytes := min (pool.totalBytes - pool.replacementSize replacement +
          P.transaction.serializedSize t) usizeMax }) := by
  have hnew : pool.transactions.contains (P.transaction.hash t) = false := by
    rw [BTreeMap.contains_eq_isSome, hfresh]
    rfl
  unfold insertUnchecked
  simp only [hnew, Bool.false_eq_true, if_false, Option.isNone_iff_eq_none]
  by_cases hcount : replacement = none ∧ pool.config.maxTransactions ≤ pool.transactions.size
  · simp only [hcount, and_self, if_true, true_or]
  rw [if_neg hcount]
  simp only [hcount, false_or]
  split
  · rfl
  · cases replacement with
    | none => rfl
    | some hash =>
        simp only [remove_eq]
        rfl

/-! ## The limits -/

/-- The entries are within the limits. -/
structure Fits (config : MempoolConfig) (held : BTreeMap TransactionHash (MempoolEntry P)) :
    Prop where
  count : held.size ≤ config.maxTransactions
  weight : bytes held ≤ config.maxBytes

/-- The pool keeps its limits. -/
abbrev Within (pool : Mempool P) : Prop := Fits pool.config pool.transactions

/-- The byte counter is right. -/
def Exact (pool : Mempool P) : Prop := pool.totalBytes = pool.weight

instance (pool : Mempool P) : Decidable pool.Exact := inferInstanceAs (Decidable (_ = _))

/-- There is no room for `t` next to the entries `held`. -/
def Full (config : MempoolConfig) (held : BTreeMap TransactionHash (MempoolEntry P))
    (t : P.SignedTransaction) : Prop :=
  config.maxTransactions < held.size + 1 ∨
    config.maxBytes < bytes held + P.transaction.serializedSize t

instance (config : MempoolConfig) (held : BTreeMap TransactionHash (MempoolEntry P))
    (t : P.SignedTransaction) : Decidable (Full config held t) :=
  inferInstanceAs (Decidable (_ ∨ _))

/-- There is room for a new transaction just when the entries with it are
within the limits. -/
theorem not_full_iff_fits {config : MempoolConfig}
    {held : BTreeMap TransactionHash (MempoolEntry P)} (now : UInt64)
    (hfresh : held[P.transaction.hash t]? = none) :
    ¬Full config held t ↔ Fits config (held.insert (P.transaction.hash t) ⟨t, now⟩) := by
  have hbytes := bytes_insert ⟨t, now⟩ hfresh
  have hsize : (held.insert (P.transaction.hash t) ⟨t, now⟩).size = held.size + 1 := by
    rw [Std.ExtTreeMap.size_insert, BTreeMap.contains_eq_isSome, hfresh]
    rfl
  unfold Full
  constructor
  · intro hroom
    exact ⟨by omega, by rw [hbytes]; simp only; omega⟩
  · rintro ⟨hcount, hweight⟩
    rw [hbytes] at hweight
    simp only at hweight
    omega

/-- Fewer entries keep the limits. -/
theorem Within.of_sub (h : pool.Within) (hconfig : pool'.config = pool.config)
    (hsub : ∀ (hash : TransactionHash) entry, pool'.transactions[hash]? = some entry →
      pool.transactions[hash]? = some entry) : pool'.Within := by
  have hcount := BTreeMap.sum_valuesList_le (fun _ => 1) []
    fun hash entry hentry => .inr (hsub hash entry hentry)
  have hbytes := BTreeMap.sum_valuesList_le
    (fun entry => P.transaction.serializedSize entry.transaction) []
    fun hash entry hentry => .inr (hsub hash entry hentry)
  simp only [List.map_nil, List.sum_nil, Nat.zero_add, List.map_const', List.sum_replicate_nat,
    Nat.mul_one, BTreeMap.length_valuesList] at hcount hbytes
  constructor
  · rw [hconfig]
    exact Nat.le_trans hcount h.count
  · rw [hconfig]
    exact Nat.le_trans hbytes h.weight

theorem Within.pruneExpired (h : pool.Within) (now : UInt64) : (pool.pruneExpired now).Within := by
  refine h.of_sub rfl fun hash entry hentry => ?_
  rw [getElem?_pruneExpired, Option.filter_eq_some_iff] at hentry
  exact hentry.1

/-- Within the limits, pruning sets the counter right. -/
theorem Within.exact_pruneExpired (h : pool.Within) (hlimit : pool.config.maxBytes < usizeMax)
    (now : UInt64) : (pool.pruneExpired now).Exact := by
  have hweight : (pool.pruneExpired now).weight ≤ pool.config.maxBytes :=
    (h.pruneExpired now).weight
  rw [Exact, totalBytes_pruneExpired]
  omega

section Insert

variable {pool : Mempool P} {replacement : Option TransactionHash}

/-- What is replaced is there. -/
theorem present_of_replacementCandidate (h : pool.replacementCandidate t = .ok replacement)
    (hash : TransactionHash) (hsome : replacement = some hash) :
    (pool.transactions[hash]?).isSome := by
  rcases replacementCandidate_ok h with ⟨hnone, -⟩ | ⟨r, entry, hr, hentry, -⟩
  · rw [hnone] at hsome
    cases hsome
  · rw [hr] at hsome
    cases hsome
    rw [hentry]
    rfl

/-- Dropping the replaced entry, by count and by bytes. -/
theorem without_add (hpresent : ∀ hash, replacement = some hash →
      (pool.transactions[hash]?).isSome) :
    bytes (without pool.transactions replacement) + pool.replacementSize replacement =
        pool.weight ∧
      (without pool.transactions replacement).size + (if replacement = none then 0 else 1) =
        pool.transactions.size := by
  cases replacement with
  | none => exact ⟨rfl, rfl⟩
  | some hash =>
      obtain ⟨entry, hentry⟩ := Option.isSome_iff_exists.mp (hpresent hash rfl)
      have hbytes : pool.weight = _ := bytes_erase hentry
      simp only [without, replacementSize, Option.bind_some, hentry, reduceCtorEq, if_false]
      exact ⟨by omega, BTreeMap.size_erase_add_one hentry⟩

theorem Exact.sub_replacementSize (hexact : pool.Exact)
    (hpresent : ∀ hash, replacement = some hash → (pool.transactions[hash]?).isSome) :
    pool.totalBytes - pool.replacementSize replacement =
      bytes (without pool.transactions replacement) := by
  have hbytes := (without_add hpresent).1
  rw [Exact] at hexact
  omega

/-- A new transaction with room in the pool is taken. -/
theorem Exact.insertUnchecked_of_room (hexact : pool.Exact)
    (hlimit : pool.config.maxBytes ≤ usizeMax)
    (hpresent : ∀ hash, replacement = some hash → (pool.transactions[hash]?).isSome) (now : UInt64)
    (hfresh : pool.transactions[P.transaction.hash t]? = none)
    (hroom : ¬Full pool.config (without pool.transactions replacement) t) :
    pool.insertUnchecked t now replacement = .ok (P.transaction.hash t, { pool with
      transactions := taken pool.transactions t now replacement
      totalBytes := bytes (taken pool.transactions t now replacement) }) := by
  obtain ⟨-, hsize⟩ := without_add hpresent
  unfold Full at hroom
  have hle : bytes (without pool.transactions replacement) +
      P.transaction.serializedSize t ≤ usizeMax := by omega
  have hcount : ¬(replacement = none ∧
      pool.config.maxTransactions ≤ pool.transactions.size) := by
    rintro ⟨hnone, hmax⟩
    rw [if_pos hnone] at hsize
    omega
  rw [insertUnchecked_eq now replacement hfresh, hexact.sub_replacementSize hpresent,
    Nat.min_eq_left hle, bytes_taken now hfresh, if_neg]
  rintro (h | h)
  · exact hcount h
  · omega

/-- **An insertion keeps the limits exactly**: on a pool whose counter is
right, a new transaction is refused when there is no room for it next to the
entries that stay, and taken with the counter right again otherwise. -/
theorem insertUnchecked_exact (hexact : pool.Exact) (hwithin : pool.Within)
    (hlimit : pool.config.maxBytes < usizeMax)
    (hpresent : ∀ hash, replacement = some hash → (pool.transactions[hash]?).isSome) (now : UInt64)
    (hfresh : pool.transactions[P.transaction.hash t]? = none) :
    pool.insertUnchecked t now replacement =
      if Full pool.config (without pool.transactions replacement) t then .error .mempoolFull
      else .ok (P.transaction.hash t, { pool with
        transactions := taken pool.transactions t now replacement
        totalBytes := bytes (taken pool.transactions t now replacement) }) := by
  split
  · next hfull =>
      obtain ⟨-, hsize⟩ := without_add hpresent
      have hcount := hwithin.count
      rw [insertUnchecked_eq now replacement hfresh, hexact.sub_replacementSize hpresent, if_pos]
      rcases hfull with hfull | hfull
      · -- with a replacement the count does not grow, and it keeps its limit
        split at hsize
        · next hnone => exact .inl ⟨hnone, by omega⟩
        · omega
      · exact .inr (by omega)
  · next hroom =>
      exact hexact.insertUnchecked_of_room (Nat.le_of_lt hlimit) hpresent now hfresh hroom

/-- An insertion that is not refused keeps the limits and the counter. -/
theorem within_of_insertUnchecked (hexact : pool.Exact) (hwithin : pool.Within)
    (hlimit : pool.config.maxBytes < usizeMax)
    (hpresent : ∀ hash, replacement = some hash → (pool.transactions[hash]?).isSome) {now : UInt64}
    (h : pool.insertUnchecked t now replacement = .ok (hash, pool')) :
    pool'.Within ∧ pool'.Exact := by
  have hfresh := (insertUnchecked_ok h).2.fresh
  rw [insertUnchecked_exact hexact hwithin hlimit hpresent now hfresh] at h
  split at h
  · cases h
  next hroom =>
  cases h
  exact ⟨(not_full_iff_fits now (without_eq_none hfresh replacement)).mp hroom, rfl⟩

end Insert

/-! ## Runs -/

/-- All calls that change a pool: those of `Operation`, and `insert_at`. -/
inductive Call (P : Paqus) where
  | insertAt (transaction : P.SignedTransaction) (now : UInt64)
  | operation (operation : Operation P)

/-- The pool after one call. -/
def call (pool : Mempool P) : Call P → Mempool P
  | .insertAt transaction now => (pool.insertAt transaction now).1
  | .operation operation => pool.run operation

/-- The pool after a sequence of calls. -/
def callAll (pool : Mempool P) (calls : List (Call P)) : Mempool P := calls.foldl call pool

theorem callAll_concat (pool : Mempool P) (calls : List (Call P)) (last : Call P) :
    pool.callAll (calls ++ [last]) = (pool.callAll calls).call last := by
  simp [callAll]

/-- `insert_at` leaves the pruned pool, or what `insert_unchecked` makes of
it. -/
theorem insertAt_cases (pool : Mempool P) (t : P.SignedTransaction) (now : UInt64) :
    (pool.insertAt t now).1 = pool.pruneExpired now ∨
      ∃ hash, (pool.pruneExpired now).insertUnchecked t now none =
        .ok (hash, (pool.insertAt t now).1) := by
  unfold insertAt
  simp only
  split
  · exact .inl rfl
  split
  · exact .inl rfl
  split
  · exact .inl rfl
  split
  · exact .inl rfl
  · next hash pool' h => exact .inr ⟨hash, h⟩

/-- So does `insert_validated_at`, with a replacement that is there. -/
theorem insertValidatedAt_unchecked (pool : Mempool P) (ledger : P.Ledger)
    (t : P.SignedTransaction) (now : UInt64) :
    (pool.insertValidatedAt ledger t now).1 = pool.pruneExpired now ∨
      ∃ replacement hash, (pool.pruneExpired now).replacementCandidate t = .ok replacement ∧
        (pool.pruneExpired now).insertUnchecked t now replacement =
          .ok (hash, (pool.insertValidatedAt ledger t now).1) := by
  unfold insertValidatedAt
  simp only
  split
  · exact .inl rfl
  next hash pool' h =>
  obtain ⟨replacement, hreplacement, -, hinsert⟩ := insertPruned_unchecked h
  exact .inr ⟨replacement, hash, hreplacement, hinsert⟩

/-- What one call can do to a pool. -/
inductive Change (pool : Mempool P) : Mempool P → Prop
  | prune (now : UInt64) : Change pool (pool.pruneExpired now)
  | insert {now : UInt64} {t : P.SignedTransaction} {replacement : Option TransactionHash}
      {hash : TransactionHash} {pool' : Mempool P}
      (hpresent : ∀ r, replacement = some r → ((pool.pruneExpired now).transactions[r]?).isSome)
      (hinsert : (pool.pruneExpired now).insertUnchecked t now replacement = .ok (hash, pool')) :
      Change pool pool'
  | remove (hash : TransactionHash) : Change pool (pool.remove hash)
  | confirm (block : P.Block) : Change pool (pool.removeConfirmed block)
  | clear : Change pool pool.clear

/-- Every call is one of the changes. -/
theorem call_change (pool : Mempool P) (c : Call P) : Change pool (pool.call c) := by
  cases c with
  | insertAt t now =>
      rcases insertAt_cases pool t now with h | ⟨hash, h⟩
      · rw [call, h]
        exact .prune now
      · exact .insert (fun r hr => by cases hr) h
  | operation operation =>
      cases operation with
      | insertValidatedAt ledger t now =>
          rcases insertValidatedAt_unchecked pool ledger t now with
            h | ⟨replacement, hash, hreplacement, h⟩
          · rw [call, run, h]
            exact .prune now
          · exact .insert (present_of_replacementCandidate hreplacement) h
      | remove hash => exact .remove hash
      | removeConfirmed block => exact .confirm block
      | pruneExpired now => exact .prune now
      | clear => exact .clear

theorem Change.config (h : Change pool pool') : pool'.config = pool.config := by
  cases h with
  | prune now => rfl
  | insert _ hinsert => exact (insertUnchecked_ok hinsert).2.config
  | remove hash => rw [remove_eq]
  | confirm block => rfl
  | clear => rfl

/-- No call files an entry under another hash. -/
theorem Change.keyed (h : Change pool pool') (hkeyed : pool.Keyed) : pool'.Keyed := by
  intro hash entry hentry
  cases h with
  | prune now =>
      rw [getElem?_pruneExpired, Option.filter_eq_some_iff] at hentry
      exact hkeyed hentry.1
  | insert _ hinsert =>
      rw [(insertUnchecked_ok hinsert).2.lookup] at hentry
      split at hentry
      · next heq =>
          cases hentry
          exact heq
      split at hentry
      · cases hentry
      rw [getElem?_pruneExpired, Option.filter_eq_some_iff] at hentry
      exact hkeyed hentry.1
  | remove removed =>
      rw [getElem?_remove] at hentry
      split at hentry
      · cases hentry
      · exact hkeyed hentry
  | confirm block =>
      rw [getElem?_removeConfirmed] at hentry
      split at hentry
      · cases hentry
      · exact hkeyed hentry
  | clear => simp [Mempool.clear] at hentry

/-- One call keeps the limits. -/
theorem Change.within (h : Change pool pool') (hwithin : pool.Within)
    (hlimit : pool.config.maxBytes < usizeMax) : pool'.Within := by
  cases h with
  | prune now => exact hwithin.pruneExpired now
  | insert hpresent hinsert =>
      exact (within_of_insertUnchecked (hwithin.exact_pruneExpired hlimit _)
        (hwithin.pruneExpired _) hlimit hpresent hinsert).1
  | remove hash =>
      refine hwithin.of_sub (by rw [remove_eq]) fun k entry hentry => ?_
      rw [getElem?_remove] at hentry
      split at hentry
      · cases hentry
      · exact hentry
  | confirm block =>
      refine hwithin.of_sub rfl fun k entry hentry => ?_
      rw [getElem?_removeConfirmed] at hentry
      split at hentry
      · cases hentry
      · exact hentry
  | clear => exact hwithin.of_sub rfl fun k entry hentry => by simp [Mempool.clear] at hentry

theorem callAll_config (config : MempoolConfig) (calls : List (Call P)) :
    ((withConfig config).callAll calls).config = config := by
  induction calls using List.reverseRecOn with
  | nil => rfl
  | append_singleton calls c ih => rw [callAll_concat, (call_change _ c).config, ih]

/-- From an empty pool on, every entry is filed under its hash. -/
theorem keyed_callAll (config : MempoolConfig) (calls : List (Call P)) :
    ((withConfig config).callAll calls).Keyed := by
  induction calls using List.reverseRecOn with
  | nil =>
      intro hash entry hentry
      simp [callAll, withConfig] at hentry
  | append_singleton calls c ih =>
      rw [callAll_concat]
      exact (call_change _ c).keyed ih

/-- **Every run keeps the limits.** -/
theorem within_callAll {config : MempoolConfig} (hlimit : config.maxBytes < usizeMax)
    (calls : List (Call P)) : ((withConfig config).callAll calls).Within := by
  induction calls using List.reverseRecOn with
  | nil => exact ⟨by simp [callAll, withConfig], Nat.zero_le _⟩
  | append_singleton calls c ih =>
      rw [callAll_concat]
      exact (call_change _ c).within ih (by rwa [callAll_config])

/-! ## When the counter is right -/

/-- The block confirms nothing pending, but for entries without bytes. -/
def Spares (pool : Mempool P) (block : P.Block) : Prop :=
  ∀ t ∈ P.block.transactions block, ∀ entry,
    pool.transactions[P.transaction.hash t]? = some entry →
    P.transaction.serializedSize entry.transaction = 0

/-- Removing what a block confirms takes no bytes away just when it spares
the pool. -/
theorem weight_removeConfirmed_iff (pool : Mempool P) (block : P.Block) :
    pool.weight = (pool.removeConfirmed block).weight ↔ pool.Spares block := by
  -- the confirmed entries are those a filter keeps, the others those it drops
  let confirmed (hash : TransactionHash) (_ : MempoolEntry P) : Bool :=
    decide (∃ t ∈ P.block.transactions block, P.transaction.hash t = hash)
  have hkept : (pool.removeConfirmed block).transactions =
      pool.transactions.filter fun hash entry => !confirmed hash entry := by
    refine Std.ExtTreeMap.ext_getElem? fun hash => ?_
    rw [getElem?_removeConfirmed, BTreeMap.getElem?_filter_eq]
    by_cases hc : ∃ t ∈ P.block.transactions block, P.transaction.hash t = hash
    · rw [if_pos hc]
      simp [confirmed, hc]
    · rw [if_neg hc]
      simp only [confirmed, hc, decide_false, Bool.not_false]
      cases pool.transactions[hash]? <;> rfl
  have hsum := BTreeMap.sum_valuesList_filter_add pool.transactions confirmed
    fun entry => P.transaction.serializedSize entry.transaction
  rw [← hkept] at hsum
  have hzero : pool.weight = (pool.removeConfirmed block).weight ↔
      ((BTreeMap.valuesList (pool.transactions.filter confirmed)).map fun entry =>
        P.transaction.serializedSize entry.transaction).sum = 0 := by
    unfold weight bytes
    omega
  rw [hzero, List.sum_eq_zero_iff, List.forall_mem_map]
  constructor
  · intro h t ht entry hentry
    refine h entry (BTreeMap.mem_valuesList.mpr ⟨P.transaction.hash t, ?_⟩)
    rw [BTreeMap.getElem?_filter_eq, Option.filter_eq_some_iff]
    exact ⟨hentry, decide_eq_true ⟨t, ht, rfl⟩⟩
  · intro h entry hentry
    obtain ⟨hash, hhash⟩ := BTreeMap.mem_valuesList.mp hentry
    rw [BTreeMap.getElem?_filter_eq, Option.filter_eq_some_iff] at hhash
    obtain ⟨t, ht, heq⟩ := of_decide_eq_true hhash.2
    exact h t ht entry (heq ▸ hhash.1)

/-- The call confirms nothing pending. -/
def Quiet (pool : Mempool P) : Call P → Prop
  | .operation (.removeConfirmed block) => pool.Spares block
  | _ => True

/-- **One call keeps the counter right, if it confirms nothing pending.** -/
theorem exact_call_iff (hwithin : pool.Within) (hlimit : pool.config.maxBytes < usizeMax)
    (hexact : pool.Exact) (c : Call P) : (pool.call c).Exact ↔ pool.Quiet c := by
  have hinserted : ∀ {now : UInt64} {t : P.SignedTransaction}
      {replacement : Option TransactionHash} {hash : TransactionHash} {pool' : Mempool P},
      (∀ r, replacement = some r → ((pool.pruneExpired now).transactions[r]?).isSome) →
      (pool.pruneExpired now).insertUnchecked t now replacement = .ok (hash, pool') →
      pool'.Exact := fun hpresent hinsert =>
    (within_of_insertUnchecked (hwithin.exact_pruneExpired hlimit _) (hwithin.pruneExpired _)
      hlimit hpresent hinsert).2
  match c with
  | .insertAt t now =>
      refine iff_of_true ?_ trivial
      rcases insertAt_cases pool t now with h | ⟨hash, h⟩
      · rw [call, h]
        exact hwithin.exact_pruneExpired hlimit now
      · exact hinserted (fun r hr => by cases hr) h
  | .operation (.insertValidatedAt ledger t now) =>
      refine iff_of_true ?_ trivial
      rcases insertValidatedAt_unchecked pool ledger t now with
        h | ⟨replacement, hash, hreplacement, h⟩
      · rw [call, run, h]
        exact hwithin.exact_pruneExpired hlimit now
      · exact hinserted (present_of_replacementCandidate hreplacement) h
  | .operation (.remove hash) =>
      refine iff_of_true ?_ trivial
      have hweight := weight_remove pool hash
      rw [Exact] at hexact
      rw [call, run, Exact, remove_eq]
      simp only [remove_eq] at hweight ⊢
      omega
  | .operation (.removeConfirmed block) =>
      rw [Quiet, ← weight_removeConfirmed_iff, ← hexact]
      exact Iff.rfl
  | .operation (.pruneExpired now) =>
      exact iff_of_true (hwithin.exact_pruneExpired hlimit now) trivial
  | .operation .clear => exact iff_of_true rfl trivial

/-- **When the byte counter is right all along**: in the runs in which no
block confirms anything pending. -/
theorem counter_exact_iff {config : MempoolConfig} (hlimit : config.maxBytes < usizeMax)
    (calls : List (Call P)) :
    (∀ before, before <+: calls → ((withConfig config).callAll before).Exact) ↔
      ∀ before block, before ++ [.operation (.removeConfirmed block)] <+: calls →
        ((withConfig config).callAll before).Spares block := by
  have hstep : ∀ (before : List (Call P)) c, ((withConfig config).callAll before).Exact →
      (((withConfig config).callAll (before ++ [c])).Exact ↔
        ((withConfig config).callAll before).Quiet c) := by
    intro before c hexact
    rw [callAll_concat]
    exact exact_call_iff (within_callAll hlimit before) (by rwa [callAll_config]) hexact c
  constructor
  · intro h before block hbefore
    exact (hstep before _ (h before ((List.prefix_append _ _).trans hbefore))).mp
      (h _ hbefore)
  · intro h before
    induction before using List.reverseRecOn with
    | nil => exact fun _ => rfl
    | append_singleton before c ih =>
        intro hbefore
        refine (hstep before c (ih ((List.prefix_append _ _).trans hbefore))).mpr ?_
        match c with
        | .operation (.removeConfirmed block) => exact h before block hbefore
        | .insertAt _ _ | .operation (.insertValidatedAt _ _ _) | .operation (.remove _)
        | .operation (.pruneExpired _) | .operation .clear => trivial

/-! ## When the pool is full -/

/-- The checks of an insertion that look at neither ledger nor limits. -/
structure Passes (pool : Mempool P) (t : P.SignedTransaction) (now : UInt64) : Prop where
  timely : validateTimestampPolicy t now = .ok ()
  signed : P.transaction.validateSignedAt t now = .ok ()
  relayed : (pool.pruneExpired now).validateFeePolicy t = .ok ()
  fresh : (pool.pruneExpired now).transactions[P.transaction.hash t]? = none

/-- **The limits are exact.**  No run ever exceeds them, and an insertion that
passes all other checks finds the pool full exactly if there is no room for
it next to the entries that have neither expired nor are replaced, whatever
the byte counter said before. -/
theorem limits_exact {config : MempoolConfig} (hlimit : config.maxBytes < usizeMax)
    (calls : List (Call P)) {pool : Mempool P} (hpool : (withConfig config).callAll calls = pool) :
    pool.transactions.size ≤ config.maxTransactions ∧ pool.weight ≤ config.maxBytes ∧
      (∀ t now, pool.Passes t now →
        ((pool.insertAt t now).2 = .error .mempoolFull ↔
          Full config (pool.pruneExpired now).transactions t)) ∧
      ∀ ledger t now replacement, pool.Passes t now →
        (pool.pruneExpired now).replacementCandidate t = .ok replacement →
        (pool.pruneExpired now).validateAgainstLedgerExcluding ledger t replacement = .ok () →
        ((pool.insertValidatedAt ledger t now).2 = .error .mempoolFull ↔
          Full config (without (pool.pruneExpired now).transactions replacement) t) := by
  have hwithin := within_callAll hlimit calls
  have hconfig := callAll_config config calls
  rw [hpool] at hwithin hconfig
  subst hconfig
  refine ⟨hwithin.count, hwithin.weight, ?_, ?_⟩
  · intro t now hpass
    have hnone : ∀ hash, (none : Option TransactionHash) = some hash →
        ((pool.pruneExpired now).transactions[hash]?).isSome :=
      fun _ hnone => absurd hnone (by simp)
    have hinsert := insertUnchecked_exact (hwithin.exact_pruneExpired hlimit now)
      (hwithin.pruneExpired now) hlimit hnone now hpass.fresh
    unfold insertAt
    simp only [hpass.timely, hpass.signed, hpass.relayed, hinsert, without, pruneExpired_config]
    by_cases hfull : Full pool.config (pool.pruneExpired now).transactions t
    · simp [hfull]
    · simp [hfull]
  · intro ledger t now replacement hpass hreplacement hvalid
    have hinsert := insertUnchecked_exact (hwithin.exact_pruneExpired hlimit now)
      (hwithin.pruneExpired now) hlimit (present_of_replacementCandidate hreplacement) now
      hpass.fresh
    unfold insertValidatedAt insertPruned
    simp only [hpass.timely, hpass.signed, hpass.relayed, hreplacement, hvalid, hinsert,
      pruneExpired_config]
    by_cases hfull : Full pool.config
        (without (pool.pruneExpired now).transactions replacement) t
    · simp [hfull]
    · simp [hfull]

end Mempool

namespace Reference

/-- A pool for one transaction. -/
def narrowConfig : MempoolConfig := { MempoolConfig.default with maxBytes := 1 }

/-- A payment arrives without a ledger at hand, and a block confirms the given
transactions. -/
def confirmingCalls (confirmed : List Tx) : List (Mempool.Call paqus) :=
  [.insertAt (payment 2 0) 0,
    .operation (.removeConfirmed { genesis with transactions := confirmed })]

/-- The payment has been confirmed, and the byte counter still has it. -/
def stalePool : Mempool paqus :=
  (Mempool.withConfig narrowConfig).callAll (confirmingCalls [payment 2 0])

end Reference

namespace Mempool

/-- A block that confirms nothing pending leaves the counter right. -/
theorem counter_exact_iff_of_unrelated_block :
    ((withConfig Reference.narrowConfig).callAll
      (Reference.confirmingCalls [Reference.payment 2 1])).Exact := by
  have hlimit : Reference.narrowConfig.maxBytes < usizeMax := by decide
  refine (counter_exact_iff (P := Reference.paqus) hlimit
    (Reference.confirmingCalls [Reference.payment 2 1])).mpr ?_ _ (List.prefix_refl _)
  intro before block hbefore
  match before, hbefore with
  | [], h => simp [Reference.confirmingCalls] at h
  | [c], h =>
      simp only [Reference.confirmingCalls, List.cons_append, List.nil_append,
        List.cons_prefix_cons, List.nil_prefix, and_true, Call.operation.injEq,
        Operation.removeConfirmed.injEq] at h
      obtain ⟨rfl, rfl⟩ := h
      intro t ht entry hentry
      rw [List.mem_singleton.mp ht] at hentry
      have hnone : ((withConfig Reference.narrowConfig).callAll
          [.insertAt (Reference.payment 2 0) 0] : Mempool Reference.paqus).transactions[
            (Reference.payment 2 1).hash]? = none := by decide +kernel
      exact absurd (hentry.symm.trans hnone) (by simp)
  | _ :: _ :: _, h =>
      have hlength := h.length_le
      simp [Reference.confirmingCalls] at hlength

/-- A confirmed payment leaves the pool, and not the counter. -/
theorem counter_stale_after_confirmation :
    Reference.narrowConfig.maxBytes < usizeMax ∧ ¬Reference.stalePool.Exact :=
  ⟨by decide, by decide +kernel⟩

/-- The counter says the pool is full, and there is room for a payment. -/
theorem limits_exact_of_stale :
    ¬Reference.stalePool.Exact ∧
      (Reference.stalePool.insertAt (Reference.payment 2 1) 0).2 ≠ .error .mempoolFull := by
  refine ⟨by decide +kernel, fun hfull => ?_⟩
  have hlimit : Reference.narrowConfig.maxBytes < usizeMax := by decide
  have hroom := (limits_exact (P := Reference.paqus) hlimit
    (Reference.confirmingCalls [Reference.payment 2 0]) rfl).2.2.1 (Reference.payment 2 1) 0
    ⟨by decide +kernel, rfl, by decide +kernel, by decide +kernel⟩
  exact absurd (hroom.mp hfull) (by decide +kernel)

end Mempool

end PaqusNode
