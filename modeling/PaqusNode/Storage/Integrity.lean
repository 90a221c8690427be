import PaqusNode.Storage.Roundtrip

/-!
# PaqusNode.Storage.Integrity

What `validate_chain_integrity` accepts, over tables that may hold anything:
records can be missing, undecodable or filed under the wrong height.  The
walk goes down from the tip and knows of each block only the hash its child
names; that it ends well is the same as `Intact`, which speaks of all heights
at once.
-/

namespace PaqusNode

namespace Storage

variable {P : Paqus}

variable {db : Storage P} {tipHash : BlockHash}

/-! ## Records -/

/-- A decodable block is stored under its own height. -/
def StoredAt (db : Storage P) (height : UInt64) (block : P.Block) : Prop :=
  ∃ bytes, db.blocksByHeight[height]? = some bytes ∧
    P.borsh.decode .block bytes = some block ∧ P.block.height block = height

/-- The tip record is complete and decodable. -/
def TipRecord (db : Storage P) (tipHeight : UInt64) (tipHash : BlockHash) : Prop :=
  ∃ heightBytes hashBytes, db.metaTipHeight = some heightBytes ∧
    db.metaTipHash = some hashBytes ∧ P.borsh.decode .height heightBytes = some tipHeight ∧
    P.borsh.decode .hash hashBytes = some tipHash

/-- One of the two parts of the tip record is missing. -/
def NoTip (db : Storage P) : Prop := db.metaTipHeight = none ∨ db.metaTipHash = none

/-- A block is loaded by height if it is stored there. -/
theorem loadBlockByHeight_eq_some {height : UInt64} {block : P.Block} :
    db.loadBlockByHeight height = .ok (some block) ↔ db.StoredAt height block := by
  unfold loadBlockByHeight StoredAt decode
  cases db.blocksByHeight[height]? with
  | none => simp
  | some bytes =>
      simp only [Option.some.injEq, exists_eq_left']
      cases P.borsh.decode .block bytes with
      | none => simp
      | some stored =>
          simp only [Option.some.injEq, ne_eq, ite_not]
          constructor
          · intro h
            split at h
            · next hheight =>
                cases h
                exact ⟨rfl, hheight⟩
            · cases h
          · rintro ⟨rfl, hheight⟩
            rw [if_pos hheight]

/-- The tip is loaded if both of its records are there. -/
theorem loadTip_eq_some {tipHeight : UInt64} :
    db.loadTip = .ok (some (tipHeight, tipHash)) ↔ db.TipRecord tipHeight tipHash := by
  unfold loadTip TipRecord decode
  cases db.metaTipHeight with
  | none => simp
  | some heightBytes =>
      cases db.metaTipHash with
      | none => simp
      | some hashBytes =>
          simp only [Option.some.injEq, exists_and_left, exists_eq_left']
          cases P.borsh.decode .height heightBytes with
          | none => simp
          | some height =>
              cases P.borsh.decode .hash hashBytes with
              | none => simp
              | some hash => simp

/-- There is no tip if one of the records is missing. -/
theorem loadTip_eq_none : db.loadTip = .ok none ↔ db.NoTip := by
  unfold loadTip NoTip
  cases db.metaTipHeight with
  | none => simp
  | some heightBytes =>
      cases db.metaTipHash with
      | none => simp
      | some hashBytes =>
          simp only [reduceCtorEq, or_self, iff_false]
          cases decode (P := P) .height heightBytes with
          | error e => simp
          | ok height =>
              cases decode (P := P) .hash hashBytes with
              | error e => simp
              | ok hash => simp

theorem TipRecord.unique {tipHeight tipHeight' : UInt64} {tipHash' : BlockHash}
    (h : db.TipRecord tipHeight tipHash) (h' : db.TipRecord tipHeight' tipHash') :
    tipHeight = tipHeight' ∧ tipHash = tipHash' := by
  rw [← loadTip_eq_some] at h h'
  exact Prod.mk.inj (Option.some.inj (Except.ok.inj (h.symm.trans h')))

/-- There is one block at a height. -/
theorem StoredAt.unique {height : UInt64} {block block' : P.Block} (h : db.StoredAt height block)
    (h' : db.StoredAt height block') : block = block' := by
  rw [← loadBlockByHeight_eq_some] at h h'
  exact Option.some.inj (Except.ok.inj (h.symm.trans h'))

/-! ## The walk -/

/-- The stored chain up to a height, with a given hash on top. -/
structure Intact (db : Storage P) (tipHeight : UInt64) (tipHash : BlockHash) : Prop where
  stored : ∀ height ≤ tipHeight, ∃ block, db.StoredAt height block
  tip : ∀ {block}, db.StoredAt tipHeight block → P.block.hash block = tipHash
  linked : ∀ {height block previous}, height < tipHeight → db.StoredAt (height + 1) block →
    db.StoredAt height previous → P.block.previousHash block = P.block.hash previous
  genesis : ∀ {block}, db.StoredAt 0 block → P.block.previousHash block = 0

/-- A chain of the genesis block only. -/
theorem intact_zero :
    db.Intact 0 tipHash ↔ ∃ block, db.StoredAt 0 block ∧ P.block.hash block = tipHash ∧
      P.block.previousHash block = 0 := by
  constructor
  · intro h
    obtain ⟨block, hblock⟩ := h.stored 0 (Nat.le_refl _)
    exact ⟨block, hblock, h.tip hblock, h.genesis hblock⟩
  · rintro ⟨block, hblock, hhash, hprevious⟩
    refine ⟨?_, ?_, ?_, ?_⟩
    · intro height hle
      obtain rfl : height = 0 := UInt64.le_zero_iff.mp hle
      exact ⟨block, hblock⟩
    · intro other hother
      rw [hother.unique hblock, hhash]
    · intro height _ _ hlt
      exact absurd hlt (UInt64.not_lt_zero)
    · intro other hother
      rw [hother.unique hblock, hprevious]

/-- One step of the walk. -/
theorem intact_succ {height : UInt64} (hmax : height.toNat + 1 < 2 ^ 64) :
    db.Intact (height + 1) tipHash ↔ ∃ block previous, db.StoredAt (height + 1) block ∧
      P.block.hash block = tipHash ∧ db.StoredAt height previous ∧
      P.block.previousHash block = P.block.hash previous ∧
      db.Intact height (P.block.hash previous) := by
  have hsucc : (height + 1).toNat = height.toNat + 1 := by
    rw [UInt64.toNat_add, UInt64.toNat_one, Nat.mod_eq_of_lt hmax]
  have hlt : height < height + 1 := UInt64.lt_iff_toNat_lt.mpr (by omega)
  constructor
  · intro h
    obtain ⟨block, hblock⟩ := h.stored (height + 1) (Nat.le_refl _)
    obtain ⟨previous, hprevious⟩ := h.stored height (UInt64.le_of_lt hlt)
    refine ⟨block, previous, hblock, h.tip hblock, hprevious, h.linked hlt hblock hprevious, ?_⟩
    refine ⟨?_, ?_, ?_, h.genesis⟩
    · intro k hk
      exact h.stored k (UInt64.le_trans hk (UInt64.le_of_lt hlt))
    · intro other hother
      rw [hother.unique hprevious]
    · intro k _ _ hk
      exact h.linked (UInt64.lt_trans hk hlt)
  · rintro ⟨block, previous, hblock, hhash, hprevious, hlink, hrest⟩
    refine ⟨?_, ?_, ?_, hrest.genesis⟩
    · intro k hk
      by_cases heq : k = height + 1
      · exact ⟨block, heq ▸ hblock⟩
      · refine hrest.stored k (UInt64.le_iff_toNat_le.mpr ?_)
        rw [UInt64.le_iff_toNat_le] at hk
        rw [← UInt64.toNat_inj] at heq
        omega
    · intro other hother
      rw [hother.unique hblock, hhash]
    · intro k b p hk hb hp
      by_cases heq : k = height
      · subst heq
        rw [hb.unique hblock, hp.unique hprevious, hlink]
      · refine hrest.linked (UInt64.lt_iff_toNat_lt.mpr ?_) hb hp
        rw [UInt64.lt_iff_toNat_lt] at hk
        rw [← UInt64.toNat_inj] at heq
        omega

/-- The walk succeeds at a height exactly if its block has the expected hash
and what comes next succeeds. -/
theorem checkChain_zero {expectedHash : BlockHash} :
    db.checkChain 0 expectedHash = .ok () ↔ ∃ block, db.StoredAt 0 block ∧
      P.block.hash block = expectedHash ∧ P.block.previousHash block = 0 := by
  simp only [← loadBlockByHeight_eq_some]
  unfold checkChain
  cases db.loadBlockByHeight 0 with
  | error e => simp
  | ok found =>
      cases found with
      | none => simp
      | some block =>
          simp only [Except.ok.injEq, Option.some.injEq, exists_eq_left']
          constructor
          · intro h
            split at h
            · cases h
            next hhash =>
            split at h
            · cases h
            next hprevious =>
            exact ⟨Decidable.not_not.mp hhash, Decidable.not_not.mp hprevious⟩
          · rintro ⟨hhash, hprevious⟩
            rw [if_neg (not_not_intro hhash), if_neg (not_not_intro hprevious)]

/-- One step down the chain. -/
theorem checkChain_succ {n : Nat} {expectedHash : BlockHash} :
    db.checkChain (n + 1) expectedHash = .ok () ↔ ∃ block previous,
      db.StoredAt (UInt64.ofNat (n + 1)) block ∧ P.block.hash block = expectedHash ∧
      db.StoredAt (UInt64.ofNat n) previous ∧
      P.block.previousHash block = P.block.hash previous ∧
      db.checkChain n (P.block.hash previous) = .ok () := by
  simp only [← loadBlockByHeight_eq_some]
  rw [checkChain]
  cases db.loadBlockByHeight (UInt64.ofNat (n + 1)) with
  | error e => simp
  | ok found =>
      cases found with
      | none => simp
      | some block =>
          simp only [Except.ok.injEq, Option.some.injEq, exists_and_left, exists_eq_left']
          by_cases hhash : P.block.hash block = expectedHash
          · rw [if_neg (not_not_intro hhash)]
            cases db.loadBlockByHeight (UInt64.ofNat n) with
            | error e => simp
            | ok found =>
                cases found with
                | none => simp
                | some previous =>
                    by_cases hprevious : P.block.previousHash block = P.block.hash previous
                    · simp [hhash, hprevious]
                    · simp [hprevious]
          · simp [hhash]

/-- **The walk down from a height succeeds exactly over an intact chain.** -/
theorem checkChain_iff (db : Storage P) {n : Nat} (hn : n < 2 ^ 64) (tipHash : BlockHash) :
    db.checkChain n tipHash = .ok () ↔ db.Intact (UInt64.ofNat n) tipHash := by
  induction n generalizing tipHash with
  | zero => exact checkChain_zero.trans intact_zero.symm
  | succ n ih =>
      have hkey : UInt64.ofNat (n + 1) = UInt64.ofNat n + 1 := by
        rw [UInt64.ofNat_add]
        rfl
      have hmax : (UInt64.ofNat n).toNat + 1 < 2 ^ 64 := by
        rw [UInt64.toNat_ofNat_of_lt' (by exact Nat.lt_of_succ_lt hn)]
        exact hn
      rw [checkChain_succ, hkey, intact_succ hmax]
      simp only [ih (Nat.lt_of_succ_lt hn)]

/-- **The check passes exactly on an intact chain, or without a tip.** -/
theorem validateChainIntegrity_eq_ok :
    db.validateChainIntegrity = .ok () ↔
      db.NoTip ∨ ∃ tipHeight tipHash, db.TipRecord tipHeight tipHash ∧
        db.Intact tipHeight tipHash := by
  simp only [← loadTip_eq_none, ← loadTip_eq_some]
  unfold validateChainIntegrity
  cases db.loadTip with
  | error e => simp
  | ok found =>
      cases found with
      | none => simp
      | some tip =>
          obtain ⟨tipHeight, tipHash⟩ := tip
          have hwalk := checkChain_iff db tipHeight.toNat_lt tipHash
          rw [UInt64.ofNat_toNat] at hwalk
          simp only [Except.ok.injEq, Option.some.injEq, Prod.mk.injEq, reduceCtorEq, false_or]
          constructor
          · intro h
            refine ⟨tipHeight, tipHash, ⟨rfl, rfl⟩, hwalk.mp ?_⟩
            split at h
            · cases h
            · cases h
            · split at h
              · cases h
              · exact h
          · rintro ⟨_, _, ⟨rfl, rfl⟩, hintact⟩
            obtain ⟨block, hblock⟩ := hintact.stored tipHeight (Nat.le_refl _)
            rw [loadBlockByHeight_eq_some.mpr hblock]
            dsimp only
            rw [if_neg (not_not_intro (hintact.tip hblock)), hwalk]
            exact hintact

/-! ## Loading -/

/-- One height more of the chain is loaded. -/
theorem loadChainBlock_ok (hchain : ChainLaws P) {chain chain' : Chain P.Block} {height : Nat}
    (h : db.loadChainBlock chain height = .ok chain') :
    ∃ block, db.StoredAt (UInt64.ofNat height) block ∧
      chain'.blocks = chain.blocks.insert (UInt64.ofNat height) block := by
  unfold loadChainBlock at h
  split at h
  · cases h
  · cases h
  next block hload =>
  have hblock := loadBlockByHeight_eq_some.mp hload
  split at h
  · cases h
  next hinsert =>
  cases h
  refine ⟨block, hblock, ?_⟩
  obtain ⟨_, _, _, hheight⟩ := hblock
  rw [hchain.insert_blocks hinsert, hheight]

/-- The chain scan collects the blocks of the heights it has passed. -/
theorem loadChain_lookup (hchain : ChainLaws P) {n : Nat} (hn : n ≤ 2 ^ 64) {chain : Chain P.Block}
    (h : (List.range n).foldlM db.loadChainBlock (Chain.new P.Block) = .ok chain) (height : UInt64)
    (block : P.Block) :
    chain.blocks[height]? = some block ↔ height.toNat < n ∧ db.StoredAt height block := by
  induction n generalizing chain with
  | zero =>
      cases h
      simp [Chain.new]
  | succ n ih =>
      rw [List.range_succ] at h
      obtain ⟨before, hbefore, hlast⟩ := foldlM_concat_eq_ok.mp h
      obtain ⟨top, htop, hblocks⟩ := loadChainBlock_ok hchain hlast
      have hkey : (UInt64.ofNat n).toNat = n := UInt64.toNat_ofNat_of_lt' hn
      rw [hblocks, BTreeMap.getElem?_insert_eq]
      split
      · next heq =>
          subst heq
          rw [hkey, Option.some.injEq]
          constructor
          · rintro rfl
            exact ⟨Nat.lt_succ_self n, htop⟩
          · rintro ⟨-, hblock⟩
            exact htop.unique hblock
      · next hne =>
          have hne' : height.toNat ≠ n := by
            rintro rfl
            exact hne UInt64.ofNat_toNat
          rw [ih (Nat.le_of_succ_le hn) hbefore]
          exact and_congr_left fun _ => by omega

/-- Opening a store changes nothing but its version. -/
theorem ensureStorageVersion_frame (env : Env) (io : Nat) (db : Storage P) :
    ∃ version, (db.ensureStorageVersion env io).1 = { db with metaStorageVersion := version } := by
  unfold ensureStorageVersion commit
  split
  · exact ⟨_, rfl⟩
  · split
    · exact ⟨_, rfl⟩
    · exact ⟨_, rfl⟩
  · split
    · cases env.commitFault io with
      | some code => exact ⟨_, rfl⟩
      | none => exact ⟨_, rfl⟩
    · exact ⟨_, rfl⟩

/-- The chain that is read consists of the stored blocks up to the tip. -/
theorem readLedger_chain (hchain : ChainLaws P) {ledger : P.Ledger}
    (h : db.readLedger = .ok ledger) :
    db.NoTip ∧ ledger.chain = Chain.new P.Block ∨
      ∃ tipHeight tipHash, db.TipRecord tipHeight tipHash ∧
        ∀ (height : UInt64) block, ledger.chain.blocks[height]? = some block ↔
          height ≤ tipHeight ∧ db.StoredAt height block := by
  unfold readLedger at h
  split at h
  · cases h
  split at h
  · cases h
  · next htip =>
      cases h
      exact .inl ⟨loadTip_eq_none.mp htip, rfl⟩
  · next tipHeight tipHash htip =>
      split at h
      · cases h
      next chain hscan =>
      cases h
      refine .inr ⟨tipHeight, tipHash, loadTip_eq_some.mp htip, fun height block => ?_⟩
      rw [loadChain_lookup hchain tipHeight.toNat_lt hscan, Nat.lt_succ_iff,
        UInt64.le_iff_toNat_le]

/-- **The integrity check is sound and complete**, whatever the tables hold:
it passes exactly if no complete tip record is stored or the chain below it is
intact; and the chain of a ledger that is then loaded is that chain. -/
theorem validateChainIntegrity_iff (hchain : ChainLaws P) (db : Storage P) :
    (db.validateChainIntegrity = .ok () ↔
      db.NoTip ∨ ∃ tipHeight tipHash, db.TipRecord tipHeight tipHash ∧
        db.Intact tipHeight tipHash) ∧
      ∀ env io ledger, (db.loadLedger env io).2 = .ok ledger →
        db.NoTip ∧ ledger.chain = Chain.new P.Block ∨
          ∃ tipHeight tipHash, db.TipRecord tipHeight tipHash ∧ db.Intact tipHeight tipHash ∧
            ∀ (height : UInt64) block, ledger.chain.blocks[height]? = some block ↔
              height ≤ tipHeight ∧ db.StoredAt height block := by
  refine ⟨validateChainIntegrity_eq_ok, ?_⟩
  intro env io ledger h
  obtain ⟨version, hversion⟩ := ensureStorageVersion_frame env io db
  unfold loadLedger at h
  rcases hensure : db.ensureStorageVersion env io with ⟨stamped, result⟩
  rw [hensure] at h hversion
  -- the version is not part of what the check and the scan read
  subst hversion
  cases result with
  | error e => cases h
  | ok _ =>
      dsimp only at h
      split at h
      · cases h
      next hvalid =>
      rcases readLedger_chain hchain h with hnone | ⟨tipHeight, tipHash, htip, hlookup⟩
      · exact .inl hnone
      · rcases validateChainIntegrity_eq_ok.mp hvalid with hnone | ⟨_, _, htip', hintact⟩
        · rw [← loadTip_eq_none, loadTip_eq_some.mpr htip] at hnone
          cases hnone
        · obtain ⟨rfl, rfl⟩ := htip.unique htip'
          obtain ⟨hstored, hhash, hlinked, hgenesis⟩ := hintact
          exact .inr ⟨tipHeight, tipHash, htip, ⟨hstored, hhash, hlinked, hgenesis⟩, hlookup⟩

end Storage

/-- The database of the taller ledger passes, and its chain has both blocks. -/
theorem Storage.validateChainIntegrity_iff_of_used :
    Reference.usedStorage.validateChainIntegrity = .ok () ∧
      ∃ tipHash, Reference.usedStorage.TipRecord 1 tipHash ∧
        Reference.usedStorage.Intact 1 tipHash := by
  have hvalid : Reference.usedStorage.validateChainIntegrity = .ok () := by decide +kernel
  have hheight : Reference.usedStorage.metaTipHeight.bind
      (Reference.paqus.borsh.decode .height) = some 1 := by decide +kernel
  have hhash : Reference.usedStorage.metaTipHash ≠ none := by decide +kernel
  refine ⟨hvalid, ?_⟩
  rcases (validateChainIntegrity_iff Reference.chainLaws Reference.usedStorage).1.mp hvalid with
    (hnone | hnone) | ⟨tipHeight, tipHash, htip, hintact⟩
  · rw [hnone] at hheight
    cases hheight
  · exact absurd hnone hhash
  · obtain ⟨heightBytes, hashBytes, hstored, -, hdecode, -⟩ := id htip
    rw [hstored, Option.bind_some, hdecode, Option.some.injEq] at hheight
    subst hheight
    exact ⟨tipHash, htip, hintact⟩

end PaqusNode
