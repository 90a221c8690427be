import PaqusNode.Config
import PaqusNode.Mempool.Admission
import PaqusNode.Paqus.Reference

/-!
# PaqusNode.Config.Accepted

What holds of every configuration that `parse_run_config` accepts, proved from
what one option keeps; what it means for the pool of the node that is started
with it; and that the file which `node config` writes changes nothing.
-/

namespace PaqusNode

namespace Config

variable {A : Type} {n : Nat} {host : Host A n}

/-! ## The loop keeps what its arms keep -/

/-- The words change no more than the path and the switch. -/
theorem word_eq_ok {s s' : Parsing A n} {arg : String} (h : s.word arg = .ok s') :
    ∃ dbPath mine, s' = { s with config.dbPath := dbPath, config.mine := mine } := by
  unfold Parsing.word at h
  split at h
  · cases h
  split at h
  · cases h
    exact ⟨s.config.dbPath, true, rfl⟩
  split at h
  · cases h
    exact ⟨arg, s.config.mine, rfl⟩
  · cases h

/-- A wallet sets the miner's address and key, and both from one key. -/
theorem applyWalletFile_eq_ok {config config' : RunConfig A n} {path : Option String}
    (h : applyWalletFile host config path = .ok config') :
    ∃ key, config' =
      { config with minerAddress := host.addressOf key, minerSecretKey := some key } := by
  obtain ⟨path, -, h⟩ := Except.bind_eq_ok.mp h
  obtain ⟨wallet, hwallet, h⟩ := Except.bind_eq_ok.mp h
  cases h
  obtain ⟨contents, -, hwallet⟩ := Except.bind_eq_ok.mp hwallet
  obtain ⟨file, -, hwallet⟩ := Except.bind_eq_ok.mp hwallet
  obtain ⟨address, -, hwallet⟩ := Except.bind_eq_ok.mp hwallet
  obtain ⟨key, -, hwallet⟩ := Except.bind_eq_ok.mp hwallet
  simp only at hwallet
  split at hwallet
  · cases hwallet
  · cases hwallet
    exact ⟨key, rfl⟩

/-! ## Bounds -/

/-- The `max` of machine integers. -/
theorem right_le_max {α : Type} [LE α] [DecidableLE α] [Std.IsLinearPreorder α] (a b : α) :
    b ≤ maxOfLe.max a b := by
  unfold maxOfLe
  dsimp only
  split
  · exact Std.le_refl b
  · next h => exact Std.le_of_not_ge h

/-- The bounds that the default, the file and every option respect. -/
structure RunConfig.Bounded (config : RunConfig A n) : Prop where
  gatewayHeartbeat : 1 ≤ config.gatewayHeartbeat
  maxPeers : 1 ≤ config.maxPeers
  lowFeeExpiry : 1 ≤ config.lowFeeExpiry
  mempoolExpiry : 1 ≤ config.mempoolExpiry

theorem default_bounded (host : Host A n) : (RunConfig.default host).Bounded where
  gatewayHeartbeat := show 1 ≤ defaultGatewayHeartbeat by decide
  maxPeers := show 1 ≤ defaultMaxPeers by decide
  lowFeeExpiry := show 1 ≤ lowFeeExpirySecs by decide
  mempoolExpiry := show 1 ≤ mempoolExpirySecs by decide

/-- Every option keeps the bounds. -/
theorem set_bounded {s s' : Parsing A n} {value : Option String} {option : RunOption}
    (h : s.set host value option = .ok s') (hs : s.config.Bounded) : s'.config.Bounded := by
  cases option <;> obtain ⟨x, hx, h⟩ := Except.bind_eq_ok.mp h <;> cases h
  case wallet =>
    obtain ⟨key, rfl⟩ := applyWalletFile_eq_ok hx
    exact { hs with }
  case gatewayHeartbeatSecs => exact { hs with gatewayHeartbeat := right_le_max _ _ }
  case maxPeers => exact { hs with maxPeers := Nat.le_max_right _ _ }
  case lowFeeExpirySecs => exact { hs with lowFeeExpiry := right_le_max _ _ }
  case mempoolExpirySecs => exact { hs with mempoolExpiry := right_le_max _ _ }
  all_goals exact { hs with }

/-- The fields of the file keep the bounds. -/
theorem applyFields_bounded {config config' : RunConfig A n} {file : RunConfigFile}
    (h : applyFields host config file = .ok config') (hs : config.Bounded) : config'.Bounded := by
  obtain ⟨listenAddrs, -, h⟩ := Except.bind_eq_ok.mp h
  obtain ⟨rpcAddr, -, h⟩ := Except.bind_eq_ok.mp h
  obtain ⟨peers, -, h⟩ := Except.bind_eq_ok.mp h
  obtain ⟨publicAddrs, -, h⟩ := Except.bind_eq_ok.mp h
  cases h
  refine ⟨right_le_max _ _, Nat.le_max_right _ _, ?_, ?_⟩
  · cases file.lowFeeExpirySecs with
    | none => exact hs.lowFeeExpiry
    | some secs => exact right_le_max secs 1
  · cases file.mempoolExpirySecs with
    | none => exact hs.mempoolExpiry
    | some secs => exact right_le_max secs 1

/-- Without a wallet in the file nothing is set. -/
theorem applyWallet_eq_ok {config config' : RunConfig A n} {path : Option String}
    (h : applyWallet host config path = .ok config') : config' = config ∨
      ∃ key, config' =
        { config with minerAddress := host.addressOf key, minerSecretKey := some key } := by
  cases path with
  | none =>
      cases h
      exact .inl rfl
  | some path => exact .inr (applyWalletFile_eq_ok h)

/-- The miner's address alone is set. -/
theorem applyMinerAddress_eq_ok {config config' : RunConfig A n} {address : Option String}
    (h : applyMinerAddress config address = .ok config') :
    ∃ minerAddress, config' = { config with minerAddress := minerAddress } := by
  cases address with
  | none =>
      cases h
      exact ⟨_, rfl⟩
  | some address =>
      obtain ⟨minerAddress, -, h⟩ := Except.bind_eq_ok.mp h
      cases h
      exact ⟨minerAddress, rfl⟩

/-- The miner's key alone is set. -/
theorem applyMinerSecretKey_eq_ok {config config' : RunConfig A n} {key : Option String}
    (h : applyMinerSecretKey config key = .ok config') :
    ∃ minerSecretKey, config' = { config with minerSecretKey := minerSecretKey } := by
  cases key with
  | none =>
      cases h
      exact ⟨_, rfl⟩
  | some key =>
      obtain ⟨minerSecretKey, -, h⟩ := Except.bind_eq_ok.mp h
      cases h
      exact ⟨some minerSecretKey, rfl⟩

/-- The whole file keeps the bounds. -/
theorem applyRunConfigFile_bounded {config config' : RunConfig A n} {file : RunConfigFile}
    (h : applyRunConfigFile host config file = .ok config') (hs : config.Bounded) :
    config'.Bounded := by
  obtain ⟨copied, hcopied, h⟩ := Except.bind_eq_ok.mp h
  obtain ⟨identified, hidentified, h⟩ := Except.bind_eq_ok.mp h
  obtain ⟨addressed, haddressed, h⟩ := Except.bind_eq_ok.mp h
  have hbounded := applyFields_bounded hcopied hs
  obtain ⟨address, rfl⟩ := applyMinerAddress_eq_ok haddressed
  obtain ⟨key, rfl⟩ := applyMinerSecretKey_eq_ok h
  rcases applyWallet_eq_ok hidentified with rfl | ⟨key, rfl⟩ <;> exact { hbounded with }

/-- The options start within the bounds. -/
theorem startConfig_bounded {args : List String} {config : RunConfig A n}
    (h : startConfig host args = .ok config) : config.Bounded := by
  obtain ⟨file, -, h⟩ := Except.bind_eq_ok.mp h
  cases file with
  | none =>
      cases h
      exact default_bounded host
  | some file => exact applyRunConfigFile_bounded h (default_bounded host)

theorem runOptions_bounded {args : List String} {s s' : Parsing A n}
    (h : (runOptions host).read s args = .ok s') (hs : s.config.Bounded) : s'.config.Bounded := by
  refine (Options.reads_of_read h).invariant (fun s => s.config.Bounded) ?_ ?_ hs
  · exact fun _ _ _ _ _ _ _ hs hset => set_bounded hset hs
  · intro _ _ _ _ hs hword
    obtain ⟨dbPath, mine, rfl⟩ := word_eq_ok hword
    exact { hs with }

/-! ## Accepted configurations -/

/-- What a node is never started without. -/
structure RunConfig.Normalized (config : RunConfig A n) : Prop extends config.Bounded where
  minRelayFee : minRelayFeeFloor ≤ config.minRelayFee
  marketFee : config.minRelayFee ≤ config.marketFee
  expiries : config.lowFeeExpiry ≤ config.mempoolExpiry
  listenAddrs : config.listenAddrs.Nodup
  publicAddrs : config.publicAddrs.Nodup

/-- The last step brings fees and expiries into their order. -/
theorem RunConfig.Bounded.finish [DecidableEq A] {config : RunConfig A n} (h : config.Bounded) :
    config.finish.Normalized where
  gatewayHeartbeat := h.gatewayHeartbeat
  maxPeers := h.maxPeers
  lowFeeExpiry := by
    simp only [RunConfig.finish, normalizeMempoolPolicy]
    split
    · exact h.mempoolExpiry
    · exact h.lowFeeExpiry
  mempoolExpiry := h.mempoolExpiry
  minRelayFee := right_le_max _ _
  marketFee := right_le_max _ _
  expiries := by
    simp only [RunConfig.finish, normalizeMempoolPolicy]
    split
    · exact UInt64.le_refl _
    · next h => exact UInt64.not_lt.mp h
  listenAddrs := Retain.nodup_firsts _
  publicAddrs := Retain.nodup_firsts _

theorem parseRunConfig_eq_ok [DecidableEq A] {args : List String} {config : RunConfig A n} :
    parseRunConfig host args = .ok config ↔
      ∃ start s, startConfig host (args.map trimArg) = .ok start ∧
        (runOptions host).read ⟨start, false, false⟩ (args.map trimArg) = .ok s ∧
        s.config.finish = config := by
  simp only [parseRunConfig, Except.bind_eq_ok, Except.ok.injEq]
  grind

theorem parseRunConfig_normalized [DecidableEq A] {args : List String} {config : RunConfig A n}
    (h : parseRunConfig host args = .ok config) : config.Normalized := by
  obtain ⟨start, s, hstart, hs, rfl⟩ := parseRunConfig_eq_ok.mp h
  exact (runOptions_bounded hs (startConfig_bounded hstart)).finish

/-! ## The pool -/

variable {P : Paqus}

/-- A higher fee does not shorten the time to live. -/
theorem ttl_le_ttl {config : MempoolConfig}
    (hexpiries : config.lowFeeTtlSecs ≤ config.transactionTtlSecs) {entry entry' : MempoolEntry P}
    (hfee : P.transaction.fee entry.transaction ≤ P.transaction.fee entry'.transaction) :
    Mempool.ttl config entry ≤ Mempool.ttl config entry' := by
  unfold Mempool.ttl
  by_cases hlow : P.transaction.fee entry'.transaction < config.marketFee
  · rw [if_pos hlow, if_pos (UInt32.lt_of_le_of_lt hfee hlow)]
    exact UInt64.le_refl _
  · rw [if_neg hlow]
    split
    · exact hexpiries
    · exact UInt64.le_refl _

/-- Who pays no less and came no earlier is not dropped before. -/
theorem RunConfig.Normalized.retained {config : RunConfig A n} (h : config.Normalized)
    {now : UInt64} {entry entry' : MempoolEntry P}
    (hfee : P.transaction.fee entry.transaction ≤ P.transaction.fee entry'.transaction)
    (hage : entry.insertedAt ≤ entry'.insertedAt)
    (hkept : Mempool.retained config.mempoolConfig now entry) :
    Mempool.retained config.mempoolConfig now entry' := by
  simp only [Mempool.retained, decide_eq_true_eq, UInt64.le_iff_toNat_le] at hkept ⊢
  calc
    (satSub now entry'.insertedAt).toNat ≤ (satSub now entry.insertedAt).toNat :=
      toNat_satSub_le now hage
    _ ≤ (Mempool.ttl config.mempoolConfig entry).toNat := hkept
    _ ≤ (Mempool.ttl config.mempoolConfig entry').toNat :=
      UInt64.le_iff_toNat_le.mp (ttl_le_ttl h.expiries hfee)

/-- **Whoever pays more is kept longer.**  Whatever the config file and the
command line say, a node that they are accepted for is started with normalised
settings; and its pool never drops a transaction for its age while it keeps
one that pays no more and has not come later. -/
theorem accepted_config_keeps_dearer [DecidableEq A] {args : List String} {config : RunConfig A n}
    (h : parseRunConfig host args = .ok config) :
    config.Normalized ∧ ∀ (pool : Mempool P) (now : UInt64), pool.config = config.mempoolConfig →
      ∀ (hash hash' : TransactionHash) (entry entry' : MempoolEntry P),
        (pool.pruneExpired now).transactions[hash]? = some entry →
        pool.transactions[hash']? = some entry' →
        P.transaction.fee entry.transaction ≤ P.transaction.fee entry'.transaction →
        entry.insertedAt ≤ entry'.insertedAt →
        (pool.pruneExpired now).transactions[hash']? = some entry' := by
  have hnormalized := parseRunConfig_normalized h
  refine ⟨hnormalized, fun pool now hconfig hash hash' entry entry' hkept hentry hfee hage => ?_⟩
  rw [Mempool.getElem?_pruneExpired, hconfig, Option.filter_eq_some_iff] at hkept
  rw [Mempool.getElem?_pruneExpired, hconfig, hentry, Option.filter_some]
  exact if_pos (hnormalized.retained hfee hage hkept.2)

end Config

namespace Reference

/-- A market fee below the relay fee, and a low-fee expiry above the other. -/
def marketArgs : List String :=
  ["--market-fee", "3", " --min-relay-fee", "5", "--low-fee-expiry-secs", "600",
    "--mempool-expiry-secs", "60"]

/-- A pool of two transactions, the second dearer and younger. -/
def marketPool (config : MempoolConfig) : Mempool paqus :=
  ⟨((∅ : BTreeMap TransactionHash (MempoolEntry paqus)).insert 1 ⟨payment 4 0, 10⟩).insert 2
    ⟨returnPayment 6 0, 20⟩, config, 0⟩

end Reference

namespace Config

/-- The fee is raised to the relay fee and the expiry lowered to the other. -/
theorem accepted_config_keeps_dearer_of_market :
    ∃ config, parseRunConfig Reference.host Reference.marketArgs = .ok config ∧
      config.marketFee = 5 ∧ config.lowFeeExpiry = 60 ∧ config.Normalized ∧
      (((Reference.marketPool config.mempoolConfig).pruneExpired 70).transactions[
        (2 : TransactionHash)]?).isSome := by
  have haccepted : ((parseRunConfig Reference.host Reference.marketArgs).toOption.map fun config =>
      (config.marketFee, config.lowFeeExpiry)) = some (5, 60) := by decide +kernel
  have hkept : ((parseRunConfig Reference.host Reference.marketArgs).toOption.bind fun config =>
      (((Reference.marketPool config.mempoolConfig).pruneExpired 70).transactions[
        (1 : TransactionHash)]?).map fun entry => (entry.insertedAt,
          entry.transaction.fee)) = some (10, 4) := by decide +kernel
  obtain ⟨config, hconfig, hfields⟩ := Option.map_eq_some_iff.mp haccepted
  rw [hconfig, Option.bind_some] at hkept
  obtain ⟨entry, hentry, hage⟩ := Option.map_eq_some_iff.mp hkept
  simp only [Prod.mk.injEq] at hfields hage
  have hparse := Except.eq_ok_of_toOption hconfig
  obtain ⟨hnormalized, hdearer⟩ := accepted_config_keeps_dearer (P := Reference.paqus) hparse
  refine ⟨config, hparse, hfields.1, hfields.2, hnormalized, ?_⟩
  rw [hdearer (Reference.marketPool config.mempoolConfig) 70 rfl 1 2 entry
    ⟨Reference.returnPayment 6 0, 20⟩ hentry ?_ ?_ ?_]
  · rfl
  · simp [Reference.marketPool]
  · show entry.transaction.fee ≤ 6
    rw [hage.2]
    decide
  · rw [hage.1]
    decide

/-! ## Who mines -/

/-- A key that is there is the key of the miner's address. -/
def RunConfig.Matched (host : Host A n) (config : RunConfig A n) : Prop :=
  ∀ key, config.minerSecretKey = some key → host.addressOf key = config.minerAddress

/-- Options other than the miner's own leave key and address a pair. -/
theorem set_matched {s s' : Parsing A n} {value : Option String} {option : RunOption}
    (hminer : option ≠ .miner) (hkey : option ≠ .minerSecretKey)
    (h : s.set host value option = .ok s') (hs : s.config.Matched host) :
    s'.config.Matched host := by
  cases option <;> obtain ⟨x, hx, h⟩ := Except.bind_eq_ok.mp h <;> cases h
  case wallet =>
    obtain ⟨key, rfl⟩ := applyWalletFile_eq_ok hx
    exact fun key' hkey' => congrArg host.addressOf (Option.some.inj hkey').symm
  case miner => exact absurd rfl hminer
  case minerSecretKey => exact absurd rfl hkey
  all_goals exact hs

theorem ofName_eq_miner {arg : String} (h : RunOption.ofName arg = some .miner) :
    arg = "--miner" := by
  unfold RunOption.ofName at h
  split at h <;> simp_all

theorem ofName_eq_minerSecretKey {arg : String}
    (h : RunOption.ofName arg = some .minerSecretKey) : arg = "--miner-secret-key" := by
  unfold RunOption.ofName at h
  split at h <;> simp_all

/-- A file that names its miner by a wallet alone, or not at all. -/
def RunConfigFile.ByWallet (file : RunConfigFile) : Prop :=
  file.minerAddress = none ∧ file.minerSecretKey = none

/-- The plain fields of the file do not name the miner. -/
theorem applyFields_miner {config config' : RunConfig A n} {file : RunConfigFile}
    (h : applyFields host config file = .ok config') :
    config'.minerAddress = config.minerAddress ∧
      config'.minerSecretKey = config.minerSecretKey := by
  obtain ⟨listenAddrs, -, h⟩ := Except.bind_eq_ok.mp h
  obtain ⟨rpcAddr, -, h⟩ := Except.bind_eq_ok.mp h
  obtain ⟨peers, -, h⟩ := Except.bind_eq_ok.mp h
  obtain ⟨publicAddrs, -, h⟩ := Except.bind_eq_ok.mp h
  cases h
  exact ⟨rfl, rfl⟩

/-- A file that names the miner by a wallet only leaves key and address a pair. -/
theorem applyRunConfigFile_matched {config config' : RunConfig A n} {file : RunConfigFile}
    (hfile : file.ByWallet) (h : applyRunConfigFile host config file = .ok config')
    (hs : config.Matched host) : config'.Matched host := by
  obtain ⟨copied, hcopied, h⟩ := Except.bind_eq_ok.mp h
  obtain ⟨identified, hidentified, h⟩ := Except.bind_eq_ok.mp h
  obtain ⟨addressed, haddressed, h⟩ := Except.bind_eq_ok.mp h
  rw [hfile.1] at haddressed
  rw [hfile.2] at h
  cases haddressed
  cases h
  obtain ⟨haddress, hkey⟩ := applyFields_miner hcopied
  rcases applyWallet_eq_ok hidentified with rfl | ⟨key, rfl⟩
  · intro key' hkey'
    rw [haddress]
    exact hs key' (hkey ▸ hkey')
  · exact fun key' hkey' => congrArg host.addressOf (Option.some.inj hkey').symm

/-- So does the configuration that the options start from. -/
theorem startConfig_matched {args : List String} {config : RunConfig A n}
    (hfile : ∀ file, loadRunConfigFileIfExists host
      ((configPathArg args).getD defaultConfigFile) = .ok (some file) → file.ByWallet)
    (h : startConfig host args = .ok config) : config.Matched host := by
  have hdefault : (RunConfig.default host).Matched host := fun key hkey => nomatch hkey
  obtain ⟨file, hload, h⟩ := Except.bind_eq_ok.mp h
  cases file with
  | none =>
      cases h
      exact hdefault
  | some file => exact applyRunConfigFile_matched (hfile file hload) h hdefault

theorem RunConfig.Matched.checkMiner {config : RunConfig A n} (h : config.Matched host)
    (hkey : config.minerSecretKey.isSome) : checkMiner host config = .ok () := by
  obtain ⟨key, hkey⟩ := Option.isSome_iff_exists.mp hkey
  simp [Config.checkMiner, hkey, h key hkey]

/-- **A miner named by a wallet is never turned down.**  If neither the file
nor the command line names the miner's address or key in parts, then the
start-up check of an accepted configuration can only miss a wallet: it never
finds a key that belongs to another address. -/
theorem miner_of_wallet_matches [DecidableEq A] {args : List String} {config : RunConfig A n}
    (h : parseRunConfig host args = .ok config)
    (hfile : ∀ file, loadRunConfigFileIfExists host
      ((configPathArg (args.map trimArg)).getD defaultConfigFile) = .ok (some file) →
        file.ByWallet)
    (hargs : ∀ arg ∈ args, trimArg arg ≠ "--miner" ∧ trimArg arg ≠ "--miner-secret-key")
    (hwallet : config.minerSecretKey.isSome) : checkMiner host config = .ok () := by
  obtain ⟨start, s, hstart, hs, rfl⟩ := parseRunConfig_eq_ok.mp h
  refine RunConfig.Matched.checkMiner ?_ hwallet
  refine (Options.reads_of_read hs).invariant (fun s => s.config.Matched host) ?_ ?_
    (startConfig_matched hfile hstart)
  · intro arg harg option hoption s s' value hs hset
    obtain ⟨word, hword, rfl⟩ := List.mem_map.mp harg
    refine set_matched ?_ ?_ hset hs
    · rintro rfl
      exact (hargs word hword).1 (ofName_eq_miner hoption)
    · rintro rfl
      exact (hargs word hword).2 (ofName_eq_minerSecretKey hoption)
  · intro _ _ _ _ hs hword
    obtain ⟨dbPath, mine, rfl⟩ := word_eq_ok hword
    exact hs

/-- The wallet file gives its address in capitals and still matches. -/
theorem miner_of_wallet_matches_of_walletFile :
    ∃ config, parseRunConfig Reference.host ["--mine", "--wallet", "wallet.json"] = .ok config ∧
      config.mine = true ∧ checkMiner Reference.host config = .ok () := by
  have haccepted : ((parseRunConfig Reference.host
      ["--mine", "--wallet", "wallet.json"]).toOption.map fun config =>
        (config.mine, config.minerSecretKey.isSome)) = some (true, true) := by
    decide +kernel
  obtain ⟨config, hconfig, hfields⟩ := Option.map_eq_some_iff.mp haccepted
  simp only [Prod.mk.injEq] at hfields
  have hparse := Except.eq_ok_of_toOption hconfig
  refine ⟨config, hparse, hfields.1, miner_of_wallet_matches hparse ?_ ?_ hfields.2⟩
  · intro file hfile
    have hnone : loadRunConfigFileIfExists Reference.host defaultConfigFile = .ok none := by
      decide +kernel
    cases hnone.symm.trans hfile
  · decide +kernel

/-! ## The default file -/

/-- Printed addresses are parsed back. -/
theorem parseAddrs_toString (host : Host A n) (what : String) (addrs : List A) :
    parseAddrs host what (addrs.map host.addrToString) = .ok addrs := by
  unfold parseAddrs
  induction addrs with
  | nil => rfl
  | cons addr addrs ih =>
      rw [List.map_cons, List.mapM_cons, host.parseAddr_toString, ih]
      rfl

/-- The default file says what the defaults say. -/
theorem applyRunConfigFile_default (host : Host A n) :
    applyRunConfigFile host (RunConfig.default host) (RunConfigFile.default host) =
      .ok (RunConfig.default host) := by
  have hlisten := parseAddrs_toString host "listen_addr" (RunConfig.default host).listenAddrs
  have hrpc := host.parseAddr_toString (RunConfig.default host).rpcAddr
  simp only [applyRunConfigFile, applyFields, RunConfigFile.default, OneOrMany.intoVec, hlisten,
    hrpc]
  rfl

section WithFile

variable {path contents : String} {error : ReadError}

/-- A file that was not there and is no wallet adds no wallet. -/
theorem loadWallet_withFile (hmissing : host.readToString path = .error error)
    {reason : String} (hnot : host.walletFromStr contents = .error reason) {other : String}
    {wallet : Wallet n} :
    loadWallet (host.withFile path contents) other = .ok wallet ↔
      loadWallet host other = .ok wallet := by
  by_cases hpath : other = path
  · subst hpath
    simp [loadWallet, Host.withFile, hmissing, hnot, Except.mapError, Bind.bind, Except.bind]
  · have hread : (host.withFile path contents).readToString other = host.readToString other :=
      if_neg hpath
    rw [loadWallet, hread]
    exact Iff.rfl

theorem applyWalletFile_withFile (hmissing : host.readToString path = .error error)
    {reason : String} (hnot : host.walletFromStr contents = .error reason)
    {config config' : RunConfig A n} {value : Option String} :
    applyWalletFile (host.withFile path contents) config value = .ok config' ↔
      applyWalletFile host config value = .ok config' := by
  simp only [applyWalletFile, Except.bind_eq_ok, loadWallet_withFile hmissing hnot]

/-- No option sees the new file. -/
theorem set_withFile (hmissing : host.readToString path = .error error)
    {reason : String} (hnot : host.walletFromStr contents = .error reason)
    {s s' : Parsing A n} {value : Option String} {option : RunOption} :
    s.set (host.withFile path contents) value option = .ok s' ↔
      s.set host value option = .ok s' := by
  cases option
  case wallet => simp only [Parsing.set, Except.bind_eq_ok, applyWalletFile_withFile hmissing hnot]
  all_goals exact Iff.rfl

/-- Nor does the whole command line. -/
theorem runOptions_withFile (hmissing : host.readToString path = .error error)
    {reason : String} (hnot : host.walletFromStr contents = .error reason) {args : List String}
    {s s' : Parsing A n} :
    (runOptions (host.withFile path contents)).read s args = .ok s' ↔
      (runOptions host).read s args = .ok s' := by
  simp only [Options.read_eq_ok]
  exact ⟨fun h => h.mono (set_withFile hmissing hnot).mp,
    fun h => h.mono (set_withFile hmissing hnot).mpr⟩

end WithFile

/-- **The default file is the default.**  Writing the config file that `node
config` writes changes nothing, whatever the command line is: it is accepted
with the file if and only if it is accepted without, and gives the same
configuration. -/
theorem default_file_changes_nothing [DecidableEq A] (host : Host A n) {args : List String}
    {path contents text reason : String}
    (hpath : (configPathArg (args.map trimArg)).getD defaultConfigFile = path)
    (hmissing : host.readToString path = .error ⟨true, text⟩)
    (hcontents : host.configFromStr contents = .ok (RunConfigFile.default host))
    (hnot : host.walletFromStr contents = .error reason) (config : RunConfig A n) :
    parseRunConfig (host.withFile path contents) args = .ok config ↔
      parseRunConfig host args = .ok config := by
  have hstart : startConfig host (args.map trimArg) = .ok (RunConfig.default host) := by
    rw [startConfig, hpath, loadRunConfigFileIfExists, hmissing]
    rfl
  have hstart' : startConfig (host.withFile path contents) (args.map trimArg) =
      .ok (RunConfig.default host) := by
    have hread : (host.withFile path contents).readToString path = .ok contents := if_pos rfl
    have hparse : (host.withFile path contents).configFromStr contents =
        .ok (RunConfigFile.default host) := hcontents
    rw [startConfig, hpath, loadRunConfigFileIfExists, hread]
    simp only [hparse]
    exact applyRunConfigFile_default (host.withFile path contents)
  simp only [parseRunConfig_eq_ok, hstart, hstart', runOptions_withFile hmissing hnot]

/-- A relay fee on the command line, with the default file and without. -/
theorem default_file_changes_nothing_of_relayFee :
    ∃ config, parseRunConfig (Reference.host.withFile defaultConfigFile "default")
        ["--min-relay-fee", "5"] = .ok config ∧
      parseRunConfig Reference.host ["--min-relay-fee", "5"] = .ok config ∧
      config.marketFee = 5 := by
  have haccepted : ((parseRunConfig Reference.host ["--min-relay-fee", "5"]).toOption.map
      fun config => config.marketFee) = some 5 := by decide +kernel
  obtain ⟨config, hconfig, hfee⟩ := Option.map_eq_some_iff.mp haccepted
  have hparse := Except.eq_ok_of_toOption hconfig
  refine ⟨config, ?_, hparse, hfee⟩
  have hpath : (configPathArg (["--min-relay-fee", "5"].map trimArg)).getD defaultConfigFile =
      defaultConfigFile := by decide +kernel
  have hmissing : Reference.host.readToString defaultConfigFile =
      .error ⟨true, "No such file or directory (os error 2)"⟩ := by decide +kernel
  have hnot : Reference.host.walletFromStr "default" = .error "missing field address" := by
    decide +kernel
  exact (default_file_changes_nothing Reference.host hpath hmissing rfl hnot config).mpr hparse

end Config

end PaqusNode
