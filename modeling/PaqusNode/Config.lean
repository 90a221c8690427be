import PaqusNode.Base.Str
import PaqusNode.Base.Except
import PaqusNode.Base.Options
import PaqusNode.Keys
import PaqusNode.Mempool
import PaqusNode.Service.PeerTable

/-!
# PaqusNode.Config

The configuration of `node run` (`src/main.rs`): defaults, then the config
file, then the command line, read option by option from left to right.
Whatever the two say, what comes out is normalised.

Files, JSON and socket addresses are read by the host; the host carries what
the standard library promises about them.
-/

namespace PaqusNode

namespace Config

/-! ## Constants -/

def defaultNodeDb : String := "./data/paqus"

def defaultListenAddr : String := "0.0.0.0:5555"

def defaultRpcAddr : String := "127.0.0.1:6666"

def defaultConfigFile : String := "./data/paqus/node.json"

def defaultPeersFile : String := "./data/paqus/peers.json"

def defaultMaxPeers : Nat := 128

def defaultShutdownFile : String := "./data/paqus/STOP"

/-- `DEFAULT_GATEWAY_HEARTBEAT` in seconds. -/
def defaultGatewayHeartbeat : UInt64 := 60

def u32Max : Nat := 2 ^ 32 - 1

def u64MaxNat : Nat := 2 ^ 64 - 1

/-! ## Data -/

/-- `OneOrMany<String>`. -/
inductive OneOrMany where
  | one (value : String)
  | many (values : List String)
deriving DecidableEq, Repr

/-- `OneOrMany::into_vec`. -/
def OneOrMany.intoVec : OneOrMany → List String
  | .one value => [value]
  | .many values => values

/-- `RunConfigFile`. -/
structure RunConfigFile where
  dbPath : String
  listenAddr : OneOrMany
  rpcAddr : String
  peers : List String
  peersFile : Option String
  gatewayUrl : Option String
  publicAddr : Option OneOrMany
  gatewayHeartbeatSecs : UInt64
  shutdownFile : String
  maxPeers : Nat
  minRelayFee : Option UInt32
  marketFee : Option UInt32
  lowFeeExpirySecs : Option UInt64
  mempoolExpirySecs : Option UInt64
  wallet : Option String
  minerAddress : Option String
  minerSecretKey : Option String
  mine : Bool
  mineIntervalSecs : UInt64
  mineAttempts : UInt64
deriving DecidableEq, Repr

/-- `WalletFile`. -/
structure WalletFile where
  address : String
  secretKey : String
deriving DecidableEq, Repr

/-- An `io::Error` of a read. -/
structure ReadError where
  notFound : Bool
  text : String
deriving DecidableEq, Repr

/-- What the configuration is read with: the file system, `serde_json`, the
socket addresses `A` and the keys of `n` bytes.  The first two laws are the
`expect`s of `RunConfig::default`; the last says that a socket address is
parsed back from its text. -/
structure Host (A : Type) (n : Nat) where
  readToString : String → Except ReadError String
  configFromStr : String → Except String RunConfigFile
  walletFromStr : String → Except String WalletFile
  parseAddr : String → Except String A
  addrToString : A → String
  /-- `address_from_public_key` of `derive_public_key`. -/
  addressOf : Vector UInt8 n → Address
  addressToString : Address → String
  blockTime : UInt64
  listen : A
  rpc : A
  parseAddr_listen : parseAddr defaultListenAddr = .ok listen
  parseAddr_rpc : parseAddr defaultRpcAddr = .ok rpc
  parseAddr_toString : ∀ addr, parseAddr (addrToString addr) = .ok addr

/-- The host once `contents` have been written to the file at `path`. -/
def Host.withFile {A : Type} {n : Nat} (host : Host A n) (path contents : String) : Host A n :=
  { host with
    readToString := fun other => if other = path then .ok contents else host.readToString other }

/-- `RunConfig`; durations are in seconds. -/
structure RunConfig (A : Type) (n : Nat) extends Service.RunConfig A where
  dbPath : String
  rpcAddr : A
  peersFile : Option String
  gatewayHeartbeat : UInt64
  shutdownFile : String
  minRelayFee : UInt32
  marketFee : UInt32
  lowFeeExpiry : UInt64
  mempoolExpiry : UInt64
  minerAddress : Address
  minerSecretKey : Option (Vector UInt8 n)
  mineInterval : UInt64
  mineAttempts : UInt64
deriving DecidableEq

variable {A : Type} {n : Nat}

/-- `RunConfig::default`. -/
def RunConfig.default (host : Host A n) : RunConfig A n where
  dbPath := defaultNodeDb
  listenAddrs := [host.listen]
  rpcAddr := host.rpc
  peers := []
  peersFile := some defaultPeersFile
  gatewayUrl := none
  publicAddrs := []
  gatewayHeartbeat := defaultGatewayHeartbeat
  shutdownFile := defaultShutdownFile
  maxPeers := defaultMaxPeers
  minRelayFee := minRelayFeeFloor
  marketFee := defaultTransactionFee
  lowFeeExpiry := lowFeeExpirySecs
  mempoolExpiry := mempoolExpirySecs
  minerAddress := (beWord 20).symm (Vector.replicate 20 9)
  minerSecretKey := none
  mine := false
  mineInterval := host.blockTime
  mineAttempts := 10000

/-- `RunConfigFile::default`. -/
def RunConfigFile.default (host : Host A n) : RunConfigFile :=
  let defaults := RunConfig.default host
  { dbPath := defaults.dbPath
    listenAddr := .many (defaults.listenAddrs.map host.addrToString)
    rpcAddr := host.addrToString defaults.rpcAddr
    peers := []
    peersFile := some defaultPeersFile
    gatewayUrl := none
    publicAddr := none
    gatewayHeartbeatSecs := defaults.gatewayHeartbeat
    shutdownFile := defaults.shutdownFile
    maxPeers := defaults.maxPeers
    minRelayFee := some defaults.minRelayFee
    marketFee := some defaults.marketFee
    lowFeeExpirySecs := some defaults.lowFeeExpiry
    mempoolExpirySecs := some defaults.mempoolExpiry
    wallet := none
    minerAddress := none
    minerSecretKey := none
    mine := false
    mineIntervalSecs := defaults.mineInterval
    mineAttempts := defaults.mineAttempts }

/-! ## Values -/

/-- `ok_or_else(|| "missing value for ...")`. -/
def required (flag : String) : Option String → Except String String
  | some value => .ok value
  | none => .error ("missing value for " ++ flag)

/-- A required number up to `max`. -/
def number (max : Nat) (flag what : String) (value : Option String) : Except String Nat := do
  let value ← required flag value
  (Str.parseInt max value).mapError fun error => "invalid " ++ what ++ ": " ++ error

/-- `parse_socket`. -/
def parseSocket (host : Host A n) (value : Option String) (flag : String) : Except String A := do
  let value ← required flag value
  (host.parseAddr value).mapError fun error =>
    "invalid socket address for " ++ flag ++ ": " ++ error

/-- The address and the secret key of a `Wallet`. -/
structure Wallet (n : Nat) where
  address : Address
  secretKey : Vector UInt8 n
deriving DecidableEq

/-- `Wallet::from_secret_key`. -/
def Wallet.fromSecretKey (host : Host A n) (secretKey : Vector UInt8 n) : Wallet n :=
  ⟨host.addressOf secretKey, secretKey⟩

/-- `load_wallet`. -/
def loadWallet (host : Host A n) (path : String) : Except String (Wallet n) := do
  let contents ← (host.readToString path).mapError fun error =>
    "failed to read wallet file " ++ path ++ ": " ++ error.text
  let file ← (host.walletFromStr contents).mapError fun error =>
    "failed to parse wallet file " ++ path ++ ": " ++ error
  let address ← Keys.parseAddress (some file.address)
  let secretKey ← Keys.parseSecretKey n (some file.secretKey)
  let wallet := Wallet.fromSecretKey host secretKey
  if wallet.address ≠ address then .error "wallet address does not match secret key"
  else .ok wallet

/-- `apply_wallet_file`. -/
def applyWalletFile (host : Host A n) (config : RunConfig A n) (path : Option String) :
    Except String (RunConfig A n) := do
  let path ← required "--wallet" path
  let wallet ← loadWallet host path
  .ok { config with minerAddress := wallet.address, minerSecretKey := some wallet.secretKey }

/-! ## The file -/

/-- The addresses of one field of the file. -/
def parseAddrs (host : Host A n) (what : String) (addrs : List String) : Except String (List A) :=
  addrs.mapM fun addr => (host.parseAddr addr).mapError fun error =>
    "invalid " ++ what ++ " `" ++ addr ++ "` in config: " ++ error

/-- The fields of the file that are copied. -/
def applyFields (host : Host A n) (config : RunConfig A n) (file : RunConfigFile) :
    Except String (RunConfig A n) := do
  let listenAddrs ← parseAddrs host "listen_addr" file.listenAddr.intoVec
  let rpcAddr ← (host.parseAddr file.rpcAddr).mapError fun error =>
    "invalid rpc_addr in config: " ++ error
  let peers ← parseAddrs host "peer" file.peers
  let publicAddrs ← parseAddrs host "public_addr" ((file.publicAddr.map OneOrMany.intoVec).getD [])
  .ok
    { config with
      dbPath := file.dbPath
      listenAddrs := listenAddrs
      rpcAddr := rpcAddr
      peers := peers
      peersFile := file.peersFile
      gatewayUrl := file.gatewayUrl
      publicAddrs := publicAddrs
      gatewayHeartbeat := max file.gatewayHeartbeatSecs 1
      shutdownFile := file.shutdownFile
      maxPeers := max file.maxPeers 1
      minRelayFee := max (file.minRelayFee.getD config.minRelayFee) minRelayFeeFloor
      marketFee := file.marketFee.getD config.marketFee
      lowFeeExpiry := (file.lowFeeExpirySecs.map (max · 1)).getD config.lowFeeExpiry
      mempoolExpiry := (file.mempoolExpirySecs.map (max · 1)).getD config.mempoolExpiry
      mine := file.mine
      mineInterval := file.mineIntervalSecs
      mineAttempts := file.mineAttempts }

def applyWallet (host : Host A n) (config : RunConfig A n) :
    Option String → Except String (RunConfig A n)
  | some path => applyWalletFile host config (some path)
  | none => .ok config

def applyMinerAddress (config : RunConfig A n) : Option String → Except String (RunConfig A n)
  | some address => do
      let address ← Keys.parseAddress (some address)
      .ok { config with minerAddress := address }
  | none => .ok config

def applyMinerSecretKey (config : RunConfig A n) : Option String → Except String (RunConfig A n)
  | some key => do
      let key ← Keys.parseSecretKey n (some key)
      .ok { config with minerSecretKey := some key }
  | none => .ok config

/-- `apply_run_config_file`: the fields, and then who mines. -/
def applyRunConfigFile (host : Host A n) (config : RunConfig A n) (file : RunConfigFile) :
    Except String (RunConfig A n) := do
  let config ← applyFields host config file
  let config ← applyWallet host config file.wallet
  let config ← applyMinerAddress config file.minerAddress
  applyMinerSecretKey config file.minerSecretKey

/-- `load_run_config_file_if_exists`. -/
def loadRunConfigFileIfExists (host : Host A n) (path : String) :
    Except String (Option RunConfigFile) :=
  match host.readToString path with
  | .error error =>
      if error.notFound then .ok none
      else .error ("failed to read config " ++ path ++ ": " ++ error.text)
  | .ok contents =>
      match host.configFromStr contents with
      | .error error => .error ("failed to parse config " ++ path ++ ": " ++ error)
      | .ok file => .ok (some file)

/-! ## The command line -/

/-- The options of `node run` that take a value. -/
inductive RunOption where
  | config
  | db
  | listen
  | rpcListen
  | peer
  | peersFile
  | gateway
  | publicAddr
  | gatewayHeartbeatSecs
  | shutdownFile
  | maxPeers
  | minRelayFee
  | marketFee
  | lowFeeExpirySecs
  | mempoolExpirySecs
  | miner
  | wallet
  | minerSecretKey
  | mineIntervalSecs
  | mineAttempts
deriving DecidableEq, Repr

def RunOption.ofName : String → Option RunOption
  | "--config" => some .config
  | "--db" => some .db
  | "--db-path" => some .db
  | "--listen" => some .listen
  | "--rpc-listen" => some .rpcListen
  | "--peer" => some .peer
  | "--peers-file" => some .peersFile
  | "--gateway" => some .gateway
  | "--gateway-url" => some .gateway
  | "--public-addr" => some .publicAddr
  | "--gateway-heartbeat-secs" => some .gatewayHeartbeatSecs
  | "--shutdown-file" => some .shutdownFile
  | "--max-peers" => some .maxPeers
  | "--min-relay-fee" => some .minRelayFee
  | "--market-fee" => some .marketFee
  | "--low-fee-expiry-secs" => some .lowFeeExpirySecs
  | "--mempool-expiry-secs" => some .mempoolExpirySecs
  | "--miner" => some .miner
  | "--wallet" => some .wallet
  | "--miner-secret-key" => some .minerSecretKey
  | "--mine-interval-secs" => some .mineIntervalSecs
  | "--mine-attempts" => some .mineAttempts
  | _ => none

/-- The variables of the loop of `parse_run_config`. -/
structure Parsing (A : Type) (n : Nat) where
  config : RunConfig A n
  listenOverridden : Bool
  publicOverridden : Bool
deriving DecidableEq

/-- The arms of the options that take a value. -/
def Parsing.set (host : Host A n) (s : Parsing A n) (value : Option String) :
    RunOption → Except String (Parsing A n)
  | .config => do
      let _ ← required "--config" value
      .ok s
  | .db => do
      let dbPath ← required "--db" value
      .ok { s with config.dbPath := dbPath }
  | .listen => do
      let addr ← parseSocket host value "--listen"
      let before := if s.listenOverridden then s.config.listenAddrs else []
      .ok { s with config.listenAddrs := before ++ [addr], listenOverridden := true }
  | .rpcListen => do
      let addr ← parseSocket host value "--rpc-listen"
      .ok { s with config.rpcAddr := addr }
  | .peer => do
      let addr ← parseSocket host value "--peer"
      .ok { s with config.peers := s.config.peers ++ [addr] }
  | .peersFile => do
      let path ← required "--peers-file" value
      .ok { s with config.peersFile := some path }
  | .gateway => do
      let url ← required "--gateway" value
      .ok { s with config.gatewayUrl := some url }
  | .publicAddr => do
      let addr ← parseSocket host value "--public-addr"
      let before := if s.publicOverridden then s.config.publicAddrs else []
      .ok { s with config.publicAddrs := before ++ [addr], publicOverridden := true }
  | .gatewayHeartbeatSecs => do
      let secs ← number u64MaxNat "--gateway-heartbeat-secs" "gateway heartbeat interval" value
      .ok { s with config.gatewayHeartbeat := max (UInt64.ofNat secs) 1 }
  | .shutdownFile => do
      let path ← required "--shutdown-file" value
      .ok { s with config.shutdownFile := path }
  | .maxPeers => do
      let count ← number usizeMax "--max-peers" "max peers" value
      .ok { s with config.maxPeers := max count 1 }
  | .minRelayFee => do
      let fee ← number u32Max "--min-relay-fee" "min relay fee" value
      .ok { s with config.minRelayFee := max (UInt32.ofNat fee) minRelayFeeFloor }
  | .marketFee => do
      let fee ← number u32Max "--market-fee" "market fee" value
      .ok { s with config.marketFee := UInt32.ofNat fee }
  | .lowFeeExpirySecs => do
      let secs ← number u64MaxNat "--low-fee-expiry-secs" "low fee expiry" value
      .ok { s with config.lowFeeExpiry := max (UInt64.ofNat secs) 1 }
  | .mempoolExpirySecs => do
      let secs ← number u64MaxNat "--mempool-expiry-secs" "mempool expiry" value
      .ok { s with config.mempoolExpiry := max (UInt64.ofNat secs) 1 }
  | .miner => do
      let address ← Keys.parseAddress value
      .ok { s with config.minerAddress := address }
  | .wallet => do
      let config ← applyWalletFile host s.config value
      .ok { s with config := config }
  | .minerSecretKey => do
      let key ← Keys.parseSecretKey n value
      .ok { s with config.minerSecretKey := some key }
  | .mineIntervalSecs => do
      let secs ← number u64MaxNat "--mine-interval-secs" "mining interval" value
      .ok { s with config.mineInterval := UInt64.ofNat secs }
  | .mineAttempts => do
      let attempts ← number u64MaxNat "--mine-attempts" "mining attempts" value
      .ok { s with config.mineAttempts := UInt64.ofNat attempts }

/-- The arms that take no value: `--premine`, `--mine`, a path, anything else. -/
def Parsing.word (s : Parsing A n) (arg : String) : Except String (Parsing A n) :=
  if arg = "--premine" then
    .error "premine address is fixed by protocol and cannot be overridden"
  else if arg = "--mine" then .ok { s with config.mine := true }
  else if arg.toList.head? ≠ some '-' ∧ s.config.dbPath = defaultNodeDb then
    .ok { s with config.dbPath := arg }
  else .error ("unknown node run option `" ++ arg ++ "`")

/-- The arms of the loop of `parse_run_config`. -/
def runOptions (host : Host A n) : Options RunOption (Parsing A n) String where
  ofName := RunOption.ofName
  set s value option := s.set host value option
  word s arg := s.word arg

/-- `config_path_arg`. -/
def configPathArg : List String → Option String
  | flag :: path :: rest =>
      if flag = "--config" then some path else configPathArg (path :: rest)
  | _ => none

/-- `normalize_mempool_policy`. -/
def normalizeMempoolPolicy (config : RunConfig A n) : RunConfig A n :=
  let minRelayFee := max config.minRelayFee minRelayFeeFloor
  { config with
    minRelayFee := minRelayFee
    marketFee := max config.marketFee minRelayFee
    lowFeeExpiry :=
      if config.mempoolExpiry < config.lowFeeExpiry then config.mempoolExpiry
      else config.lowFeeExpiry }

/-- The configuration the loop starts with. -/
def startConfig (host : Host A n) (args : List String) : Except String (RunConfig A n) := do
  match ← loadRunConfigFileIfExists host ((configPathArg args).getD defaultConfigFile) with
  | some file => applyRunConfigFile host (RunConfig.default host) file
  | none => .ok (RunConfig.default host)

/-- `dedupe_socket_addrs`. -/
def dedupeSocketAddrs [DecidableEq A] (addrs : List A) : List A := Retain.firsts addrs

/-- The identity check of `preflight`. -/
def checkMiner (host : Host A n) (config : RunConfig A n) : Except String Unit :=
  if config.mine then
    match config.minerSecretKey with
    | none =>
        .error "mining requires --wallet or --miner-secret-key so the miner identity is explicit"
    | some key =>
        if host.addressOf key ≠ config.minerAddress then
          .error ("miner secret key does not match miner address " ++
            host.addressToString config.minerAddress)
        else .ok ()
  else .ok ()

/-- The pool that `run_node` gives the node. -/
def RunConfig.mempoolConfig (config : RunConfig A n) : MempoolConfig :=
  { MempoolConfig.default with
    minRelayFee := config.minRelayFee
    marketFee := config.marketFee
    lowFeeTtlSecs := config.lowFeeExpiry
    transactionTtlSecs := config.mempoolExpiry }

/-- What `parse_run_config` does after its loop. -/
def RunConfig.finish [DecidableEq A] (config : RunConfig A n) : RunConfig A n :=
  normalizeMempoolPolicy
    { config with
      listenAddrs := dedupeSocketAddrs config.listenAddrs
      publicAddrs := dedupeSocketAddrs config.publicAddrs }

/-- `arg.trim().to_string()`. -/
def trimArg (arg : String) : String := String.ofList (Str.trim arg.toList)

/-- `parse_run_config`. -/
def parseRunConfig [DecidableEq A] (host : Host A n) (args : List String) :
    Except String (RunConfig A n) := do
  let args := args.map trimArg
  let config ← startConfig host args
  let s ← (runOptions host).read ⟨config, false, false⟩ args
  .ok s.config.finish

end Config

namespace Reference

open Config

/-- Two socket addresses, keys of two bytes that are their own address, and one
wallet file. -/
def wallets : Host Bool 2 where
  readToString path :=
    if path = "wallet.json" then .ok "wallet"
    else .error ⟨true, "No such file or directory (os error 2)"⟩
  configFromStr _ := .error "expected value at line 1 column 1"
  walletFromStr contents :=
    if contents = "wallet" then .ok ⟨"0000000000000000000000000000000000000A0B", "0a0b"⟩
    else .error "missing field address"
  parseAddr text :=
    if text = defaultListenAddr then .ok true
    else if text = defaultRpcAddr then .ok false
    else .error "invalid socket address syntax"
  addrToString addr := if addr then defaultListenAddr else defaultRpcAddr
  addressOf key := BitVec.ofNat 160 (256 * key[0].toNat + key[1].toNat)
  addressToString address := Keys.formatArray (beWord 20 address)
  blockTime := 60
  listen := true
  rpc := false
  parseAddr_listen := rfl
  parseAddr_rpc := rfl
  parseAddr_toString := by decide

/-- A host that knows the text of the default config file. -/
def host : Host Bool 2 :=
  { wallets with
    configFromStr := fun contents =>
      if contents = "default" then .ok (RunConfigFile.default wallets)
      else .error "expected value at line 1 column 1" }

end Reference

end PaqusNode
