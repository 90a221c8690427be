import PaqusNode.Config

/-!
# PaqusNode.Wallet.Commands

The command lines of a payment (`src/main.rs`): `wallet pay`, and `wallet send`
in its short and in its long form.  Each is read by a loop of its own; what
they read is the payment that `submit_wallet_transaction` makes.

`pay` is the short form of `send` without a nonce, and the short form is the
long form with everything spelled out.
-/

namespace PaqusNode

namespace Wallet

/-! ## Values -/

/-- `parse_amount`. -/
def parseAmount (value : Option String) (flag : String) : Except String UInt32 := do
  let value ← Config.required flag value
  let amount ← (Str.parseInt Config.u32Max value).mapError fun error =>
    "invalid amount for " ++ flag ++ ": " ++ error
  .ok (UInt32.ofNat amount)

/-- `parse_nonce`. -/
def parseNonce (value : Option String) : Except String UInt64 := do
  let value ← Config.required "--nonce" value
  let nonce ← (Str.parseInt Config.u64MaxNat value).mapError fun error =>
    "invalid nonce: " ++ error
  .ok (UInt64.ofNat nonce)

/-- The arguments of `submit_wallet_transaction`. -/
structure Payment where
  walletPath : String
  receiver : Address
  amount : UInt32
  fee : UInt32
  nonce : Option UInt64
  rpcAddr : String
  submit : Bool
deriving DecidableEq, Repr

/-- The arguments that `submit_wallet_payment` passes on. -/
def submitWalletPayment (walletPath : String) (receiver : Address) (amount fee : UInt32)
    (nonce : Option UInt64) (rpcAddr : String) : Payment :=
  ⟨walletPath, receiver, amount, fee, nonce, rpcAddr, true⟩

/-! ## `pay` and the short form of `send` -/

/-- The variables of the two loops. -/
structure Choice where
  walletPath : String := "wallet.json"
  rpcAddr : String := Config.defaultRpcAddr
  fee : UInt32 := defaultTransactionFee
  nonce : Option UInt64 := none
deriving DecidableEq, Repr

/-- The options of the two loops. -/
inductive PayOption where
  | wallet
  | rpc
  | fee
  | nonce
deriving DecidableEq, Repr

/-- The arms of the two loops. -/
def Choice.set (s : Choice) (value : Option String) : PayOption → Except String Choice
  | .wallet => do
      let walletPath ← Config.required "--wallet" value
      .ok { s with walletPath := walletPath }
  | .rpc => do
      let rpcAddr ← Config.required "--rpc" value
      .ok { s with rpcAddr := rpcAddr }
  | .fee => do
      let fee ← parseAmount value "--fee"
      .ok { s with fee := fee }
  | .nonce => do
      let nonce ← parseNonce value
      .ok { s with nonce := some nonce }

/-- The loop of `wallet_pay_command`. -/
def payOptions : Options PayOption Choice String where
  ofName
    | "--wallet" => some .wallet
    | "--rpc" => some .rpc
    | "--rpc-addr" => some .rpc
    | "--fee" => some .fee
    | _ => none
  set := Choice.set
  word _ arg := .error ("unknown wallet pay option `" ++ arg ++ "`")

/-- The loop of the short form of `wallet_send_command`. -/
def shortOptions : Options PayOption Choice String where
  ofName
    | "--wallet" => some .wallet
    | "--rpc" => some .rpc
    | "--rpc-addr" => some .rpc
    | "--fee" => some .fee
    | "--nonce" => some .nonce
    | _ => none
  set := Choice.set
  word _ arg := .error ("unknown wallet send option `" ++ arg ++ "`")

/-- The two commands, but for the loop. -/
def payWith (options : Options PayOption Choice String) (args : List String) :
    Except String Payment := do
  let receiver ← Keys.parseAddress args.head?
  let amount ← parseAmount args[1]? "amount"
  let s ← options.read {} (args.drop 2)
  .ok (submitWalletPayment s.walletPath receiver amount s.fee s.nonce s.rpcAddr)

/-- `wallet_pay_command`, up to the payment. -/
def walletPayCommand (args : List String) : Except String Payment := payWith payOptions args

/-! ## The long form -/

/-- The variables of the loop. -/
structure LongChoice where
  walletPath : Option String := none
  receiver : Option Address := none
  amount : Option UInt32 := none
  fee : UInt32 := defaultTransactionFee
  nonce : Option UInt64 := none
  rpcAddr : String := Config.defaultRpcAddr
  submit : Bool := false
deriving DecidableEq, Repr

/-- The options of the loop that take a value. -/
inductive LongOption where
  | wallet
  | receiver
  | amount
  | fee
  | nonce
  | rpc
deriving DecidableEq, Repr

/-- The arms of the options.  A missing value of `--wallet` is not an error
here. -/
def LongChoice.set (s : LongChoice) (value : Option String) :
    LongOption → Except String LongChoice
  | .wallet => .ok { s with walletPath := value }
  | .receiver => do
      let receiver ← Keys.parseAddress value
      .ok { s with receiver := some receiver }
  | .amount => do
      let amount ← parseAmount value "--amount"
      .ok { s with amount := some amount }
  | .fee => do
      let fee ← parseAmount value "--fee"
      .ok { s with fee := fee }
  | .nonce => do
      let nonce ← parseNonce value
      .ok { s with nonce := some nonce }
  | .rpc => do
      let rpcAddr ← Config.required "--rpc" value
      .ok { s with rpcAddr := rpcAddr }

/-- The loop of the long form of `wallet_send_command`. -/
def longOptions : Options LongOption LongChoice String where
  ofName
    | "--wallet" => some .wallet
    | "--to" => some .receiver
    | "--amount" => some .amount
    | "--fee" => some .fee
    | "--nonce" => some .nonce
    | "--rpc" => some .rpc
    | "--rpc-addr" => some .rpc
    | _ => none
  set := LongChoice.set
  word s arg :=
    if arg = "--submit" then .ok { s with submit := true }
    else .error ("unknown wallet send option `" ++ arg ++ "`")

/-- What the long form does after its loop. -/
def LongChoice.payment (s : LongChoice) : Except String Payment :=
  match s.walletPath, s.receiver, s.amount with
  | none, _, _ => .error "missing --wallet path"
  | _, none, _ => .error "missing --to address"
  | _, _, none => .error "missing --amount"
  | some walletPath, some receiver, some amount =>
      .ok ⟨walletPath, receiver, amount, s.fee, s.nonce, s.rpcAddr, s.submit⟩

/-- `arg.starts_with('-')`. -/
def startsWithDash (arg : String) : Bool := arg.toList.head? == some '-'

/-- The test for the short form. -/
def shortForm : List String → Bool
  | first :: second :: _ => !startsWithDash first && !startsWithDash second
  | _ => false

/-- `wallet_send_command`, up to the payment. -/
def walletSendCommand (args : List String) : Except String Payment :=
  if shortForm args then payWith shortOptions args
  else do
    let s ← longOptions.read {} args
    s.payment

/-! ## Wallet files -/

section File

variable {A : Type} {n : Nat} {host : Config.Host A n}

/-- What `wallet new` writes, as far as `WalletFile` reads it. -/
def newWalletFile (host : Config.Host A n) (wallet : Config.Wallet n) : Config.WalletFile :=
  ⟨host.addressToString wallet.address, Keys.formatArray wallet.secretKey⟩

/-- A file is a wallet exactly if its two texts are those of a key and of the
address of that key. -/
theorem loadWallet_eq_ok {path contents : String} {file : Config.WalletFile}
    (hread : host.readToString path = .ok contents) (hfile : host.walletFromStr contents = .ok file)
    {wallet : Config.Wallet n} :
    Config.loadWallet host path = .ok wallet ↔
      Keys.Reads file.address (Keys.formatArray (beWord 20 wallet.address)) ∧
        Keys.Reads file.secretKey (Keys.formatArray wallet.secretKey) ∧
        wallet.address = host.addressOf wallet.secretKey := by
  simp only [Config.loadWallet, Except.bind_eq_ok, Except.mapError_eq_ok, hread, hfile,
    Except.ok.injEq, exists_eq_left', Keys.parseAddress, Keys.parseAddressHex_eq_ok,
    Keys.parseSecretKey_eq_ok]
  constructor
  · rintro ⟨address, haddress, key, hkey, h⟩
    split at h
    · cases h
    · next heq =>
        cases h
        rw [← not_not.mp heq] at haddress
        exact ⟨haddress, hkey, rfl⟩
  · rintro ⟨haddress, hkey, heq⟩
    refine ⟨_, haddress, _, hkey, (if_neg (not_not_intro heq.symm)).trans ?_⟩
    rw [Config.Wallet.fromSecretKey, ← heq]

/-- **What `wallet new` writes is loaded as the wallet it was written from**,
and as nothing else. -/
theorem wallet_file_loads_back (host : Config.Host A n) (secretKey : Vector UInt8 n)
    {path contents : String}
    (haddress : host.addressToString (host.addressOf secretKey) =
      Keys.formatArray (beWord 20 (host.addressOf secretKey)))
    (hfile : host.walletFromStr contents =
      .ok (newWalletFile host (Config.Wallet.fromSecretKey host secretKey)))
    (wallet : Config.Wallet n) :
    Config.loadWallet (host.withFile path contents) path = .ok wallet ↔
      wallet = Config.Wallet.fromSecretKey host secretKey := by
  have hread : (host.withFile path contents).readToString path = .ok contents := if_pos rfl
  rw [loadWallet_eq_ok hread hfile]
  simp only [newWalletFile, Config.Wallet.fromSecretKey, haddress]
  constructor
  · rintro ⟨-, hkey, hwallet⟩
    have hsame : Keys.parseSecretKey n (some (Keys.formatArray secretKey)) =
        .ok wallet.secretKey := Keys.parseSecretKey_eq_ok.mpr hkey
    rw [Keys.parseSecretKey, Keys.parseArray_formatArray, Except.ok.injEq] at hsame
    subst hsame
    exact congrArg (Config.Wallet.mk · wallet.secretKey) hwallet
  · rintro rfl
    exact ⟨Keys.reads_self _, Keys.reads_self _, rfl⟩

/-- The host on which every text is that of one wallet file. -/
def withWallet (host : Config.Host A n) (file : Config.WalletFile) : Config.Host A n :=
  { host with walletFromStr := fun _ => .ok file }

/-- A host that knows the file of the key 10, 11. -/
def savedHost : Config.Host Bool 2 :=
  withWallet Reference.wallets (newWalletFile Reference.wallets ⟨2571, #v[10, 11]⟩)

theorem wallet_file_loads_back_of_key :
    Config.loadWallet (savedHost.withFile "new.json" "new") "new.json" =
      .ok ⟨2571, #v[10, 11]⟩ :=
  (wallet_file_loads_back savedHost #v[10, 11] (by decide +kernel)
    (Except.eq_ok_of_toOption (by decide +kernel)) ⟨2571, #v[10, 11]⟩).mpr (by decide +kernel)

end File

/-! ## Nothing that is read starts with a dash -/

/-- An address does not start with a dash. -/
theorem startsWithDash_of_parseAddress {arg : String} {address : Address}
    (h : Keys.parseAddress (some arg) = .ok address) : startsWithDash arg = false := by
  have hdecode := Keys.reads_encode.mp (Keys.parseAddressHex_eq_ok.mp h)
  unfold startsWithDash
  cases htext : arg.toList with
  | nil => rfl
  | cons c rest =>
      rw [htext] at hdecode
      have hdash : c ≠ '-' := by
        rintro rfl
        cases rest <;> simp [Hex.decode, Hex.value] at hdecode
      simpa using hdash

/-- Nor does an amount. -/
theorem startsWithDash_of_parseAmount {arg flag : String} {amount : UInt32}
    (h : parseAmount (some arg) flag = .ok amount) : startsWithDash arg = false := by
  obtain ⟨value, hvalue, hrest⟩ := Except.bind_eq_ok.mp h
  cases hvalue
  obtain ⟨n, hparse, -⟩ := Except.bind_eq_ok.mp hrest
  have hnumeral : Str.Numeral Config.u32Max arg.toList n := by
    have hint := Except.mapError_eq_ok.mp hparse
    unfold Str.parseInt at hint
    split at hint
    · next hsome =>
        cases hint
        exact Str.parse_eq_some.mp hsome
    · cases hint
  obtain ⟨digits, htext, hne, hdigits, -⟩ := hnumeral
  unfold startsWithDash
  rcases htext with htext | htext
  · obtain ⟨c, rest, rfl⟩ := List.exists_cons_of_ne_nil hne
    have hdash : c ≠ '-' := by
      rintro rfl
      exact absurd (hdigits _ List.mem_cons_self) (by decide)
    simpa [htext] using hdash
  · simp [htext]

/-! ## The loops -/

theorem shortOptions_of_pay {arg : String} {option : PayOption}
    (h : payOptions.ofName arg = some option) :
    shortOptions.ofName arg = some option ∧ option ≠ .nonce := by
  unfold payOptions at h
  simp only at h
  split at h <;> cases h <;> simp [shortOptions]

theorem payOptions_of_short {arg : String} {option : PayOption}
    (h : shortOptions.ofName arg = some option) (hne : option ≠ .nonce) :
    payOptions.ofName arg = some option := by
  unfold shortOptions at h
  simp only at h
  split at h <;> simp_all [payOptions]

/-- An option does not go without its value. -/
theorem Choice.set_none (s : Choice) (option : PayOption) (s' : Choice) :
    s.set none option ≠ .ok s' := by
  cases option <;> exact nofun

theorem Choice.set_nonce {s s' : Choice} {value : Option String} {option : PayOption}
    (h : s.set value option = .ok s') :
    if option = .nonce then s'.nonce.isSome else s'.nonce = s.nonce := by
  cases option <;> obtain ⟨_, -, h⟩ := Except.bind_eq_ok.mp h <;> cases h <;> rfl

/-- The loop of `pay` is that of the short form as long as no nonce is given. -/
theorem payOptions_reads_iff {s s' : Choice} (hs : s.nonce = none) {args : List String} :
    payOptions.Reads s args s' ↔ shortOptions.Reads s args s' ∧ s'.nonce = none := by
  constructor
  · intro h
    induction h with
    | nil s => exact ⟨.nil s, hs⟩
    | last _ hset => exact absurd hset (Choice.set_none _ _ _)
    | option hname hset _ ih =>
        obtain ⟨hname', hne⟩ := shortOptions_of_pay hname
        have hnonce := Choice.set_nonce hset
        rw [if_neg hne, hs] at hnonce
        exact ⟨.option hname' hset (ih hnonce).1, (ih hnonce).2⟩
    | word _ hword _ _ => cases hword
  · rintro ⟨h, hnone⟩
    induction h with
    | nil s => exact .nil s
    | last _ hset => exact absurd hset (Choice.set_none _ _ _)
    | option hname hset hrest ih =>
        have hnonce := Choice.set_nonce hset
        split at hnonce
        · -- a nonce, once given, stays
          have hsome := hrest.invariant (fun s => s.nonce.isSome = true)
            (fun _ _ _ _ s s' _ hs hset => by
              have := Choice.set_nonce hset
              split at this
              · exact this
              · rwa [this])
            (fun _ _ _ _ _ hword => nomatch hword) hnonce
          rw [hnone] at hsome
          cases hsome
        · next hne =>
            exact .option (payOptions_of_short hname hne) hset (ih (hnonce.trans hs) hnone)
    | word _ hword _ _ => cases hword

/-- The two loops side by side: what the long form has read besides. -/
structure Matches (receiver : Address) (amount : UInt32) (s : Choice) (t : LongChoice) : Prop where
  walletPath : t.walletPath = some s.walletPath
  receiver : t.receiver = some receiver
  amount : t.amount = some amount
  fee : t.fee = s.fee
  nonce : t.nonce = s.nonce
  rpcAddr : t.rpcAddr = s.rpcAddr
  submit : t.submit = false

/-- An option of the short form, in the long form. -/
theorem Matches.set {receiver : Address} {amount : UInt32} {s s' : Choice} {t : LongChoice}
    {arg value : String} {option : PayOption} (h : Matches receiver amount s t)
    (hname : shortOptions.ofName arg = some option) (hset : s.set (some value) option = .ok s') :
    ∃ option' t', longOptions.ofName arg = some option' ∧
      longOptions.set t (some value) option' = .ok t' ∧ Matches receiver amount s' t' := by
  unfold shortOptions at hname
  simp only at hname
  split at hname <;> cases hname <;> obtain ⟨read, hread, hset⟩ := Except.bind_eq_ok.mp hset <;>
    cases hset
  · cases hread
    exact ⟨.wallet, { t with walletPath := some value }, by simp [longOptions], rfl,
      { h with walletPath := rfl }⟩
  · exact ⟨.rpc, { t with rpcAddr := read }, by simp [longOptions],
      Except.bind_eq_ok.mpr ⟨read, hread, rfl⟩, { h with rpcAddr := rfl }⟩
  · exact ⟨.rpc, { t with rpcAddr := read }, by simp [longOptions],
      Except.bind_eq_ok.mpr ⟨read, hread, rfl⟩, { h with rpcAddr := rfl }⟩
  · exact ⟨.fee, { t with fee := read }, by simp [longOptions],
      Except.bind_eq_ok.mpr ⟨read, hread, rfl⟩, { h with fee := rfl }⟩
  · exact ⟨.nonce, { t with nonce := some read }, by simp [longOptions],
      Except.bind_eq_ok.mpr ⟨read, hread, rfl⟩, { h with nonce := rfl }⟩

/-! ## The three forms -/

theorem payWith_eq_ok {options : Options PayOption Choice String} {args : List String}
    {payment : Payment} : payWith options args = .ok payment ↔
      ∃ receiver amount s, Keys.parseAddress args.head? = .ok receiver ∧
        parseAmount args[1]? "amount" = .ok amount ∧ options.Reads {} (args.drop 2) s ∧
        submitWalletPayment s.walletPath receiver amount s.fee s.nonce s.rpcAddr = payment := by
  simp only [payWith, Except.bind_eq_ok, Options.read_eq_ok, Except.ok.injEq]
  grind

/-- What `pay` takes is in the short form. -/
theorem shortForm_of_payWith {options : Options PayOption Choice String} {args : List String}
    {payment : Payment} (h : payWith options args = .ok payment) : shortForm args = true := by
  obtain ⟨receiver, amount, -, hreceiver, hamount, -⟩ := payWith_eq_ok.mp h
  match args with
  | [] => cases hreceiver
  | [_] => cases hamount
  | first :: second :: _ =>
      have hfirst := startsWithDash_of_parseAddress hreceiver
      have hsecond := startsWithDash_of_parseAmount hamount
      simp [shortForm, hfirst, hsecond]

/-- `pay` is the short form of `send` without a nonce. -/
theorem walletPayCommand_eq_ok {args : List String} {payment : Payment} :
    walletPayCommand args = .ok payment ↔
      shortForm args = true ∧ walletSendCommand args = .ok payment ∧ payment.nonce = none := by
  constructor
  · intro h
    have hshort := shortForm_of_payWith h
    obtain ⟨receiver, amount, s, hreceiver, hamount, hread, rfl⟩ := payWith_eq_ok.mp h
    obtain ⟨hread', hnone⟩ := (payOptions_reads_iff rfl).mp hread
    refine ⟨hshort, ?_, hnone⟩
    rw [walletSendCommand, if_pos hshort]
    exact payWith_eq_ok.mpr ⟨receiver, amount, s, hreceiver, hamount, hread', rfl⟩
  · rintro ⟨hshort, h, hnone⟩
    rw [walletSendCommand, if_pos hshort] at h
    obtain ⟨receiver, amount, s, hreceiver, hamount, hread, rfl⟩ := payWith_eq_ok.mp h
    exact payWith_eq_ok.mpr ⟨receiver, amount, s, hreceiver, hamount,
      (payOptions_reads_iff rfl).mpr ⟨hread, hnone⟩, rfl⟩

/-- The short form with everything spelled out. -/
def longForm (receiver amount : String) (options : List String) : List String :=
  ["--wallet", "wallet.json", "--to", receiver, "--amount", amount] ++ options ++ ["--submit"]

/-- The flag is for the error only. -/
theorem parseAmount_flag {value : Option String} {flag : String} {amount : UInt32}
    (h : parseAmount value flag = .ok amount) (other : String) :
    parseAmount value other = .ok amount := by
  cases value with
  | none => cases h
  | some text =>
      simp only [parseAmount, Except.bind_eq_ok, Except.mapError_eq_ok, Config.required] at h ⊢
      simpa using h

/-- The options in front put the long form where the short one starts. -/
theorem longOptions_read_longForm {receiver amount : String} {address : Address} {value : UInt32}
    (hreceiver : Keys.parseAddress (some receiver) = .ok address)
    (hamount : parseAmount (some amount) "--amount" = .ok value) (options : List String) :
    longOptions.read {} (longForm receiver amount options) =
      longOptions.read
        { walletPath := some "wallet.json", receiver := some address, amount := some value }
        (options ++ ["--submit"]) := by
  have hwallet : longOptions.ofName "--wallet" = some .wallet := by simp [longOptions]
  have hto : longOptions.ofName "--to" = some .receiver := by simp [longOptions]
  have hflag : longOptions.ofName "--amount" = some .amount := by simp [longOptions]
  refine (Options.read_option _ hwallet rfl).trans ?_
  refine (Options.read_option _ hto (Except.bind_eq_ok.mpr ⟨address, hreceiver, rfl⟩)).trans ?_
  exact Options.read_option _ hflag (Except.bind_eq_ok.mpr ⟨value, hamount, rfl⟩)

/-- `send` reads the short form as the long one. -/
theorem walletSendCommand_longForm {receiver amount : String} {options : List String}
    {payment : Payment} (hshort : shortForm (receiver :: amount :: options) = true)
    (h : walletSendCommand (receiver :: amount :: options) = .ok payment) :
    walletSendCommand (longForm receiver amount options) = .ok payment := by
  rw [walletSendCommand, if_pos hshort] at h
  obtain ⟨address, value, s, hreceiver, hamount, hread, rfl⟩ := payWith_eq_ok.mp h
  have hmatch : Matches address value {}
      { walletPath := some "wallet.json", receiver := some address, amount := some value } :=
    ⟨rfl, rfl, rfl, rfl, rfl, rfl, rfl⟩
  obtain ⟨t, ht, hrest⟩ := Options.Reads.simulated (R := Matches address value) Choice.set_none
    (fun hname h hset => h.set hname hset) (fun _ _ hword => nomatch hword) hread hmatch
  have hsubmit : longOptions.read t ["--submit"] = .ok { t with submit := true } := by
    simp [Options.read, longOptions]
  have hlong : shortForm (longForm receiver amount options) = false := by
    simp [longForm, shortForm, startsWithDash]
  rw [walletSendCommand, if_neg (by simp [hlong])]
  refine Except.bind_eq_ok.mpr ⟨_, (longOptions_read_longForm hreceiver
    (parseAmount_flag hamount _) options).trans ((hrest _).trans hsubmit), ?_⟩
  simp [LongChoice.payment, submitWalletPayment, ht.walletPath, ht.receiver, ht.amount, ht.fee,
    ht.nonce, ht.rpcAddr]

/-- **The three forms of a payment agree.**  `pay` accepts a command line
exactly if the short form of `send` accepts it without a nonce, as the same
payment, and what the short form accepts the long form accepts spelled out. -/
theorem payment_forms_agree (payment : Payment) :
    (∀ args, walletPayCommand args = .ok payment ↔
      shortForm args = true ∧ walletSendCommand args = .ok payment ∧ payment.nonce = none) ∧
    ∀ receiver amount options, shortForm (receiver :: amount :: options) = true →
      walletSendCommand (receiver :: amount :: options) = .ok payment →
      walletSendCommand (longForm receiver amount options) = .ok payment :=
  ⟨fun _ => walletPayCommand_eq_ok, fun _ _ _ => walletSendCommand_longForm⟩

/-- A payment with a fee. -/
theorem payment_forms_agree_of_fee :
    ∃ payment, walletPayCommand
        ["0000000000000000000000000000000000000A0B", "5", "--fee", "3"] = .ok payment ∧
      payment.fee = 3 ∧
      walletSendCommand (longForm "0000000000000000000000000000000000000A0B" "5" ["--fee", "3"]) =
        .ok payment := by
  have haccepted : ((walletPayCommand
      ["0000000000000000000000000000000000000A0B", "5", "--fee", "3"]).toOption.map
        Payment.fee) = some 3 := by decide +kernel
  obtain ⟨payment, hpayment, hfee⟩ := Option.map_eq_some_iff.mp haccepted
  have hpay := Except.eq_ok_of_toOption hpayment
  obtain ⟨hforms, hlong⟩ := payment_forms_agree payment
  obtain ⟨hshort, hsend, -⟩ := (hforms _).mp hpay
  exact ⟨payment, hpay, hfee, hlong _ _ _ hshort hsend⟩

end Wallet

end PaqusNode
