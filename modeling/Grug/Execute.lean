import Grug.App

namespace Grug

variable {Addr Hash : Type} [DecidableEq Addr] [DecidableEq Hash]

section Handlers

variable (env : Env Addr Hash) (block : BlockInfo Hash)

open Exec

/-- `?` on the VM's result, then `.into_std_result()?` on the contract's own result. -/
def intoResult : Except VmError (Except String Unit) → Except (Error Addr Hash) Unit
  | .error e => .error (.vm e)
  | .ok (.error msg) => .error (.std (.generic msg))
  | .ok (.ok ()) => .ok ()

/-- Build an instance from `code` over the substore `[CONTRACT_NAMESPACE, address]` and call one
of its entry points: `build_from_code(..)?`, then `call_*(&ctx, ..)?.into_std_result()?`. -/
def callContract (code : Binary) (address : Addr) (ctx : Context Addr Hash)
    (entry : EntryPoint Addr) : Exec Addr Hash Unit := fun h =>
  match env.build code with
  | .error e => (.error (.vm e), h)
  | .ok () =>
    let out := env.call code ctx entry h.store
    (intoResult out.2,
      { h with store := h.store.setContract address out.1, calls := h.calls ++ [⟨address, ctx, entry⟩] })

/-- The wrapper each handler puts around its inner function: on success an info line with the
fields taken from the result, on failure a warning with the error, which is returned
unchanged. -/
def logged {α : Type} (inner : Exec Addr Hash α) (fields : α → List (String × LogValue Addr Hash))
    (ok failed : String) : Exec Addr Hash Unit := fun h =>
  match inner h with
  | (.ok a, h') => log ⟨.info, fields a, ok⟩ h'
  | (.error e, h') => (.error e, (log ⟨.warn, [("err", .error e)], failed⟩ h').2)

omit [DecidableEq Addr] [DecidableEq Hash] in
theorem logged_error {α : Type} {inner : Exec Addr Hash α} {h h' : Host Addr Hash}
    {e : Error Addr Hash} (hi : inner h = (.error e, h')) (fields : α → List (String × LogValue Addr Hash))
    (ok failed : String) :
    logged inner fields ok failed h =
      (.error e, { h' with logs := h'.logs ++ [⟨.warn, [("err", .error e)], failed⟩] }) := by
  simp [logged, hi, log]

omit [DecidableEq Addr] [DecidableEq Hash] in
/-- `logged` adds one log line and nothing else: the inner result is returned with its value
dropped, an error unchanged; the line is the info line with the value's fields on success, and
the warning with the error on failure. -/
theorem logged_frame {α : Type} (inner : Exec Addr Hash α)
    (fields : α → List (String × LogValue Addr Hash)) (ok failed : String) (h : Host Addr Hash) :
    (logged inner fields ok failed h).1 = (fun _ => ()) <$> (inner h).1 ∧
    (logged inner fields ok failed h).2.store = (inner h).2.store ∧
    (logged inner fields ok failed h).2.calls = (inner h).2.calls ∧
    (∀ a, (inner h).1 = .ok a →
      (logged inner fields ok failed h).2.logs.getLast? = some ⟨.info, fields a, ok⟩) ∧
    (∀ e, (inner h).1 = .error e →
      (logged inner fields ok failed h).2.logs.getLast? = some ⟨.warn, [("err", .error e)], failed⟩) := by
  rcases hi : inner h with ⟨_ | a, h'⟩ <;>
    simp [logged, hi, log, Functor.map, Except.map]

omit [DecidableEq Addr] [DecidableEq Hash] in
theorem map_unit_eq {ε : Type} (r : Except ε Unit) : (fun _ => ()) <$> r = r := by
  cases r <;> rfl

def _transfer («from» «to» : Addr) (coins : Coins) : Exec Addr Hash (TransferMsg Addr) := do
  let cfg ← load "Config" (·.config)
  let account ← load "Account" (·.accounts cfg.bank)
  let wasmByteCode ← load "Binary" (·.codes account.codeHash)
  let ctx : Context Addr Hash := { block, contract := cfg.bank, sender := none, simulate := none }
  let msg : TransferMsg Addr := { «from», «to», coins }
  callContract env wasmByteCode cfg.bank ctx (.transfer msg)
  pure msg

def transfer («from» «to» : Addr) (coins : Coins) : Exec Addr Hash Unit :=
  logged (_transfer env block «from» «to» coins)
    (fun msg => [("from", .addr msg.«from»), ("to", .addr msg.«to»), ("coins", .coins msg.coins)])
    "transferred coins" "failed to transfer coins"

/-- `// make the coin transfers`, as `_instantiate` and `_execute` both do it: `_transfer` only
for non-empty funds. -/
def transferFunds («from» «to» : Addr) (funds : Coins) : Exec Addr Hash Unit :=
  if !funds.isEmpty then do
    let _ ← _transfer env block «from» «to» funds
  else pure ()

def _storeCode (wasmByteCode : Binary) : Exec Addr Hash Hash := do
  let codeHash := env.hash wasmByteCode
  ensure (!(← read (·.codes codeHash)).isSome) (Error.codeExists codeHash : Error Addr Hash)
  modifyStore (·.saveCode codeHash wasmByteCode)
  pure codeHash

def storeCode (wasmByteCode : Binary) : Exec Addr Hash Unit :=
  logged (_storeCode env wasmByteCode) (fun codeHash => [("code_hash", .hash codeHash)])
    "stored code" "failed to store code"

omit [DecidableEq Addr] in
/-- `_store_code` fails, writing nothing, when code is stored under the hash; otherwise it stores
the code under its hash. -/
theorem _storeCode_apply (code : Binary) (h : Host Addr Hash) :
    _storeCode env code h =
      if (h.store.codes (env.hash code)).isSome then (.error (.codeExists (env.hash code)), h)
      else (.ok (env.hash code), { h with store := h.store.saveCode (env.hash code) code }) := by
  cases hc : h.store.codes (env.hash code) <;>
    simp [_storeCode, Exec.bind_apply, Exec.read, Exec.modifyStore, ensure, hc, liftM,
      MonadLiftT.monadLift, MonadLift.monadLift]

/-- `ACCOUNTS.update`: run `action` on the current value, then save what it returns (`None`
removes the entry); a failed action writes nothing. -/
def updateAccount (address : Addr)
    (action : Option (Account Addr Hash) → Except (Error Addr Hash) (Option (Account Addr Hash))) :
    Exec Addr Hash (Option (Account Addr Hash)) := fun h =>
  match action (h.store.accounts address) with
  | .error e => (.error e, h)
  | .ok new => (.ok new, { h with store := h.store.setAccount address new })

def _instantiate (sender : Addr) (codeHash : Hash) (msg salt : Binary) (funds : Coins)
    (admin : Option Addr) : Exec Addr Hash Addr := do
  let wasmByteCode ← load "Binary" (·.codes codeHash)
  let address := env.compute sender codeHash salt
  let _ ← updateAccount address fun maybeAcct => do
    ensure maybeAcct.isNone (.accountExists address)
    pure (some { codeHash, admin })
  transferFunds env block sender address funds
  let ctx : Context Addr Hash := { block, contract := address, sender := some sender, simulate := none }
  callContract env wasmByteCode address ctx (.instantiate msg)
  pure ctx.contract

def instantiate (sender : Addr) (codeHash : Hash) (msg salt : Binary) (funds : Coins)
    (admin : Option Addr) : Exec Addr Hash Unit :=
  logged (_instantiate env block sender codeHash msg salt funds admin)
    (fun address => [("address", .addr address)]) "instantiated contract" "failed to instantiate contract"

omit [DecidableEq Hash] in
/-- The account update of `_instantiate` fails, writing nothing, when an account exists at the
address, and otherwise creates the account. -/
theorem updateAccount_new_apply (address : Addr) (acct : Account Addr Hash) (h : Host Addr Hash) :
    updateAccount address (fun maybeAcct => do
        ensure maybeAcct.isNone (.accountExists address)
        pure (some acct)) h =
      if (h.store.accounts address).isNone then
        (.ok (some acct), { h with store := h.store.setAccount address (some acct) })
      else (.error (.accountExists address), h) := by
  by_cases ha : (h.store.accounts address).isNone <;>
    simp [updateAccount, ensure, ha, bind, Except.bind, pure, Except.pure]

omit [DecidableEq Hash] in
/-- `_instantiate` fails before writing anything when the code is missing or an account is at the
address. -/
theorem _instantiate_of_not_ready (sender : Addr) (codeHash : Hash) (msg salt : Binary)
    (funds : Coins) (admin : Option Addr) {h : Host Addr Hash}
    (hr : h.store.codes codeHash = none ∨ (h.store.accounts (env.compute sender codeHash salt)).isSome) :
    ∃ e, _instantiate env block sender codeHash msg salt funds admin h = (.error e, h) := by
  unfold _instantiate
  cases hc : h.store.codes codeHash with
  | none => exact ⟨.std (.dataNotFound "Binary"), bind_error (by simp [load, hc])⟩
  | some code =>
    have ha := hr.resolve_left (by simp [hc])
    rw [bind_ok (load_of_some "Binary" (·.codes codeHash) hc)]
    refine ⟨.accountExists (env.compute sender codeHash salt), bind_error ?_⟩
    rw [updateAccount_new_apply, if_neg (by simpa [Option.isSome_iff_ne_none] using ha)]

omit [DecidableEq Hash] in
/-- With the code stored and no account at the address, `_instantiate` creates the account, then
moves the funds, calls the instantiate entry point of the new contract and returns its address. -/
theorem _instantiate_of_ready (sender : Addr) (codeHash : Hash) (msg salt : Binary) (funds : Coins)
    (admin : Option Addr) {h : Host Addr Hash} {code : Binary} (hc : h.store.codes codeHash = some code)
    (ha : h.store.accounts (env.compute sender codeHash salt) = none) :
    _instantiate env block sender codeHash msg salt funds admin h =
      (transferFunds env block sender (env.compute sender codeHash salt) funds >>= fun _ =>
        callContract env code (env.compute sender codeHash salt)
          { block, contract := env.compute sender codeHash salt, sender := some sender, simulate := none }
          (.instantiate msg) >>= fun _ => pure (env.compute sender codeHash salt))
        { h with
          store := h.store.setAccount (env.compute sender codeHash salt) (some ⟨codeHash, admin⟩) } := by
  unfold _instantiate
  rw [bind_ok (load_of_some "Binary" (·.codes codeHash) hc),
    bind_ok (by rw [updateAccount_new_apply, if_pos (by simp [ha])])]

omit [DecidableEq Hash] in
/-- A successful `_instantiate` returns the address computed from the sender, the code hash and the
salt. -/
theorem _instantiate_eq_ok {sender : Addr} {codeHash : Hash} {msg salt : Binary} {funds : Coins}
    {admin : Option Addr} {h h' : Host Addr Hash} {a : Addr}
    (hi : _instantiate env block sender codeHash msg salt funds admin h = (.ok a, h')) :
    a = env.compute sender codeHash salt := by
  obtain ⟨_, _, -, hi₁⟩ := bind_eq_ok hi
  obtain ⟨_, _, -, hi₂⟩ := bind_eq_ok hi₁
  obtain ⟨_, _, -, hi₃⟩ := bind_eq_ok hi₂
  obtain ⟨_, _, -, hi₄⟩ := bind_eq_ok hi₃
  simp only [pure_apply, Prod.mk.injEq, Except.ok.injEq] at hi₄
  exact hi₄.1.symm

def _execute (contract sender : Addr) (msg : Binary) (funds : Coins) : Exec Addr Hash Unit := do
  transferFunds env block sender contract funds
  let account ← load "Account" (·.accounts contract)
  let wasmByteCode ← load "Binary" (·.codes account.codeHash)
  let ctx : Context Addr Hash := { block, contract, sender := some sender, simulate := none }
  callContract env wasmByteCode contract ctx (.execute msg)

/-- `execute` takes its addresses in the order `contract, sender` and hands them to `_execute` as
`sender, contract`; its log line names its own `contract`. -/
def execute (contract sender : Addr) (msg : Binary) (funds : Coins) : Exec Addr Hash Unit :=
  logged (_execute env block sender contract msg funds) (fun _ => [("contract", .addr contract)])
    "executed contract" "failed to execute contract"

def processMsg (sender : Addr) : Message Addr Hash → Exec Addr Hash Unit
  | .transfer «to» coins => transfer env block sender «to» coins
  | .storeCode wasmByteCode => storeCode env wasmByteCode
  | .instantiate codeHash msg salt funds admin =>
    instantiate env block sender codeHash msg salt funds admin
  | .execute contract msg funds => execute env block sender contract msg funds

/-- Messages processed one after another, each on the host the previous one left, whether it
succeeded or failed. -/
def runMsgs (h : Host Addr Hash) : List (Addr × Message Addr Hash) → Host Addr Hash
  | [] => h
  | (sender, msg) :: rest => runMsgs (processMsg env block sender msg h).2 rest

end Handlers

end Grug
