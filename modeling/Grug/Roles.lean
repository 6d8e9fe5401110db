import Grug.Telemetry

namespace Grug

variable {Addr Hash : Type}

section Plans

/-- The call `_transfer` makes of the bank named in the config: its transfer entry point with
`msg`, the bank called as itself and by no sender. -/
def bankCall (block : BlockInfo Hash) (cfg : Config Addr) (msg : TransferMsg Addr) : Call Addr Hash :=
  ⟨cfg.bank, { block, contract := cfg.bank, sender := none, simulate := none }, .transfer msg⟩

/-- The call `_instantiate` and `_execute` make of contract `c` for sender `s`: over the substore
of `c`, with `c` as the context's contract and `s` as its sender. -/
def contractCall (block : BlockInfo Hash) (c s : Addr) (entry : EntryPoint Addr) : Call Addr Hash :=
  ⟨c, { block, contract := c, sender := some s, simulate := none }, entry⟩

/-- The calls of a transfer of `msg` when nothing fails: the bank's, if the config names one. -/
def bankCalls (block : BlockInfo Hash) (config : Option (Config Addr)) (msg : TransferMsg Addr) :
    List (Call Addr Hash) :=
  match config with
  | some cfg => [bankCall block cfg msg]
  | none => []

/-- The calls of moving the funds of `msg` and then making the calls `k`, as `_instantiate` and
`_execute` do, when nothing fails: `k` alone for no funds, and otherwise the bank's transfer first,
or nothing at all without a bank, the transfer then failing before `k`. -/
def withFunds (block : BlockInfo Hash) (config : Option (Config Addr)) (msg : TransferMsg Addr)
    (k : List (Call Addr Hash)) : List (Call Addr Hash) :=
  if !msg.coins.isEmpty then
    match config with
    | some cfg => bankCall block cfg msg :: k
    | none => []
  else k

/-- The calls a message from `sender` is meant to make under the config `config`, in order, when
nothing fails: Transfer the bank's transfer of the sender's coins; StoreCode none; Instantiate and
Execute the bank's transfer of the funds to the contract, then the contract's own entry point
with the sender as its sender. -/
def Message.plan (env : Env Addr Hash) (block : BlockInfo Hash) (config : Option (Config Addr))
    (sender : Addr) : Message Addr Hash → List (Call Addr Hash)
  | .transfer «to» coins => bankCalls block config ⟨sender, «to», coins⟩
  | .storeCode _ => []
  | .instantiate codeHash msg salt funds _ =>
    withFunds block config ⟨sender, env.compute sender codeHash salt, funds⟩
      [contractCall block (env.compute sender codeHash salt) sender (.instantiate msg)]
  | .execute contract msg funds =>
    withFunds block config ⟨sender, contract, funds⟩ [contractCall block contract sender (.execute msg)]

/-- From `h` to the outcome `o` of a handler: the config kept, and the calls of `h` followed by a
prefix of the calls `p`, all of `p` when the handler succeeded. -/
structure Follows (p : List (Call Addr Hash)) (h : Host Addr Hash) {α : Type}
    (o : Except (Error Addr Hash) α × Host Addr Hash) : Prop where
  config : o.2.store.config = h.store.config
  calls : ∃ new, o.2.calls = h.calls ++ new ∧ new <+: p ∧ ∀ a, o.1 = .ok a → new = p

variable {p q : List (Call Addr Hash)} {h : Host Addr Hash} {α β : Type}

/-- A handler that fails at once follows every plan. -/
theorem Follows.of_error (e : Error Addr Hash) : Follows p h ((.error e, h) : Except _ α × _) :=
  ⟨rfl, [], by simp, List.nil_prefix, fun _ he => by cases he⟩

theorem Follows.of_host {h₁ : Host Addr Hash} {o : Except (Error Addr Hash) α × Host Addr Hash}
    (f : Follows p h₁ o) (hc : h₁.store.config = h.store.config) (hcalls : h₁.calls = h.calls) :
    Follows p h o :=
  ⟨f.config.trans hc, hcalls ▸ f.calls⟩

/-- A handler that follows `p`, then one that follows `q` from where it succeeded, follow
`p ++ q` together; a failure of the first ends the calls within `p`. -/
theorem Follows.bind {m : Exec Addr Hash α} {f : α → Exec Addr Hash β} (hm : Follows p h (m h))
    (hf : ∀ a h', m h = (.ok a, h') → h'.store.config = h.store.config → Follows q h' (f a h')) :
    Follows (p ++ q) h ((m >>= f) h) := by
  obtain ⟨hc₁, n₁, e₁, p₁, o₁⟩ := hm
  rw [Exec.bind_apply]
  rcases hmh : m h with ⟨_ | a, h'⟩ <;> rw [hmh] at hc₁ e₁ o₁
  · exact ⟨hc₁, n₁, e₁, p₁.trans (List.prefix_append p q), fun _ he => by cases he⟩
  · obtain ⟨hc₂, n₂, e₂, p₂, o₂⟩ := hf a h' hmh hc₁
    obtain rfl := o₁ a rfl
    exact ⟨hc₂.trans hc₁, n₁ ++ n₂, by rw [e₂, e₁, List.append_assoc],
      (List.prefix_append_right_inj n₁).mpr p₂, fun b hb => by rw [o₂ b hb]⟩

theorem Follows.of_pure (b : β) (h : Host Addr Hash) : Follows [] h ((pure b : Exec Addr Hash β) h) :=
  ⟨rfl, [], by simp, List.nil_prefix, fun _ _ => rfl⟩

theorem Follows.bind_pure {m : Exec Addr Hash α} (hm : Follows p h (m h)) (b : β) :
    Follows p h ((m >>= fun _ => pure b) h) :=
  List.append_nil p ▸ hm.bind fun _ h' _ _ => .of_pure b h'

/-- A load makes no call and fails or hands its value on. -/
theorem Follows.load_bind {ty : String} {read : Store Addr Hash → Option α}
    {f : α → Exec Addr Hash β} (hf : ∀ a, read h.store = some a → Follows p h (f a h)) :
    Follows p h ((Exec.load ty read >>= f) h) := by
  cases hr : read h.store with
  | none => exact Exec.bind_error (Exec.load_of_none ty read hr) ▸ .of_error _
  | some a => exact Exec.bind_ok (Exec.load_of_some ty read hr) ▸ hf a hr

/-- `logged` passes on its inner handler's calls and whether it succeeded. -/
theorem logged_follows {inner : Exec Addr Hash α} (hi : Follows p h (inner h))
    (fields : α → List (String × LogValue Addr Hash)) (ok failed : String) :
    Follows p h (logged inner fields ok failed h) := by
  obtain ⟨hr, hs, hcalls, -⟩ := logged_frame inner fields ok failed h
  obtain ⟨hc, new, e, hp, o⟩ := hi
  refine ⟨by rw [hs, hc], new, by rw [hcalls, e], hp, fun _ hok => ?_⟩
  rw [hr] at hok
  rcases hi' : (inner h).1 with _ | b
  · simp [hi', Functor.map, Except.map] at hok
  · exact o b hi'

variable [DecidableEq Addr] (env : Env Addr Hash) (block : BlockInfo Hash)

theorem callContract_follows (code : Binary) (address : Addr) (ctx : Context Addr Hash)
    (entry : EntryPoint Addr) (h : Host Addr Hash) :
    Follows [⟨address, ctx, entry⟩] h (callContract env code address ctx entry h) := by
  unfold callContract
  split
  · exact .of_error _
  · exact ⟨rfl, [_], rfl, List.prefix_refl _, fun _ _ => rfl⟩

/-- Without a config, `_transfer` fails at its first load. -/
theorem _transfer_of_no_config («from» «to» : Addr) (coins : Coins) {h : Host Addr Hash}
    (hcfg : h.store.config = none) : ∃ e, _transfer env block «from» «to» coins h = (.error e, h) :=
  ⟨_, Exec.bind_error (Exec.load_of_none _ _ hcfg)⟩

/-- `_transfer` calls the bank the config names, or fails with no call. -/
theorem _transfer_follows («from» «to» : Addr) (coins : Coins) (h : Host Addr Hash) :
    Follows (bankCalls block h.store.config ⟨«from», «to», coins⟩) h
      (_transfer env block «from» «to» coins h) := by
  cases hcfg : h.store.config with
  | none =>
    obtain ⟨e, he⟩ := _transfer_of_no_config env block «from» «to» coins hcfg
    rw [he]
    exact .of_error e
  | some cfg =>
    unfold _transfer
    rw [Exec.bind_ok (Exec.load_of_some _ _ hcfg)]
    exact Follows.load_bind fun _ _ => Follows.load_bind fun _ _ =>
      Follows.bind_pure (callContract_follows env _ _ _ _ h) _

/-- Moving the funds and then running `k`: the bank's transfer first for non-empty funds, and a
failed transfer ends the handler before `k`. -/
theorem transferFunds_bind_follows {k : Unit → Exec Addr Hash α} («from» «to» : Addr) (funds : Coins)
    (hk : ∀ h', h'.store.config = h.store.config → Follows q h' (k () h')) :
    Follows (withFunds block h.store.config ⟨«from», «to», funds⟩ q) h
      ((transferFunds env block «from» «to» funds >>= k) h) := by
  dsimp only [transferFunds, withFunds]
  cases hf : funds.isEmpty with
  | true =>
    simp only [Bool.not_true, Bool.false_eq_true, ↓reduceIte]
    rw [Exec.bind_ok (Exec.pure_apply () h)]
    exact hk h rfl
  | false =>
    simp only [Bool.not_false, ↓reduceIte]
    cases hcfg : h.store.config with
    | none =>
      obtain ⟨e, he⟩ := _transfer_of_no_config env block «from» «to» funds hcfg
      rw [Exec.bind_error (Exec.bind_error he)]
      exact .of_error e
    | some cfg =>
      have ht := _transfer_follows env block «from» «to» funds h
      rw [hcfg] at ht
      exact (Follows.bind_pure ht ()).bind fun _ h' _ hc => hk h' hc

/-- `_execute` moves the funds, then calls the contract's execute entry point for the sender. -/
theorem _execute_follows (contract sender : Addr) (msg : Binary) (funds : Coins) (h : Host Addr Hash) :
    Follows (withFunds block h.store.config ⟨sender, contract, funds⟩
        [contractCall block contract sender (.execute msg)]) h
      (_execute env block contract sender msg funds h) :=
  transferFunds_bind_follows env block sender contract funds fun h' _ =>
    Follows.load_bind fun _ _ => Follows.load_bind fun _ _ => callContract_follows env _ _ _ _ h'

/-- `_instantiate` fails with no call unless the code is stored and the address free; it then
moves the funds and calls the new contract's instantiate entry point for the sender. -/
theorem _instantiate_follows (sender : Addr) (codeHash : Hash) (msg salt : Binary) (funds : Coins)
    (admin : Option Addr) (h : Host Addr Hash) :
    Follows (withFunds block h.store.config ⟨sender, env.compute sender codeHash salt, funds⟩
        [contractCall block (env.compute sender codeHash salt) sender (.instantiate msg)]) h
      (_instantiate env block sender codeHash msg salt funds admin h) := by
  by_cases hr : h.store.codes codeHash = none ∨
    (h.store.accounts (env.compute sender codeHash salt)).isSome
  · obtain ⟨e, hi⟩ := _instantiate_of_not_ready env block sender codeHash msg salt funds admin hr
    rw [hi]
    exact .of_error e
  obtain ⟨code, hc⟩ := Option.ne_none_iff_exists'.mp (not_or.mp hr).1
  have ha : h.store.accounts (env.compute sender codeHash salt) = none := by
    simpa using (not_or.mp hr).2
  rw [_instantiate_of_ready env block sender codeHash msg salt funds admin hc ha]
  set h₂ : Host Addr Hash :=
    { h with store := h.store.setAccount (env.compute sender codeHash salt) (some ⟨codeHash, admin⟩) }
  refine Follows.of_host (transferFunds_bind_follows (h := h₂) env block _ _ _ fun h' _ => ?_) rfl rfl
  exact Follows.bind_pure (callContract_follows env _ _ _ _ h') _

variable [DecidableEq Hash]

omit [DecidableEq Addr] in
theorem _storeCode_follows (code : Binary) (h : Host Addr Hash) :
    Follows [] h (_storeCode env code h) := by
  rw [_storeCode_apply]
  split
  · exact .of_error _
  · exact ⟨rfl, [], by simp, List.nil_prefix, fun _ _ => rfl⟩

/-- Every message makes a prefix of the calls it is meant to make, in their order, and all of them
when it succeeds. -/
theorem processMsg_follows (sender : Addr) (msg : Message Addr Hash) (h : Host Addr Hash) :
    Follows (msg.plan env block h.store.config sender) h (processMsg env block sender msg h) := by
  cases msg with
  | transfer _ _ => exact logged_follows (_transfer_follows env block _ _ _ h) _ _ _
  | storeCode _ => exact logged_follows (_storeCode_follows env _ h) _ _ _
  | instantiate _ _ _ _ _ => exact logged_follows (_instantiate_follows env block _ _ _ _ _ _ h) _ _ _
  | execute _ _ _ => exact logged_follows (_execute_follows env block _ _ _ _ h) _ _ _

/-- The log line of a successful Execute names the message's sender as the contract. -/
theorem processMsg_execute_log (s c : Addr) (msg : Binary) (f : Coins) (h : Host Addr Hash)
    (hs : (processMsg env block s (.execute c msg f) h).1 = .ok ()) :
    (processMsg env block s (.execute c msg f) h).2.logs.getLast? =
      some ⟨.info, [("contract", .addr s)], "executed contract"⟩ := by
  obtain ⟨hr, -, -, hok, -⟩ := logged_frame (_execute env block c s msg f)
    (fun _ => [("contract", .addr s)]) "executed contract" "failed to execute contract" h
  rw [map_unit_eq] at hr
  exact hok () (hr.symm.trans hs)

theorem processMsg_execute_logs_sender :
    let env : Env Nat Nat := ⟨fun _ => 0, fun s c _ => s + c + 10, fun _ => .ok (),
      fun _ _ _ s => (s.contracts 0, .ok (.ok ()))⟩
    let store : Store Nat Nat := ⟨some ⟨5⟩, fun k => if k = 0 then some [] else none,
      fun a => if a = 2 ∨ a = 5 then some ⟨0, none⟩ else none, fun _ _ => none⟩
    let r := processMsg env ⟨0, 0, 0⟩ 1 (.execute 2 [] Coins.empty) ⟨store, [], []⟩
    r.1 = .ok () ∧ r.2.calls = [contractCall ⟨0, 0, 0⟩ 2 1 (.execute [])] ∧
      r.2.logs = [⟨.info, [("contract", .addr 1)], "executed contract"⟩] := by
  intro env store r
  have hr : r.1 = .ok () := rfl
  obtain ⟨-, new, hc, -, hok⟩ : Follows _ ⟨store, [], []⟩ r :=
    processMsg_follows env ⟨0, 0, 0⟩ 1 (.execute 2 [] Coins.empty) ⟨store, [], []⟩
  obtain ⟨line, hl, -⟩ : ∃ line, r.2.logs = [] ++ [line] ∧ _ :=
    processMsg_logs env ⟨0, 0, 0⟩ 1 (.execute 2 [] Coins.empty) ⟨store, [], []⟩
  have hlast : r.2.logs.getLast? = _ := processMsg_execute_log env ⟨0, 0, 0⟩ 1 2 [] Coins.empty _ hr
  rw [hl] at hlast ⊢
  refine ⟨hr, by rw [hc, hok () hr]; rfl, ?_⟩
  simpa using hlast

end Plans

end Grug
