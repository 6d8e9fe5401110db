import Grug.Lifting

namespace Grug

variable {Addr Hash : Type}

/-- The code and account registries: the part of the store the dispatcher writes itself, the
contract namespaces being written only through the contracts it calls. -/
structure Registries (Addr Hash : Type) where
  codes : Hash → Option Binary
  accounts : Addr → Option (Account Addr Hash)

/-- The registries of a store. -/
def Store.registries (s : Store Addr Hash) : Registries Addr Hash := ⟨s.codes, s.accounts⟩

section RegistryMachine

variable [DecidableEq Addr] [DecidableEq Hash] (env : Env Addr Hash) (block : BlockInfo Hash)

/-- What a message from `sender` does to the registries, whatever the calls it makes do:
StoreCode adds its code under its hash where none is; Instantiate adds its account where its code
is stored and its address holds none, whether or not the message then fails; Transfer and Execute
leave them alone. -/
def Registries.step (r : Registries Addr Hash) (sender : Addr) :
    Message Addr Hash → Registries Addr Hash
  | .storeCode wasmByteCode =>
    if (r.codes (env.hash wasmByteCode)).isSome then r
    else { r with codes := Function.update r.codes (env.hash wasmByteCode) (some wasmByteCode) }
  | .instantiate codeHash _ salt _ admin =>
    if (r.codes codeHash).isSome ∧ (r.accounts (env.compute sender codeHash salt)).isNone then
      { r with
        accounts :=
          Function.update r.accounts (env.compute sender codeHash salt) (some ⟨codeHash, admin⟩) }
    else r
  | .transfer _ _ => r
  | .execute _ _ _ => r

/-- A code entry after one step was there before, or is StoreCode's bytes under their hash. -/
theorem Registries.step_codes {r : Registries Addr Hash} {sender : Addr} {msg : Message Addr Hash}
    {k : Hash} {code : Binary} (hk : (r.step env sender msg).codes k = some code) :
    r.codes k = some code ∨ env.hash code = k ∧ msg = .storeCode code := by
  cases msg with
  | storeCode c =>
    simp only [Registries.step] at hk
    split at hk
    · exact .inl hk
    · by_cases he : k = env.hash c
      · subst he
        simp only [Function.update_same, Option.some.injEq] at hk
        subst hk
        exact .inr ⟨rfl, rfl⟩
      · exact .inl (by simpa [he] using hk)
  | instantiate _ _ _ _ _ =>
    simp only [Registries.step] at hk
    split at hk <;> exact .inl hk
  | transfer _ _ => exact .inl hk
  | execute _ _ _ => exact .inl hk

/-- An account entry after one step was there before, or is Instantiate's, at the address
computed from the sender, the code hash and the salt. -/
theorem Registries.step_accounts {r : Registries Addr Hash} {sender : Addr}
    {msg : Message Addr Hash} {a : Addr} {acct : Account Addr Hash}
    (ha : (r.step env sender msg).accounts a = some acct) :
    r.accounts a = some acct ∨ ∃ m salt funds, msg = .instantiate acct.codeHash m salt funds acct.admin ∧
      a = env.compute sender acct.codeHash salt := by
  cases msg with
  | instantiate codeHash m salt funds admin =>
    simp only [Registries.step] at ha
    split at ha
    · by_cases he : a = env.compute sender codeHash salt
      · subst he
        simp only [Function.update_same, Option.some.injEq] at ha
        subst ha
        exact .inr ⟨m, salt, funds, rfl, rfl⟩
      · exact .inl (by simpa [he] using ha)
    · exact .inl ha
  | storeCode _ =>
    simp only [Registries.step] at ha
    split at ha <;> exact .inl ha
  | transfer _ _ => exact .inl ha
  | execute _ _ _ => exact .inl ha

/-- A handler that leaves the registries as they were. -/
def KeepsRegistries {α : Type} (m : Exec Addr Hash α) : Prop :=
  Exec.Preserves (fun h h' => h'.store.registries = h.store.registries) m

omit [DecidableEq Addr] [DecidableEq Hash] in
theorem KeepsRegistries.bind {α β : Type} {m : Exec Addr Hash α} {f : α → Exec Addr Hash β}
    (hm : KeepsRegistries m) (hf : ∀ a, KeepsRegistries (f a)) : KeepsRegistries (m >>= f) :=
  Exec.Preserves.bind (fun hab hbc => hbc.trans hab) hm hf

omit [DecidableEq Addr] [DecidableEq Hash] in
theorem keepsRegistries_pure {α : Type} (a : α) : KeepsRegistries (pure a : Exec Addr Hash α) :=
  Exec.Preserves.pure (R := fun h h' => h'.store.registries = h.store.registries) (fun _ => rfl) a

omit [DecidableEq Hash] in
theorem callContract_keepsRegistries (code : Binary) (address : Addr) (ctx : Context Addr Hash)
    (entry : EntryPoint Addr) : KeepsRegistries (callContract env code address ctx entry) := by
  intro h
  unfold callContract
  split <;> rfl

omit [DecidableEq Hash] in
/-- The handlers that write neither registry keep them, whatever the contracts they call do. -/
theorem registriesRel (s : Addr) :
    CallRel env s (fun h h' : Host Addr Hash => h'.store.registries = h.store.registries) :=
  ⟨fun _ => rfl, fun h₁ h₂ => h₂.trans h₁,
    fun _ _ _ _ h _ _ => callContract_keepsRegistries env _ _ _ _ h⟩

theorem _storeCode_registries (sender : Addr) (code : Binary) (h : Host Addr Hash) :
    (_storeCode env code h).2.store.registries = h.store.registries.step env sender (.storeCode code) := by
  rw [_storeCode_apply]
  split <;> simp_all [Registries.step, Store.registries, Store.saveCode]

theorem _instantiate_registries (sender : Addr) (codeHash : Hash) (msg salt : Binary)
    (funds : Coins) (admin : Option Addr) (h : Host Addr Hash) :
    (_instantiate env block sender codeHash msg salt funds admin h).2.store.registries =
      h.store.registries.step env sender (.instantiate codeHash msg salt funds admin) := by
  by_cases hr : h.store.codes codeHash = none ∨
    (h.store.accounts (env.compute sender codeHash salt)).isSome
  · obtain ⟨e, hi⟩ := _instantiate_of_not_ready env block sender codeHash msg salt funds admin hr
    rw [hi, Registries.step, if_neg]
    rcases hr with hr | hr
    · simp [Store.registries, hr]
    · simp [Store.registries, Option.isSome_iff_ne_none.mp hr]
  obtain ⟨code, hc⟩ := Option.ne_none_iff_exists'.mp (not_or.mp hr).1
  have ha : h.store.accounts (env.compute sender codeHash salt) = none := by
    simpa using (not_or.mp hr).2
  rw [_instantiate_of_ready env block sender codeHash msg salt funds admin hc ha,
    KeepsRegistries.bind (transferFunds_lift block (registriesRel env sender) _ _) (fun _ =>
      KeepsRegistries.bind (callContract_keepsRegistries env _ _ _ _) fun _ => keepsRegistries_pure _) _,
    Registries.step, if_pos (by simp [Store.registries, hc, ha])]
  rfl

/-- Every message moves the registries by exactly their own step, whatever the bank and the
contracts it calls do. -/
theorem processMsg_registries (sender : Addr) (msg : Message Addr Hash) (h : Host Addr Hash) :
    (processMsg env block sender msg h).2.store.registries = h.store.registries.step env sender msg := by
  cases msg with
  | transfer «to» coins =>
    rw [processMsg, transfer, (logged_frame _ _ _ _ h).2.1]
    exact _transfer_lift block (registriesRel env sender) _ _ h
  | storeCode code =>
    rw [processMsg, storeCode, (logged_frame _ _ _ _ h).2.1]
    exact _storeCode_registries env sender code h
  | instantiate codeHash msg salt funds admin =>
    rw [processMsg, instantiate, (logged_frame _ _ _ _ h).2.1]
    exact _instantiate_registries env block sender codeHash msg salt funds admin h
  | execute contract msg funds =>
    rw [processMsg, execute, (logged_frame _ _ _ _ h).2.1]
    exact _execute_lift block (registriesRel env sender) _ _ _ h

/-- Instantiate is not atomic: once the code is found and the address is free, the account is
registered whatever follows, so a message that then fails in its funds transfer or in the new
contract's instantiate call still leaves the account behind. -/
theorem processMsg_instantiate_registers (sender : Addr) (codeHash : Hash) (msg salt : Binary)
    (funds : Coins) (admin : Option Addr) {h : Host Addr Hash} {code : Binary}
    (hc : h.store.codes codeHash = some code)
    (ha : h.store.accounts (env.compute sender codeHash salt) = none) :
    (processMsg env block sender (.instantiate codeHash msg salt funds admin) h).2.store.accounts
      (env.compute sender codeHash salt) = some ⟨codeHash, admin⟩ := by
  have hr := congrArg Registries.accounts (processMsg_registries env block sender
    (.instantiate codeHash msg salt funds admin) h)
  simp only [Store.registries] at hr
  simp [hr, Registries.step, Store.registries, hc, ha]

theorem processMsg_instantiate_registers_failed_transfer :
    let env : Env Nat Nat := ⟨List.length, fun a c _ => a + c, fun _ => .ok (),
      fun _ _ _ s => (s.contracts 0, .ok (.ok ()))⟩
    let h : Host Nat Nat :=
      ⟨⟨none, fun k => if k = 0 then some [] else none, fun _ => none, fun _ _ => none⟩, [], []⟩
    let r := processMsg env ⟨0, 0, 0⟩ 1
      (.instantiate 0 [] [] (Coins.fromCoin ⟨"uatom", ⟨5, by decide⟩⟩) none) h
    h.store.codes 0 = some [] ∧ h.store.accounts (env.compute 1 0 []) = none ∧
      r.1.isOk = false ∧ r.2.store.accounts (env.compute 1 0 []) = some ⟨0, none⟩ :=
  ⟨rfl, rfl, rfl, processMsg_instantiate_registers _ ⟨0, 0, 0⟩ 1 0 [] [] _ none rfl rfl⟩

/-- Over every run the registries evolve as their own machine, fed the messages in order: what a
run leaves in the code and account registries depends only on the registries it started from, the
messages, the code digest and the address derivation, never on what the bank or the contracts do,
on the config, or on which messages failed. -/
theorem runMsgs_registries (h : Host Addr Hash) (msgs : List (Addr × Message Addr Hash)) :
    (runMsgs env block h msgs).store.registries =
      msgs.foldl (fun r m => r.step env m.1 m.2) h.store.registries := by
  induction msgs generalizing h with
  | nil => rfl
  | cons m rest ih =>
    obtain ⟨sender, msg⟩ := m
    rw [runMsgs, ih, List.foldl_cons, processMsg_registries]

/-- Over every run, each code entry was there before or is the bytes of a StoreCode message of the
run, under their hash; each account entry was there before or is an Instantiate message's, at the
address computed from that message's sender, code hash and salt, with its code hash and admin. -/
theorem runMsgs_provenance (h : Host Addr Hash) (msgs : List (Addr × Message Addr Hash)) :
    (∀ k code, (runMsgs env block h msgs).store.codes k = some code →
      h.store.codes k = some code ∨ env.hash code = k ∧ ∃ s, (s, .storeCode code) ∈ msgs) ∧
    (∀ a acct, (runMsgs env block h msgs).store.accounts a = some acct →
      h.store.accounts a = some acct ∨
        ∃ s msg salt funds, (s, .instantiate acct.codeHash msg salt funds acct.admin) ∈ msgs ∧
          a = env.compute s acct.codeHash salt) := by
  induction msgs generalizing h with
  | nil => exact ⟨fun _ _ hk => .inl hk, fun _ _ ha => .inl ha⟩
  | cons m rest ih =>
    obtain ⟨s, msg⟩ := m
    have hr := processMsg_registries env block s msg h
    obtain ⟨ihc, iha⟩ := ih (processMsg env block s msg h).2
    refine ⟨fun k code hk => ?_, fun a acct ha => ?_⟩
    · rcases ihc k code hk with hk | ⟨hh, s', hm⟩
      · have hk : (h.store.registries.step env s msg).codes k = some code := by rw [← hr]; exact hk
        rcases Registries.step_codes env hk with hk | ⟨hh, rfl⟩
        exacts [.inl hk, .inr ⟨hh, s, List.mem_cons_self _ _⟩]
      · exact .inr ⟨hh, s', List.mem_cons_of_mem _ hm⟩
    · rcases iha a acct ha with ha | ⟨s', m, salt, funds, hm, rfl⟩
      · have ha : (h.store.registries.step env s msg).accounts a = some acct := by
          rw [← hr]; exact ha
        rcases Registries.step_accounts env ha with ha | ⟨m, salt, funds, rfl, rfl⟩
        exacts [.inl ha, .inr ⟨s, m, salt, funds, List.mem_cons_self _ _, rfl⟩]
      · exact .inr ⟨s', m, salt, funds, List.mem_cons_of_mem _ hm, rfl⟩

end RegistryMachine

end Grug
