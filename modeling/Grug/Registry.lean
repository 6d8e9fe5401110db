import Grug.Lifting

namespace Grug

variable {Addr Hash : Type}

section Registry

variable (env : Env Addr Hash)

/-- Every code is stored under its own hash, and every account's code is stored. -/
structure RegistryInv (s : Store Addr Hash) : Prop where
  codes : ∀ k code, s.codes k = some code → env.hash code = k
  accounts : ∀ a acct, s.accounts a = some acct → (s.codes acct.codeHash).isSome

/-- What one call may do to the registries: keep every entry it found, and keep the invariant. -/
structure RegistryStep (s s' : Store Addr Hash) : Prop where
  codes : ∀ k code, s.codes k = some code → s'.codes k = some code
  accounts : ∀ a acct, s.accounts a = some acct → s'.accounts a = some acct
  inv : RegistryInv env s → RegistryInv env s'

variable {env}

theorem RegistryStep.refl (s : Store Addr Hash) : RegistryStep env s s :=
  ⟨fun _ _ h => h, fun _ _ h => h, id⟩

theorem RegistryStep.trans {s₁ s₂ s₃ : Store Addr Hash} (h₁ : RegistryStep env s₁ s₂)
    (h₂ : RegistryStep env s₂ s₃) : RegistryStep env s₁ s₃ :=
  ⟨fun k c h => h₂.codes k c (h₁.codes k c h), fun a x h => h₂.accounts a x (h₁.accounts a x h),
    h₂.inv ∘ h₁.inv⟩

/-- A store whose registries are those of `s` is a registry step from `s`. -/
theorem RegistryStep.of_eq {s s' : Store Addr Hash} (hc : s'.codes = s.codes)
    (ha : s'.accounts = s.accounts) : RegistryStep env s s' :=
  ⟨fun _ _ h => hc ▸ h, fun _ _ h => ha ▸ h,
    fun hi => ⟨fun k c h => hi.codes k c (hc ▸ h), fun a x h => hc ▸ hi.accounts a x (ha ▸ h)⟩⟩

/-- Storing code under its own hash where no code is stored is a registry step. -/
theorem registryStep_saveCode [DecidableEq Hash] {s : Store Addr Hash} {code : Binary}
    (h : s.codes (env.hash code) = none) : RegistryStep env s (s.saveCode (env.hash code) code) := by
  refine ⟨fun k c hk => ?_, fun _ _ ha => ha, fun hi => ⟨fun k c hk => ?_, fun a x ha => ?_⟩⟩
  · have : k ≠ env.hash code := fun he => by simp_all
    simpa [Store.saveCode, this] using hk
  · by_cases he : k = env.hash code
    · subst he; simp_all [Store.saveCode]
    · exact hi.codes k c (by simpa [Store.saveCode, he] using hk)
  · by_cases he : x.codeHash = env.hash code
    · simp [Store.saveCode, he]
    · simpa [Store.saveCode, he] using hi.accounts a x ha

/-- Creating an account where none is, for stored code, is a registry step. -/
theorem registryStep_setAccount [DecidableEq Addr] {s : Store Addr Hash} {address : Addr}
    {acct : Account Addr Hash}
    (h : s.accounts address = none) (hc : (s.codes acct.codeHash).isSome) :
    RegistryStep env s (s.setAccount address (some acct)) := by
  refine ⟨fun _ _ hk => hk, fun a x ha => ?_, fun hi => ⟨hi.codes, fun a x ha => ?_⟩⟩
  · have : a ≠ address := fun he => by simp_all
    simpa [Store.setAccount, this] using ha
  · by_cases he : a = address
    · subst he; simp_all [Store.setAccount]
    · exact hi.accounts a x (by simpa [Store.setAccount, he] using ha)

/-- A contract call changes only the substore of the contract it is built over. -/
theorem callContract_registryStep [DecidableEq Addr] (code : Binary) (address : Addr)
    (ctx : Context Addr Hash) (entry : EntryPoint Addr) (h : Host Addr Hash) :
    RegistryStep env h.store (callContract env code address ctx entry h).2.store := by
  unfold callContract
  split
  · exact RegistryStep.refl h.store
  · exact RegistryStep.of_eq rfl rfl

/-- Every message, succeeding or failing, moves the store one registry step on. -/
theorem processMsg_registryStep [DecidableEq Addr] [DecidableEq Hash] (block : BlockInfo Hash)
    (sender : Addr) (msg : Message Addr Hash) :
    Exec.Preserves (fun h h' => RegistryStep env h.store h'.store) (processMsg env block sender msg) :=
  processMsg_lift block
    ⟨fun h => RegistryStep.refl h.store, RegistryStep.trans,
      fun _ _ _ _ h _ _ => callContract_registryStep _ _ _ _ h⟩
    (fun _ _ _ ha hc => registryStep_setAccount ha hc) (fun _ _ hc => registryStep_saveCode hc)
    (fun _ _ _ r hs _ => hs ▸ r) msg

theorem runMsgs_registryStep [DecidableEq Addr] [DecidableEq Hash] (block : BlockInfo Hash)
    (h : Host Addr Hash) (msgs : List (Addr × Message Addr Hash)) :
    RegistryStep env h.store (runMsgs env block h msgs).store := by
  induction msgs generalizing h with
  | nil => exact RegistryStep.refl h.store
  | cons m rest ih => exact (processMsg_registryStep block m.1 m.2 h).trans (ih _)

/-- Over every run of the dispatcher from a store whose codes sit under their hashes and whose
accounts name stored code: every state reached keeps both properties, the next call (any sender,
any message, succeeding or failing) changes or removes no registry entry, and storing code that is
already stored or instantiating at an address that holds an account fails and writes nothing. -/
theorem registry_invariant [DecidableEq Addr] [DecidableEq Hash] (env : Env Addr Hash)
    (block : BlockInfo Hash) (h₀ : Host Addr Hash) (hinv : RegistryInv env h₀.store)
    (pre : List (Addr × Message Addr Hash)) (sender : Addr) :
    let h := runMsgs env block h₀ pre
    RegistryInv env h.store ∧
    (∀ msg, RegistryStep env h.store (processMsg env block sender msg h).2.store) ∧
    (∀ code, (h.store.codes (env.hash code)).isSome →
      (processMsg env block sender (.storeCode code) h).1.isOk = false ∧
      (processMsg env block sender (.storeCode code) h).2.store = h.store) ∧
    (∀ codeHash msg salt funds admin, (h.store.accounts (env.compute sender codeHash salt)).isSome →
      (processMsg env block sender (.instantiate codeHash msg salt funds admin) h).1.isOk = false ∧
      (processMsg env block sender (.instantiate codeHash msg salt funds admin) h).2.store = h.store) := by
  intro h
  refine ⟨(runMsgs_registryStep block h₀ pre).inv hinv, fun msg => processMsg_registryStep block sender msg h,
    fun code hc => ?_, fun codeHash msg salt funds admin ha => ?_⟩
  · have hs : _storeCode env code h = (.error (.codeExists (env.hash code)), h) := by
      rw [_storeCode_apply, if_pos hc]
    simp [processMsg, storeCode, logged_error hs, Except.isOk, Except.toBool]
  · obtain ⟨e, hi⟩ := _instantiate_of_not_ready env block sender codeHash msg salt funds admin (.inr ha)
    simp [processMsg, instantiate, logged_error hi, Except.isOk, Except.toBool]

theorem registry_invariant_after_store_code :
    let env : Env Nat Nat := ⟨List.length, fun a c _ => a + c, fun _ => .ok (),
      fun _ _ _ s => (s.contracts 0, .ok (.ok ()))⟩
    let s₀ : Store Nat Nat := ⟨none, fun k => if k = 3 then some [1, 2, 3] else none,
      fun a => if a = 9 then some ⟨3, none⟩ else none, fun _ _ => none⟩
    RegistryInv env s₀ ∧
    let h := runMsgs env ⟨0, 0, 0⟩ ⟨s₀, [], []⟩ [(1, .storeCode [7])]
    RegistryInv env h.store ∧
    (∀ msg, RegistryStep env h.store (processMsg env ⟨0, 0, 0⟩ 1 msg h).2.store) ∧
    (∀ code, (h.store.codes (env.hash code)).isSome →
      (processMsg env ⟨0, 0, 0⟩ 1 (.storeCode code) h).1.isOk = false ∧
      (processMsg env ⟨0, 0, 0⟩ 1 (.storeCode code) h).2.store = h.store) ∧
    (∀ codeHash msg salt funds admin, (h.store.accounts (env.compute 1 codeHash salt)).isSome →
      (processMsg env ⟨0, 0, 0⟩ 1 (.instantiate codeHash msg salt funds admin) h).1.isOk = false ∧
      (processMsg env ⟨0, 0, 0⟩ 1 (.instantiate codeHash msg salt funds admin) h).2.store =
        h.store) := by
  intro env s₀
  have hinv : RegistryInv env s₀ :=
    ⟨fun k code hk => by
        by_cases h3 : k = 3 <;> simp_all [s₀, env]
        subst hk
        rfl,
      fun a acct ha => by
        by_cases h9 : a = 9 <;> simp_all [s₀]
        subst ha
        rfl⟩
  exact ⟨hinv, registry_invariant env ⟨0, 0, 0⟩ ⟨s₀, [], []⟩ hinv [(1, .storeCode [7])] 1⟩

end Registry

end Grug
