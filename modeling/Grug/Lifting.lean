import Grug.Execute

namespace Grug

variable {Addr Hash : Type}

section Lifting

/-- A call made on behalf of `s` under the config `config`: the called contract sees itself as the
contract, and it is either the bank that config names, called by no sender with its transfer entry
point moving funds of `s`, or an instantiate or execute entry point called with `s` as the
sender. -/
def OnBehalfOf (config : Option (Config Addr)) (s : Addr) (x : Call Addr Hash) : Prop :=
  x.ctx.contract = x.address ∧
    ((x.ctx.sender = none ∧ (∃ cfg, config = some cfg ∧ x.address = cfg.bank) ∧
        ∃ «to» coins, x.entry = .transfer ⟨s, «to», coins⟩) ∨
      (x.ctx.sender = some s ∧ ∃ msg, x.entry = .instantiate msg ∨ x.entry = .execute msg))

/-- A call the store `s` accounts for: its address holds an account, and a call of the transfer
entry point is at the bank the config names. -/
def CallTarget (s : Store Addr Hash) (x : Call Addr Hash) : Prop :=
  (s.accounts x.address).isSome ∧
    ∀ msg, x.entry = .transfer msg → ∃ cfg, s.config = some cfg ∧ x.address = cfg.bank

variable [DecidableEq Addr]

/-- What a relation between hosts needs for the handlers of a message from `s` to keep it: it is
reflexive and transitive, and it holds across every contract call those handlers make, each made
on behalf of `s` at a target the store it is made from accounts for. -/
structure CallRel (env : Env Addr Hash) (s : Addr) (R : Host Addr Hash → Host Addr Hash → Prop) :
    Prop where
  refl : ∀ h, R h h
  trans : ∀ {h₁ h₂ h₃}, R h₁ h₂ → R h₂ h₃ → R h₁ h₃
  call : ∀ code address ctx entry (h : Host Addr Hash),
    OnBehalfOf h.store.config s ⟨address, ctx, entry⟩ → CallTarget h.store ⟨address, ctx, entry⟩ →
      R h (callContract env code address ctx entry h).2

/-- `R` holds across creating an account where none is, for stored code, as `_instantiate` does. -/
def AccountWrite (R : Host Addr Hash → Host Addr Hash → Prop) : Prop :=
  ∀ (h : Host Addr Hash) address (acct : Account Addr Hash), h.store.accounts address = none →
    (h.store.codes acct.codeHash).isSome → R h { h with store := h.store.setAccount address (some acct) }

/-- `R` reads only the store and the calls of the host it ends at. -/
def IgnoresLogs (R : Host Addr Hash → Host Addr Hash → Prop) : Prop :=
  ∀ h h₁ h₂ : Host Addr Hash, R h h₁ → h₂.store = h₁.store → h₂.calls = h₁.calls → R h h₂

/-- `R` holds across storing code under its hash where none is, as `_storeCode` does. -/
def CodeWrite [DecidableEq Hash] (env : Env Addr Hash) (R : Host Addr Hash → Host Addr Hash → Prop) :
    Prop :=
  ∀ (h : Host Addr Hash) code, h.store.codes (env.hash code) = none →
    R h { h with store := h.store.saveCode (env.hash code) code }

variable {env : Env Addr Hash} (block : BlockInfo Hash) {s : Addr}
  {R : Host Addr Hash → Host Addr Hash → Prop}

/-- `_transfer` calls the bank of the config it loaded, after loading the bank's account and its
code, with the transfer of the sender's coins. -/
theorem _transfer_lift (hR : CallRel env s R) («to» : Addr) (coins : Coins) :
    Exec.Preserves R (_transfer env block s «to» coins) := by
  intro h
  refine Exec.step_load hR.refl fun cfg hcfg => Exec.step_load hR.refl fun acct hacct =>
    Exec.step_load hR.refl fun _ _ => ?_
  exact Exec.step_bind (R := R) hR.trans (hR.call _ _ _ _ _ ⟨rfl, .inl ⟨rfl, ⟨cfg, hcfg, rfl⟩, _, _, rfl⟩⟩
    ⟨by simp [hacct], fun _ _ => ⟨cfg, hcfg, rfl⟩⟩) fun _ _ _ => hR.refl _

theorem transferFunds_lift (hR : CallRel env s R) («to» : Addr) (funds : Coins) :
    Exec.Preserves R (transferFunds env block s «to» funds) :=
  Exec.Preserves.ite (Exec.Preserves.bind (R := R) hR.trans (_transfer_lift block hR _ _) fun _ =>
    Exec.Preserves.pure hR.refl _) (Exec.Preserves.pure hR.refl _)

/-- A contract call writes no account. -/
theorem callContract_accounts (code : Binary) (address : Addr) (ctx : Context Addr Hash)
    (entry : EntryPoint Addr) (h : Host Addr Hash) :
    (callContract env code address ctx entry h).2.store.accounts = h.store.accounts := by
  unfold callContract
  split <;> rfl

variable (env) in
/-- The funds transfer writes no account. -/
theorem transferFunds_accounts («from» «to» : Addr) (funds : Coins) (h : Host Addr Hash) :
    (transferFunds env block «from» «to» funds h).2.store.accounts = h.store.accounts :=
  transferFunds_lift (R := fun h h' => h'.store.accounts = h.store.accounts) block
    ⟨fun _ => rfl, fun h₁ h₂ => h₂.trans h₁, fun _ _ _ _ h _ _ => callContract_accounts _ _ _ _ h⟩
    _ _ h

/-- `_instantiate` creates the account, moves the funds, and calls the new contract, which the
funds transfer leaves registered. -/
theorem _instantiate_lift (hR : CallRel env s R) (hacct : AccountWrite R) (codeHash : Hash)
    (msg salt : Binary) (funds : Coins) (admin : Option Addr) :
    Exec.Preserves R (_instantiate env block s codeHash msg salt funds admin) := by
  intro h
  by_cases hr : h.store.codes codeHash = none ∨ (h.store.accounts (env.compute s codeHash salt)).isSome
  · obtain ⟨e, hi⟩ := _instantiate_of_not_ready env block s codeHash msg salt funds admin hr
    rw [hi]
    exact hR.refl h
  obtain ⟨code, hc⟩ := Option.ne_none_iff_exists'.mp (not_or.mp hr).1
  have ha : h.store.accounts (env.compute s codeHash salt) = none := by simpa using (not_or.mp hr).2
  rw [_instantiate_of_ready env block s codeHash msg salt funds admin hc ha]
  set c := env.compute s codeHash salt
  set h₂ : Host Addr Hash := { h with store := h.store.setAccount c (some ⟨codeHash, admin⟩) }
  refine hR.trans (hacct h c _ ha (by simp [hc]))
    (Exec.step_bind (R := R) hR.trans (transferFunds_lift block hR _ _ h₂) fun _ h₃ ht => ?_)
  have hc₃ : h₃.store.accounts c = some ⟨codeHash, admin⟩ := by
    have := congrFun (transferFunds_accounts env block s c funds h₂) c
    rw [ht] at this
    simpa [h₂, Store.setAccount] using this
  exact Exec.step_bind (R := R) hR.trans
    (hR.call _ _ _ _ _ ⟨rfl, .inr ⟨rfl, _, .inl rfl⟩⟩ ⟨by simp [hc₃], fun _ he => by cases he⟩)
    fun _ _ _ => hR.refl _

/-- `_execute` moves the funds, then calls the contract once its account is loaded. -/
theorem _execute_lift (hR : CallRel env s R) (contract : Addr) (msg : Binary) (funds : Coins) :
    Exec.Preserves R (_execute env block contract s msg funds) := by
  intro h
  refine Exec.step_bind (R := R) hR.trans (transferFunds_lift block hR _ _ h) fun _ h₁ _ =>
    Exec.step_load hR.refl fun acct hacct => Exec.step_load hR.refl fun _ _ => ?_
  exact hR.call _ _ _ _ _ ⟨rfl, .inr ⟨rfl, _, .inr rfl⟩⟩ ⟨by simp [hacct], fun _ he => by cases he⟩

variable [DecidableEq Hash]

omit [DecidableEq Addr] in
theorem _storeCode_lift (refl : ∀ h, R h h) (hcode : CodeWrite env R) (code : Binary) :
    Exec.Preserves R (_storeCode env code) := by
  intro h
  rw [_storeCode_apply]
  split
  · exact refl h
  · exact hcode h code (by simpa using ‹¬(h.store.codes (env.hash code)).isSome = true›)

omit [DecidableEq Addr] [DecidableEq Hash] in
/-- `logged` keeps a relation its inner handler keeps, if the relation is blind to the log. -/
theorem logged_lift (hlog : IgnoresLogs R) {α : Type} {inner : Exec Addr Hash α}
    (hi : Exec.Preserves R inner) (fields : α → List (String × LogValue Addr Hash)) (ok failed : String) :
    Exec.Preserves R (logged inner fields ok failed) := fun h =>
  let ⟨_, hs, hc, _⟩ := logged_frame inner fields ok failed h
  hlog _ _ _ (hi h) hs hc

/-- A relation kept by every handler, and blind to the log, is kept by every message. -/
theorem processMsg_lift (hR : CallRel env s R) (hacct : AccountWrite R) (hcode : CodeWrite env R)
    (hlog : IgnoresLogs R) (msg : Message Addr Hash) :
    Exec.Preserves R (processMsg env block s msg) := by
  cases msg with
  | transfer _ _ => exact logged_lift hlog (_transfer_lift block hR _ _) _ _ _
  | storeCode _ => exact logged_lift hlog (_storeCode_lift hR.refl hcode _) _ _ _
  | instantiate _ _ _ _ _ => exact logged_lift hlog (_instantiate_lift block hR hacct _ _ _ _ _) _ _ _
  | execute _ _ _ => exact logged_lift hlog (_execute_lift block hR _ _ _) _ _ _

end Lifting

end Grug
