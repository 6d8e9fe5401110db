import Grug.Lifting

namespace Grug

variable {Addr Hash : Type}

section Targets

/-- From `h` to `h'`: every account entry stays, the config stays, and every call added is one
the store of `h'` accounts for. -/
structure Targets (h h' : Host Addr Hash) : Prop where
  accounts : ∀ a acct, h.store.accounts a = some acct → h'.store.accounts a = some acct
  config : h'.store.config = h.store.config
  calls : ∃ new, h'.calls = h.calls ++ new ∧ ∀ x ∈ new, CallTarget h'.store x

theorem CallTarget.mono {s s' : Store Addr Hash} {x : Call Addr Hash} (hx : CallTarget s x)
    (ha : ∀ a acct, s.accounts a = some acct → s'.accounts a = some acct)
    (hc : s'.config = s.config) : CallTarget s' x := by
  obtain ⟨acct, hacct⟩ := Option.isSome_iff_exists.mp hx.1
  exact ⟨by simp [ha _ _ hacct], fun msg he => hc ▸ hx.2 msg he⟩

theorem Targets.refl (h : Host Addr Hash) : Targets h h :=
  ⟨fun _ _ ha => ha, rfl, [], by simp, by simp⟩

theorem Targets.trans {h₁ h₂ h₃ : Host Addr Hash} (t₁ : Targets h₁ h₂) (t₂ : Targets h₂ h₃) :
    Targets h₁ h₃ := by
  obtain ⟨n₁, e₁, p₁⟩ := t₁.calls
  obtain ⟨n₂, e₂, p₂⟩ := t₂.calls
  refine ⟨fun a x ha => t₂.accounts a x (t₁.accounts a x ha), t₂.config.trans t₁.config, n₁ ++ n₂,
    by rw [e₂, e₁, List.append_assoc], fun x hx => ?_⟩
  rcases List.mem_append.mp hx with hx | hx
  · exact (p₁ x hx).mono t₂.accounts t₂.config
  · exact p₂ x hx

theorem Targets.of_eq {h h₁ h₂ : Host Addr Hash} (t : Targets h h₁) (hs : h₂.store = h₁.store)
    (hc : h₂.calls = h₁.calls) : Targets h h₂ := by
  obtain ⟨st, cs, lg⟩ := h₂
  simp only at hs hc
  subst hs hc
  exact ⟨t.accounts, t.config, t.calls⟩

variable [DecidableEq Addr] (env : Env Addr Hash) (block : BlockInfo Hash)

/-- A contract call adds one call, the one it makes, and writes only a substore. -/
theorem callContract_targets (code : Binary) (address : Addr) (ctx : Context Addr Hash)
    (entry : EntryPoint Addr) {h : Host Addr Hash} (hx : CallTarget h.store ⟨address, ctx, entry⟩) :
    Targets h (callContract env code address ctx entry h).2 := by
  unfold callContract
  split
  · exact Targets.refl h
  · exact ⟨fun _ _ ha => ha, rfl, [_], rfl, by simpa using hx⟩

/-- Creating an account where none is keeps every account entry. -/
theorem targets_setAccount (h : Host Addr Hash) (address : Addr) (acct : Account Addr Hash)
    (ha : h.store.accounts address = none) :
    Targets h { h with store := h.store.setAccount address (some acct) } := by
  refine ⟨fun a x hx => ?_, rfl, [], by simp, by simp⟩
  have hac : a ≠ address := fun he => by simp [he, ha] at hx
  simpa [Store.setAccount, hac] using hx

variable [DecidableEq Hash]

theorem processMsg_targets (sender : Addr) (msg : Message Addr Hash) :
    Exec.Preserves Targets (processMsg env block sender msg) :=
  processMsg_lift block
    ⟨Targets.refl, Targets.trans, fun _ _ _ _ _ _ hx => callContract_targets env _ _ _ _ hx⟩
    (fun h _ _ ha _ => targets_setAccount h _ _ ha)
    (fun _ _ _ => ⟨fun _ _ ha => ha, rfl, [], by simp, by simp⟩)
    (fun _ _ _ => Targets.of_eq) msg

theorem runMsgs_targets (h : Host Addr Hash) (msgs : List (Addr × Message Addr Hash)) :
    Targets h (runMsgs env block h msgs) := by
  induction msgs generalizing h with
  | nil => exact Targets.refl h
  | cons m rest ih => exact (processMsg_targets env block m.1 m.2 h).trans (ih _)

/-- Over every run, every contract call lands on an address that holds an account in the store the
run ends with, and every call of the transfer entry point lands on the bank that store's config
names: the dispatcher never runs code at an address that was never registered, and never hands a
transfer to anything but the bank. -/
theorem runMsgs_calls_registered (h : Host Addr Hash) (msgs : List (Addr × Message Addr Hash)) :
    ∃ new, (runMsgs env block h msgs).calls = h.calls ++ new ∧
      ∀ x ∈ new, CallTarget (runMsgs env block h msgs).store x :=
  (runMsgs_targets env block h msgs).calls

end Targets

end Grug
