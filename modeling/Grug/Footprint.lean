import Grug.Lifting

namespace Grug

variable {Addr Hash : Type}

section Footprint

/-- What handling a message from `s` may do to a host: keep the config, add only calls made on
behalf of `s` under that config, and change only the substores of the contracts it calls. -/
structure Footprint (s : Addr) (h h' : Host Addr Hash) : Prop where
  config : h'.store.config = h.store.config
  calls : ∃ new, h'.calls = h.calls ++ new ∧ (∀ x ∈ new, OnBehalfOf h.store.config s x) ∧
    ∀ a, (∀ x ∈ new, x.address ≠ a) → h'.store.contracts a = h.store.contracts a

variable {s : Addr}

theorem Footprint.refl (h : Host Addr Hash) : Footprint s h h :=
  ⟨rfl, [], by simp, by simp, fun _ _ => rfl⟩

theorem Footprint.trans {h₁ h₂ h₃ : Host Addr Hash} (f₁ : Footprint s h₁ h₂)
    (f₂ : Footprint s h₂ h₃) : Footprint s h₁ h₃ := by
  obtain ⟨n₁, e₁, p₁, c₁⟩ := f₁.calls
  obtain ⟨n₂, e₂, p₂, c₂⟩ := f₂.calls
  refine ⟨f₂.config.trans f₁.config, n₁ ++ n₂, by rw [e₂, e₁, List.append_assoc], ?_, ?_⟩
  · intro x hx
    rcases List.mem_append.mp hx with hx | hx
    exacts [p₁ x hx, f₁.config ▸ p₂ x hx]
  · intro a ha
    rw [c₂ a fun x hx => ha x (List.mem_append_right _ hx),
      c₁ a fun x hx => ha x (List.mem_append_left _ hx)]

/-- A footprint reads only the store and the calls it ends with. -/
theorem Footprint.of_eq {h h₁ h₂ : Host Addr Hash} (f : Footprint s h h₁)
    (hs : h₂.store = h₁.store) (hc : h₂.calls = h₁.calls) : Footprint s h h₂ := by
  obtain ⟨st, cs, lg⟩ := h₂
  simp only at hs hc
  subst hs hc
  exact ⟨f.config, f.calls⟩

/-- A step that writes neither the config, the calls nor a contract's substore. -/
theorem Footprint.of_frame {h h' : Host Addr Hash} (hc : h'.store.config = h.store.config)
    (hcalls : h'.calls = h.calls) (hs : h'.store.contracts = h.store.contracts) :
    Footprint s h h' :=
  ⟨hc, [], by simp [hcalls], by simp, fun a _ => by rw [hs]⟩

/-- What a run of `msgs` may do to a host: the calls it adds come in one group a message, each
made on behalf of that message's sender under the config, and only the called contracts'
substores change; the config stays. -/
structure RunFootprint (msgs : List (Addr × Message Addr Hash)) (h h' : Host Addr Hash) : Prop where
  calls : ∃ groups : List (List (Call Addr Hash)), h'.calls = h.calls ++ groups.flatten ∧
    List.Forall₂ (fun (m : Addr × Message Addr Hash) cs => ∀ x ∈ cs, OnBehalfOf h.store.config m.1 x)
      msgs groups ∧
    ∀ a, (∀ x ∈ groups.flatten, x.address ≠ a) → h'.store.contracts a = h.store.contracts a
  config : h'.store.config = h.store.config

theorem RunFootprint.nil (h : Host Addr Hash) : RunFootprint [] h h :=
  ⟨⟨[], by simp, .nil, fun _ _ => rfl⟩, rfl⟩

/-- A message's footprint followed by the rest of the run's is the whole run's. -/
theorem RunFootprint.cons {m : Message Addr Hash} {rest : List (Addr × Message Addr Hash)}
    {h h₁ h₂ : Host Addr Hash} (f : Footprint s h h₁) (r : RunFootprint rest h₁ h₂) :
    RunFootprint ((s, m) :: rest) h h₂ := by
  obtain ⟨new, e₁, p₁, c₁⟩ := f.calls
  obtain ⟨groups, e₂, p₂, c₂⟩ := r.calls
  refine ⟨⟨new :: groups, by rw [e₂, e₁, List.flatten_cons, List.append_assoc],
    .cons p₁ (f.config ▸ p₂), fun a ha => ?_⟩, r.config.trans f.config⟩
  rw [c₂ a fun x hx => ha x (List.mem_append_right _ hx),
    c₁ a fun x hx => ha x (List.mem_append_left _ hx)]

variable [DecidableEq Addr] (env : Env Addr Hash) (block : BlockInfo Hash)

/-- A contract call made on behalf of `s` changes only the substore it is built over. -/
theorem callContract_footprint (code : Binary) (address : Addr) (ctx : Context Addr Hash)
    (entry : EntryPoint Addr) {h : Host Addr Hash}
    (hx : OnBehalfOf h.store.config s ⟨address, ctx, entry⟩) :
    Footprint s h (callContract env code address ctx entry h).2 := by
  unfold callContract
  split
  · exact Footprint.refl h
  · exact ⟨rfl, [_], rfl, by simpa using hx, fun a ha =>
      Function.update_noteq (fun e => ha _ (List.mem_singleton_self _) e.symm) _ _⟩

variable [DecidableEq Hash]

/-- Every message keeps within the footprint of its sender and its kind. -/
theorem processMsg_footprint (sender : Addr) (msg : Message Addr Hash) :
    Exec.Preserves (Footprint sender) (processMsg env block sender msg) :=
  processMsg_lift block
    ⟨Footprint.refl, Footprint.trans, fun _ _ _ _ _ hx _ => callContract_footprint env _ _ _ _ hx⟩
    (fun _ _ _ _ _ => Footprint.of_frame rfl rfl rfl) (fun _ _ _ => Footprint.of_frame rfl rfl rfl)
    (fun _ _ _ => Footprint.of_eq) msg

theorem runMsgs_runFootprint (h : Host Addr Hash) (msgs : List (Addr × Message Addr Hash)) :
    RunFootprint msgs h (runMsgs env block h msgs) := by
  induction msgs generalizing h with
  | nil => exact .nil h
  | cons m rest ih =>
    obtain ⟨s, m⟩ := m
    exact .cons (processMsg_footprint env block s m h) (ih _)

/-- Over every run, the calls made come in one group a message, in the messages' order, and every
call of a message's group is made on behalf of that message's sender: the transfer entry point of
the bank the config names, moving the sender's own funds, or an instantiate or execute entry point
that sees the sender as its sender. -/
theorem runMsgs_calls_on_behalf (h : Host Addr Hash) (msgs : List (Addr × Message Addr Hash)) :
    ∃ groups : List (List (Call Addr Hash)),
      (runMsgs env block h msgs).calls = h.calls ++ groups.flatten ∧
      List.Forall₂ (fun (m : Addr × Message Addr Hash) cs => ∀ x ∈ cs, OnBehalfOf h.store.config m.1 x)
        msgs groups :=
  let ⟨groups, hc, hg, _⟩ := (runMsgs_runFootprint env block h msgs).calls
  ⟨groups, hc, hg⟩

/-- Over every run, the config is unchanged and the substore of a contract that no call of the run
addressed is unchanged. -/
theorem runMsgs_frame (h : Host Addr Hash) (msgs : List (Addr × Message Addr Hash)) :
    (runMsgs env block h msgs).store.config = h.store.config ∧
      ∃ new, (runMsgs env block h msgs).calls = h.calls ++ new ∧
        ∀ a, (∀ x ∈ new, x.address ≠ a) →
          (runMsgs env block h msgs).store.contracts a = h.store.contracts a :=
  let f := runMsgs_runFootprint env block h msgs
  let ⟨groups, hc, _, hs⟩ := f.calls
  ⟨f.config, groups.flatten, hc, hs⟩

end Footprint

end Grug
