import Grug.Lifting

namespace Grug

variable {Addr Hash : Type}

section Telemetry

/-- A handler that writes no log line of its own. -/
def KeepsLogs {α : Type} (m : Exec Addr Hash α) : Prop :=
  Exec.Preserves (fun h h' => h'.logs = h.logs) m

/-- The line `logged` adds for an outcome of its inner handler. -/
def outcomeLine {α : Type} (fields : α → List (String × LogValue Addr Hash)) (ok failed : String) :
    Except (Error Addr Hash) α → LogLine Addr Hash
  | .ok a => ⟨.info, fields a, ok⟩
  | .error e => ⟨.warn, [("err", .error e)], failed⟩

/-- Over an inner handler that writes no log line, `logged` writes exactly one: the outcome's. -/
theorem logged_logs {α : Type} {inner : Exec Addr Hash α} (hi : KeepsLogs inner)
    (fields : α → List (String × LogValue Addr Hash)) (ok failed : String) (h : Host Addr Hash) :
    (logged inner fields ok failed h).2.logs = h.logs ++ [outcomeLine fields ok failed (inner h).1] := by
  have hl := hi h
  rcases hi' : inner h with ⟨_ | a, h'⟩ <;> rw [hi'] at hl <;> simp only at hl <;>
    simp [logged, hi', Exec.log, outcomeLine, hl]

/-- The one line `logged` writes is an info line exactly on success, and a failure's line records
the error it returns. -/
theorem logged_one_line {α : Type} {inner : Exec Addr Hash α} (hi : KeepsLogs inner)
    (fields : α → List (String × LogValue Addr Hash)) (ok failed : String) (h : Host Addr Hash) :
    ∃ line, (logged inner fields ok failed h).2.logs = h.logs ++ [line] ∧
      (line.level = .info ↔ (logged inner fields ok failed h).1.isOk = true) ∧
      ∀ e, (logged inner fields ok failed h).1 = .error e → line.fields = [("err", .error e)] := by
  obtain ⟨hr, -⟩ := logged_frame inner fields ok failed h
  refine ⟨_, logged_logs hi fields ok failed h, ?_, fun e he => ?_⟩ <;> rw [hr] at * <;>
    cases hi' : (inner h).1 <;>
    simp_all [outcomeLine, Functor.map, Except.map, Except.isOk, Except.toBool]

variable [DecidableEq Addr] (env : Env Addr Hash) (block : BlockInfo Hash)

/-- The handlers of a message write no log line of their own: a contract call writes none. -/
theorem logsRel (s : Addr) :
    CallRel env s (fun h h' : Host Addr Hash => h'.logs = h.logs) := by
  refine ⟨fun _ => rfl, fun h₁ h₂ => h₂.trans h₁, fun _ _ _ _ h _ _ => ?_⟩
  unfold callContract
  split <;> rfl

variable [DecidableEq Hash]

/-- Every message writes exactly one log line: an info line when it succeeds, and otherwise a
warning that records the error it returns. -/
theorem processMsg_logs (sender : Addr) (msg : Message Addr Hash) (h : Host Addr Hash) :
    ∃ line, (processMsg env block sender msg h).2.logs = h.logs ++ [line] ∧
      (line.level = .info ↔ (processMsg env block sender msg h).1.isOk = true) ∧
      ∀ e, (processMsg env block sender msg h).1 = .error e → line.fields = [("err", .error e)] := by
  cases msg with
  | transfer _ _ => exact logged_one_line (_transfer_lift block (logsRel env sender) _ _) _ _ _ h
  | storeCode _ =>
    have hcode : CodeWrite env fun h h' : Host Addr Hash => h'.logs = h.logs := fun _ _ _ => rfl
    exact logged_one_line (_storeCode_lift (logsRel env sender).refl hcode _) _ _ _ h
  | instantiate _ _ _ _ _ =>
    exact logged_one_line
      (_instantiate_lift block (logsRel env sender) (fun _ _ _ _ _ => rfl) _ _ _ _ _) _ _ _ h
  | execute _ _ _ => exact logged_one_line (_execute_lift block (logsRel env sender) _ _ _) _ _ _ h

/-- The results of the messages of a run, each on the host the previous one left. -/
def runResults (h : Host Addr Hash) : List (Addr × Message Addr Hash) → List (Except (Error Addr Hash) Unit)
  | [] => []
  | (sender, msg) :: rest =>
    (processMsg env block sender msg h).1 :: runResults (processMsg env block sender msg h).2 rest

/-- Over every run, the log grows by one line a message, in order: an info line for each message
that succeeded and a warning recording the error of each that failed, so no error goes
unlogged. -/
theorem runMsgs_logs (h : Host Addr Hash) (msgs : List (Addr × Message Addr Hash)) :
    ∃ lines, (runMsgs env block h msgs).logs = h.logs ++ lines ∧
      List.Forall₂ (fun r (line : LogLine Addr Hash) => (line.level = .info ↔ r.isOk = true) ∧
        ∀ e, r = .error e → line.fields = [("err", .error e)]) (runResults env block h msgs) lines := by
  induction msgs generalizing h with
  | nil => exact ⟨[], by simp [runMsgs], .nil⟩
  | cons m rest ih =>
    obtain ⟨line, hl, hlev, herr⟩ := processMsg_logs env block m.1 m.2 h
    obtain ⟨lines, hls, hf⟩ := ih (processMsg env block m.1 m.2 h).2
    refine ⟨line :: lines, ?_, .cons ⟨hlev, herr⟩ hf⟩
    rw [runMsgs, hls, hl, List.append_assoc]
    rfl

end Telemetry

end Grug
