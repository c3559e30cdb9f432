import KimchiWorkflows.Host.PackageManagerCommand

/-!
The outcome of a command is the first conclusion of its events, and nothing is left of it once it has one.
-/

namespace KimchiWorkflows.Host.PackageManagerCommand

open Json Stepping KimchiWorkflows.Host.SubagentProcess

variable {setup : CommandSetup} {events more : List CommandEvent} {event : CommandEvent} {command command' : Command}

theorem verdictAfter_concat (before events : List CommandEvent) (event : CommandEvent) :
    verdictAfter setup before (events ++ [event]) =
      (verdictAfter setup before events).or (conclusion setup (before ++ events) event) := by
  induction events generalizing before with
  | nil => simp [verdictAfter]
  | cons first rest ih =>
    rw [List.cons_append, verdictAfter, verdictAfter, ih, Option.or_assoc, List.append_assoc, List.singleton_append]

theorem verdict_concat (events : List CommandEvent) (event : CommandEvent) :
    verdict setup (events ++ [event]) = (verdict setup events).or (conclusion setup events event) :=
  verdictAfter_concat [] events event

theorem finish_settled (command : Command) (error : Option String)
    (result : Option WorkflowPackageManagerCommandResult) : (command.finish setup error result).settled =
      command.settled.or (some (match error, result with
        | some error, _ => .rejected error
        | none, some result => .resolved result
        | none, none => .rejected (setup.command ++ " ended without a result"))) := by
  unfold Command.finish
  cases hs : command.settled with
  | none => rfl
  | some outcome =>
    rw [Option.isSome_some, if_pos rfl, hs, Option.some_or]

theorem terminate_settled (command : Command) (timeout onAbort : Bool) (why : String) :
    (Command.terminate setup { command with timeout, onAbort } why).settled = command.settled := by
  simp only [Command.terminate]
  split_ifs <;> rfl

theorem settled_step (h : Recorded setup events command) (hg : Governed setup command)
    (hs : command.step setup event = some command') :
    command'.settled = command.settled.or (conclusion setup events event) := by
  have hr := h.reason
  cases event with
  | data pipe chunk =>
    have hnone : conclusion setup events (.data pipe chunk) = none := by
      cases hreason : stopReason setup events <;> simp [conclusion]
    simp only [Command.step] at hs
    split_ifs at hs
    cases hs
    rw [hnone, Option.or_none]
    cases pipe <;> rfl
  | failed error =>
    cases hs
    rw [finish_settled, hr]
    cases hreason : stopReason setup events <;> simp [conclusion, hreason]
  | close code =>
    simp only [Command.step] at hs
    cases hreason : stopReason setup events with
    | none =>
      rw [hreason] at hr
      simp only [hr, Option.isSome_none, Bool.false_and, Bool.false_eq_true, if_false, Option.some.injEq] at hs
      rw [← hs, finish_settled, h.stdout, h.stderr]
      simp [conclusion, hreason]
    | some reason =>
      rw [hreason] at hr
      simp only [hr, Option.isSome_some, Bool.true_and, Option.some.injEq] at hs
      split_ifs at hs with htree
      · rw [← hs]
        simp [conclusion, hreason, htree]
      · rw [← hs, finish_settled]
        simp [conclusion, hreason, htree]
  | timeout =>
    have hnone : conclusion setup events .timeout = none := by
      cases hreason : stopReason setup events <;> simp [conclusion]
    simp only [Command.step] at hs
    split_ifs at hs
    cases hs
    rw [terminate_settled, hnone, Option.or_none]
  | abort reason =>
    have hnone : conclusion setup events (.abort reason) = none := by
      cases hreason : stopReason setup events <;> simp [conclusion]
    simp only [Command.step] at hs
    split_ifs at hs
    cases hs
    rw [terminate_settled, hnone, Option.or_none]
  | forceKill =>
    have hnone : conclusion setup events .forceKill = none := by
      cases hreason : stopReason setup events <;> simp [conclusion]
    simp only [Command.step] at hs
    split_ifs at hs
    cases hs
    rw [hnone, Option.or_none]
    rfl
  | taskkilled killError =>
    simp only [Command.step] at hs
    split_ifs at hs with hk
    cases hs
    obtain ⟨reason, hreason⟩ : ∃ reason, stopReason setup events = some reason := by
      rw [← hr]
      apply Option.ne_none_iff_exists'.mp
      intro hn
      exact absurd ((hg.running hn).2.2.symm.trans hk) Bool.false_ne_true
    rw [hreason] at hr
    cases killError with
    | some why =>
      rw [finish_settled, hr]
      simp [conclusion, hreason, Command.killChild]
    | none =>
      rw [finish_settled, hr]
      simp [conclusion, hreason]

variable {signal : AbortSignal} {abortReason : String}

def refusal (abortReason : String) : AbortSignal → Option CommandOutcome
  | .aborted => some (.rejected abortReason)
  | _ => none

/-- What holds of a command at any moment: its outcome is the first conclusion of its events; until it has one,
something is pending that stops it or it was killed; and it is sent the signals of its platform, once it was stopped. -/
structure Supervised (setup : CommandSetup) (refused : Option CommandOutcome) (events : List CommandEvent)
    (command : Command) : Prop where
  outcome : command.settled = refused.or (verdict setup events)
  bounded : command.settled = none →
    command.timeout = true ∨ command.forceKill = true ∨ command.taskkill = true ∨ .sigkill ∈ command.signals
  signals : command.signals ≠ [] → stopReason setup events ≠ none ∧
    (¬Tree setup ∧ (command.signals = [.sigterm] ∨ command.signals = [.sigterm, .sigkill]) ∨
      Tree setup ∧ command.signals = [.sigkill])

theorem governed_run (h : Run (Command.step setup) Unconditional (runCommand abortReason signal) events command) :
    Recorded setup events command ∧ Governed setup command := by
  induction h with
  | nil =>
    have hout : ∀ pipe, outputOf setup pipe [] = [] := fun _ => sliceTail_nil _
    constructor
    · cases signal <;> exact ⟨rfl, (hout .stdout).symm, (hout .stderr).symm⟩
    · cases signal <;> refine ⟨?_, fun _ => ⟨rfl, rfl, rfl⟩, ?_, fun he => absurd rfl he, fun he => absurd rfl he⟩ <;>
        simp [runCommand]
  | snoc _ hs _ ih => exact ⟨recorded_step ih.1 ih.2 hs, governed_step ih.2 hs⟩

theorem settled_run (h : Run (Command.step setup) Unconditional (runCommand abortReason signal) events command) :
    command.settled = (refusal abortReason signal).or (verdict setup events) := by
  induction h with
  | nil => cases signal <;> rfl
  | snoc h hs _ ih =>
    obtain ⟨hr, hg⟩ := governed_run h
    rw [settled_step hr hg hs, ih, verdict_concat, Option.or_assoc]

/-- However its events fall, a command is supervised. -/
theorem supervised (h : Run (Command.step setup) Unconditional (runCommand abortReason signal) events command) :
    Supervised setup (refusal abortReason signal) events command := by
  obtain ⟨hr, hg⟩ := governed_run h
  refine ⟨settled_run h, ?_, ?_⟩
  · intro hn
    by_cases he : command.terminationError = none
    · exact .inl (hg.timed hn he)
    · by_cases ht : Tree setup
      · obtain ⟨-, ⟨-, hk⟩ | ⟨hsig, -⟩⟩ := hg.tree he ht
        · exact .inr (.inr (.inl (hk.resolve_right (absurd hn))))
        · exact .inr (.inr (.inr (by rw [hsig]; exact List.mem_singleton_self _)))
      · obtain ⟨-, ⟨-, hf⟩ | ⟨hsig, -⟩⟩ := hg.group he ht
        · exact .inr (.inl (hf.resolve_right (absurd hn)))
        · exact .inr (.inr (.inr (by rw [hsig]; simp)))
  · intro hsig
    have he : command.terminationError ≠ none := fun he => hsig (hg.running he).1
    refine ⟨hr.reason ▸ he, ?_⟩
    by_cases ht : Tree setup
    · obtain ⟨-, ⟨hnil, -⟩ | ⟨hkill, -⟩⟩ := hg.tree he ht
      · exact absurd hnil hsig
      · exact .inr ⟨ht, hkill⟩
    · exact .inl ⟨ht, (hg.group he ht).2.imp And.left And.left⟩

/-- A command that was stopped before it concluded is killed by the platform's program, if that fails. -/
theorem supervised_shell :
    Supervised { command := "pnpm", ownsProcessGroup := false, pid := true, timeoutError := "late", outputLimit := 4 } none
      [.timeout, .close (some 1), .taskkilled (some "denied")]
      { settled := some (.rejected "late; could not terminate process tree: denied"), terminationError := some "late"
        timeout := false, onAbort := false, destroyed := true, signals := [.sigkill] } :=
  @supervised _ _ _ .absent "" (run_of_steps rfl)

theorem conclusion_resolved {result : WorkflowPackageManagerCommandResult} {before : List CommandEvent}
    (h : conclusion setup before event = some (.resolved result)) :
    stopReason setup before = none ∧ ∃ code, event = .close code ∧ result = {
      code := code.getD 1, stdout := outputOf setup .stdout before, stderr := outputOf setup .stderr before } := by
  unfold conclusion at h
  split at h
  · cases h
  · rename_i code hreason
    exact ⟨hreason, code, rfl, (CommandOutcome.resolved.inj (Option.some.inj h)).symm⟩
  · split_ifs at h
    cases h
  · cases h
  · cases h
  · cases h

/-- A settled command has no timer and no listener that would stop it. -/
theorem reasonOf_settled (hg : Governed setup command) (hn : command.settled ≠ none)
    (hs : command.step setup event = some command') : reasonOf setup event = none := by
  cases event with
  | timeout =>
    rw [Command.step, (hg.past hn).1] at hs
    cases hs
  | abort reason =>
    rw [Command.step, (hg.past hn).2.1] at hs
    cases hs
  | _ => rfl

/-- A command that succeeded was not stopped or signalled, and its output is what it wrote until it closed. -/
theorem succeeded {result : WorkflowPackageManagerCommandResult}
    (h : Run (Command.step setup) Unconditional (runCommand abortReason signal) events command)
    (hs : command.settled = some (.resolved result)) :
    stopReason setup events = none ∧ command.signals = [] ∧ ∃ before code after,
      events = before ++ .close code :: after ∧ result = {
        code := code.getD 1, stdout := outputOf setup .stdout before, stderr := outputOf setup .stderr before } := by
  have hclosed : stopReason setup events = none ∧ ∃ before code after,
      events = before ++ .close code :: after ∧ result = {
        code := code.getD 1, stdout := outputOf setup .stdout before, stderr := outputOf setup .stderr before } := by
    induction h with
    | nil => cases signal <;> cases hs
    | @snoc events earlier command event h hstep _ ih =>
      obtain ⟨hr, hg⟩ := governed_run h
      rw [settled_step hr hg hstep] at hs
      cases hearlier : earlier.settled with
      | none =>
        rw [hearlier, Option.none_or] at hs
        obtain ⟨hreason, code, rfl, hresult⟩ := conclusion_resolved hs
        refine ⟨?_, events, code, [], rfl, hresult⟩
        rw [stopReason_concat, hreason]
        rfl
      | some outcome =>
        rw [hearlier, Option.some_or] at hs
        obtain ⟨hreason, before, code, after, rfl, hresult⟩ := ih (hearlier.trans hs)
        refine ⟨?_, before, code, after ++ [event], by simp, hresult⟩
        rw [stopReason_concat, hreason, Option.none_or]
        exact reasonOf_settled hg (by rw [hearlier]; exact Option.some_ne_none _) hstep
  obtain ⟨hr, hg⟩ := governed_run h
  exact ⟨hclosed.1, (hg.running (hr.reason.trans hclosed.1)).1, hclosed.2⟩

/-- What comes after the end of the command is no part of its output. -/
theorem succeeded_probe :
    stopReason { command := "pnpm", ownsProcessGroup := true, pid := true, timeoutError := "late", outputLimit := 2 }
      [.data .stdout ['1', '0', '3'], .close none, .data .stdout ['4']] = none ∧ ([] : List Signal) = [] ∧
    ∃ before code after,
      [CommandEvent.data .stdout ['1', '0', '3'], .close none, .data .stdout ['4']] = before ++ .close code :: after ∧
      ({ code := 1, stdout := [48, 51], stderr := [] } : WorkflowPackageManagerCommandResult) = {
        code := code.getD 1
        stdout := outputOf { command := "pnpm", ownsProcessGroup := true, pid := true, timeoutError := "late"
                             outputLimit := 2 } .stdout before
        stderr := outputOf { command := "pnpm", ownsProcessGroup := true, pid := true, timeoutError := "late"
                             outputLimit := 2 } .stderr before } :=
  @succeeded _ _ { stdout := [51, 52], stderr := [], timeout := false, onAbort := false
                   settled := some (.resolved { code := 1, stdout := [48, 51], stderr := [] }) }
    .pending "" _ (run_of_steps rfl) rfl

theorem finish_of_settled (hn : command.settled ≠ none) (error : Option String)
    (result : Option WorkflowPackageManagerCommandResult) : command.finish setup error result = command :=
  if_pos (Option.isSome_iff_ne_none.mpr hn)

structure Final (setup : CommandSetup) (command command' : Command) : Prop where
  outcome : command'.settled = command.settled
  reason : command'.terminationError = command.terminationError
  signals : ¬Tree setup → command'.signals = command.signals

theorem final_step (hg : Governed setup command) (hn : command.settled ≠ none)
    (hs : command.step setup event = some command') : Final setup command command' := by
  cases event with
  | data pipe chunk =>
    simp only [Command.step] at hs
    split_ifs at hs
    cases hs
    cases pipe <;> exact ⟨rfl, rfl, fun _ => rfl⟩
  | failed error =>
    cases hs
    rw [finish_of_settled hn]
    exact ⟨rfl, rfl, fun _ => rfl⟩
  | close code =>
    simp only [Command.step, finish_of_settled hn, Option.some.injEq] at hs
    have hsame : command' = command := by
      rw [← hs]
      split_ifs
      · rfl
      · split <;> rfl
    rw [hsame]
    exact ⟨rfl, rfl, fun _ => rfl⟩
  | timeout =>
    rw [Command.step, (hg.past hn).1] at hs
    cases hs
  | abort reason =>
    rw [Command.step, (hg.past hn).2.1] at hs
    cases hs
  | forceKill =>
    rw [Command.step, (hg.past hn).2.2] at hs
    cases hs
  | taskkilled killError =>
    simp only [Command.step] at hs
    split_ifs at hs with hk
    cases hs
    have htree : ¬¬Tree setup := by
      intro ht
      by_cases he : command.terminationError = none
      · exact absurd ((hg.running he).2.2.symm.trans hk) Bool.false_ne_true
      · exact absurd ((hg.group he ht).1.symm.trans hk) Bool.false_ne_true
    have hstopped : ∀ signals error,
        Command.finish setup { command with taskkill := false, destroyed := true, signals } error none =
          { command with taskkill := false, destroyed := true, signals } :=
      fun _ _ => if_pos (Option.isSome_iff_ne_none.mpr hn)
    cases killError with
    | some reason =>
      simp only [Command.killChild, hstopped]
      exact ⟨rfl, rfl, fun ht => absurd ht htree⟩
    | none =>
      simp only [hstopped]
      exact ⟨rfl, rfl, fun _ => rfl⟩

/-- Once it has settled a command keeps its outcome, no timer or listener of it is left, and it is sent no signal on a
process group of its own. -/
theorem settled_final (h : Run (Command.step setup) Unconditional (runCommand abortReason signal) events command)
    (hn : command.settled ≠ none) (h' : Run (Command.step setup) Unconditional command more command') :
    Final setup command command' ∧
      command'.timeout = false ∧ command'.onAbort = false ∧ command'.forceKill = false := by
  have hkept : Final setup command command' ∧ Governed setup command' := by
    induction h' with
    | nil => exact ⟨⟨rfl, rfl, fun _ => rfl⟩, (governed_run h).2⟩
    | snoc _ hs _ ih =>
      obtain ⟨hf, hg⟩ := ih
      have hstep := final_step hg (hf.outcome ▸ hn) hs
      exact ⟨⟨hstep.outcome.trans hf.outcome, hstep.reason.trans hf.reason,
        fun ht => (hstep.signals ht).trans (hf.signals ht)⟩, governed_step hg hs⟩
  obtain ⟨hf, hg⟩ := hkept
  exact ⟨hf, hg.past (hf.outcome ▸ hn)⟩

/-- A group asked to end by an abort ends before it is killed, and is not killed then. -/
theorem settled_final_group :
    Final { command := "pnpm", ownsProcessGroup := true, pid := true, timeoutError := "late", outputLimit := 2 }
      { settled := some (.rejected "stop"), terminationError := some "stop", timeout := false, onAbort := false
        signals := [.sigterm] }
      { settled := some (.rejected "stop"), terminationError := some "stop", timeout := false, onAbort := false
        signals := [.sigterm] } ∧ false = false ∧ false = false ∧ false = false :=
  @settled_final _ [.abort "stop", .close none] [.failed "gone"] _ _ .pending "" (run_of_steps rfl)
    (Option.some_ne_none _) (run_of_steps rfl)

end KimchiWorkflows.Host.PackageManagerCommand
