import KimchiWorkflows.Host.SubagentProcess

/-!
A command of the package manager: its output is bounded, a timeout or an abort stops it with everything it
started, and it settles once.
-/

namespace KimchiWorkflows.Host.PackageManagerCommand

open Json Stepping KimchiWorkflows.Host.SubagentProcess

/-- What a command is run with: whether it has a process group of its own, and a process at all. -/
structure CommandSetup where
  command : String
  ownsProcessGroup : Bool
  pid : Bool
  timeoutError : String
  outputLimit : Nat

structure WorkflowPackageManagerCommandResult where
  code : Int
  stdout : List Nat
  stderr : List Nat
  deriving DecidableEq

inductive CommandOutcome where
  | resolved (result : WorkflowPackageManagerCommandResult)
  | rejected (error : String)
  deriving DecidableEq

structure Command where
  stdout : List Nat := []
  stderr : List Nat := []
  settled : Option CommandOutcome := none
  terminationError : Option String := none
  timeout : Bool := true
  onAbort : Bool
  forceKill : Bool := false
  taskkill : Bool := false
  destroyed : Bool := false
  signals : List Signal := []

inductive CommandEvent where
  | data (pipe : Pipe) (chunk : Text)
  | failed (error : String)
  | close (code : Option Int)
  | timeout
  | abort (reason : String)
  | forceKill
  | taskkilled (killError : Option String)

def appendBounded (current addition : List Nat) (limit : Nat) : List Nat := sliceTail limit (current ++ addition)

section Machine

variable (setup : CommandSetup)

def Command.killChild (command : Command) (signalName : Signal) : Command :=
  { command with signals := command.signals ++ [signalName] }

def Command.finish (command : Command) (error : Option String) (result : Option WorkflowPackageManagerCommandResult) :
    Command :=
  if command.settled.isSome then command
  else
    { command with
      settled := some (match error, result with
        | some error, _ => .rejected error
        | none, some result => .resolved result
        | none, none => .rejected (setup.command ++ " ended without a result"))
      timeout := false
      forceKill := false
      onAbort := false }

/-- Without a process group the tree is stopped by a program of the platform. -/
def Command.terminate (command : Command) (error : String) : Command :=
  if command.settled.isSome || command.terminationError.isSome then command
  else
    let stopped := { command with terminationError := some error }
    if !setup.ownsProcessGroup && setup.pid then { stopped with taskkill := true }
    else { stopped.killChild .sigterm with forceKill := true }

def Command.step (command : Command) : CommandEvent → Option Command
  | .data pipe chunk =>
    if command.destroyed then none
    else some (match pipe with
      | .stdout => { command with stdout := appendBounded command.stdout (units chunk) setup.outputLimit }
      | .stderr => { command with stderr := appendBounded command.stderr (units chunk) setup.outputLimit })
  | .failed error => some (command.finish setup (some (command.terminationError.getD error)) none)
  | .close code =>
    some (if command.terminationError.isSome && !setup.ownsProcessGroup && setup.pid then command
      else match command.terminationError with
        | some error => command.finish setup (some error) none
        | none => command.finish setup none
            (some { code := code.getD 1, stdout := command.stdout, stderr := command.stderr }))
  | .timeout =>
    if command.timeout then some (Command.terminate setup { command with timeout := false } setup.timeoutError) else none
  | .abort reason =>
    if command.onAbort then some (Command.terminate setup { command with onAbort := false } reason) else none
  | .forceKill => if command.forceKill then some ({ command with forceKill := false }.killChild .sigkill) else none
  | .taskkilled killError =>
    if command.taskkill then
      let stopped := { command with taskkill := false, destroyed := true }
      let error := command.terminationError.getD ""
      some (match killError with
        | some reason => (stopped.killChild .sigkill).finish setup
            (some (error ++ "; could not terminate process tree: " ++ reason)) none
        | none => stopped.finish setup (some error) none)
    else none

/-- A signal that is aborted already keeps the command from being started. -/
def runCommand (abortReason : String) : AbortSignal → Command
  | .absent => { onAbort := false }
  | .pending => { onAbort := true }
  | .aborted => { settled := some (.rejected abortReason), timeout := false, onAbort := false, destroyed := true }

def written (pipe : Pipe) (events : List CommandEvent) : Text :=
  events.flatMap (fun event => match event with
    | .data from_ chunk => if from_ = pipe then chunk else []
    | _ => [])

def reasonOf : CommandEvent → Option String
  | .timeout => some setup.timeoutError
  | .abort reason => some reason
  | _ => none

def stopReason (events : List CommandEvent) : Option String := events.findSome? (reasonOf setup)

def outputOf (pipe : Pipe) (events : List CommandEvent) : List Nat :=
  sliceTail setup.outputLimit (units (written pipe events))

/-- What an event concludes a command with, after others. -/
def conclusion (before : List CommandEvent) (event : CommandEvent) : Option CommandOutcome :=
  match event, stopReason setup before with
  | .failed error, reason => some (.rejected (reason.getD error))
  | .close code, none =>
    some (.resolved { code := code.getD 1, stdout := outputOf setup .stdout before, stderr := outputOf setup .stderr before })
  | .close _, some reason => if !setup.ownsProcessGroup && setup.pid then none else some (.rejected reason)
  | .taskkilled none, some reason => some (.rejected reason)
  | .taskkilled (some killError), some reason =>
    some (.rejected (reason ++ "; could not terminate process tree: " ++ killError))
  | _, _ => none

def verdictAfter (before : List CommandEvent) : List CommandEvent → Option CommandOutcome
  | [] => none
  | event :: rest => (conclusion setup before event).or (verdictAfter (before ++ [event]) rest)

def verdict (events : List CommandEvent) : Option CommandOutcome := verdictAfter setup [] events

end Machine

variable {setup : CommandSetup} {events : List CommandEvent} {event : CommandEvent} {command command' : Command}

theorem stopReason_concat (events : List CommandEvent) (event : CommandEvent) :
    stopReason setup (events ++ [event]) = (stopReason setup events).or (reasonOf setup event) := by
  rw [stopReason, List.findSome?_append, stopReason]
  simp [List.findSome?]
  cases reasonOf setup event <;> rfl

theorem outputOf_concat (pipe : Pipe) (events : List CommandEvent) (event : CommandEvent) :
    outputOf setup pipe (events ++ [event]) =
      appendBounded (outputOf setup pipe events) (units (written pipe [event])) setup.outputLimit := by
  rw [outputOf, outputOf, appendBounded, sliceTail_append, written, List.flatMap_append, units_append]
  rfl

/-- Whether the tree is stopped by a program of the platform. -/
def Tree (setup : CommandSetup) : Prop := (!setup.ownsProcessGroup && setup.pid) = true

structure Recorded (setup : CommandSetup) (events : List CommandEvent) (command : Command) : Prop where
  reason : command.terminationError = stopReason setup events
  stdout : command.stdout = outputOf setup .stdout events
  stderr : command.stderr = outputOf setup .stderr events

structure Governed (setup : CommandSetup) (command : Command) : Prop where
  past : command.settled ≠ none → command.timeout = false ∧ command.onAbort = false ∧ command.forceKill = false
  running : command.terminationError = none →
    command.signals = [] ∧ command.forceKill = false ∧ command.taskkill = false
  timed : command.settled = none → command.terminationError = none → command.timeout = true
  group : command.terminationError ≠ none → ¬Tree setup → command.taskkill = false ∧
    (command.signals = [.sigterm] ∧ (command.forceKill = true ∨ command.settled ≠ none) ∨
      command.signals = [.sigterm, .sigkill] ∧ command.forceKill = false)
  tree : command.terminationError ≠ none → Tree setup → command.forceKill = false ∧
    (command.signals = [] ∧ (command.taskkill = true ∨ command.settled ≠ none) ∨
      command.signals = [.sigkill] ∧ command.taskkill = false ∧ command.settled ≠ none)

theorem outputOf_of_silent {pipe : Pipe} (events : List CommandEvent) (hw : written pipe [event] = []) :
    outputOf setup pipe (events ++ [event]) = outputOf setup pipe events := by
  have happ : written pipe (events ++ [event]) = written pipe events ++ written pipe [event] := List.flatMap_append
  rw [outputOf, happ, hw, List.append_nil, outputOf]

theorem Recorded.mono (event : CommandEvent) (h : Recorded setup events command) (hr : reasonOf setup event = none)
    (hw : ∀ pipe, written pipe [event] = []) : Recorded setup (events ++ [event]) command where
  reason := by rw [stopReason_concat, hr, Option.or_none, h.reason]
  stdout := by rw [outputOf_of_silent events (hw .stdout), h.stdout]
  stderr := by rw [outputOf_of_silent events (hw .stderr), h.stderr]

theorem Recorded.finish (h : Recorded setup events command) (error : Option String)
    (result : Option WorkflowPackageManagerCommandResult) : Recorded setup events (command.finish setup error result) := by
  unfold Command.finish
  split_ifs
  · exact h
  · exact ⟨h.reason, h.stdout, h.stderr⟩

theorem Governed.unsettled_of_timeout (h : Governed setup command) (ht : command.timeout = true) :
    command.settled = none := by
  by_contra hn
  exact absurd ((h.past hn).1.symm.trans ht) Bool.false_ne_true

theorem Governed.unsettled_of_onAbort (h : Governed setup command) (ha : command.onAbort = true) :
    command.settled = none := by
  by_contra hn
  exact absurd ((h.past hn).2.1.symm.trans ha) Bool.false_ne_true

theorem Governed.finish (h : Governed setup command) (error : Option String)
    (result : Option WorkflowPackageManagerCommandResult) : Governed setup (command.finish setup error result) := by
  unfold Command.finish
  split_ifs with hs
  · exact h
  · refine ⟨fun _ => ⟨rfl, rfl, rfl⟩, ?_, ?_, ?_, ?_⟩
    · intro ht
      exact ⟨(h.running ht).1, rfl, (h.running ht).2.2⟩
    · intro hn
      cases hn
    · intro ht hg
      refine ⟨(h.group ht hg).1, ?_⟩
      obtain ⟨hsig, -⟩ | ⟨hsig, -⟩ := (h.group ht hg).2
      · exact .inl ⟨hsig, .inr (Option.some_ne_none _)⟩
      · exact .inr ⟨hsig, rfl⟩
    · intro ht hg
      refine ⟨rfl, ?_⟩
      obtain ⟨hsig, -⟩ | ⟨hsig, hk, -⟩ := (h.tree ht hg).2
      · exact .inl ⟨hsig, .inr (Option.some_ne_none _)⟩
      · exact .inr ⟨hsig, hk, Option.some_ne_none _⟩

theorem Governed.terminate (h : Governed setup command) (hn : command.settled = none) (timeout onAbort : Bool)
    (why : String) : Governed setup (Command.terminate setup { command with timeout, onAbort } why) := by
  simp only [Command.terminate]
  by_cases he : command.terminationError = none
  · obtain ⟨hsig, hforce, hkill⟩ := h.running he
    rw [if_neg (by simp [hn, he])]
    split_ifs with htree
    · refine ⟨fun hs => absurd hn hs, fun hf => absurd hf (Option.some_ne_none _),
        fun _ hf => absurd hf (Option.some_ne_none _), fun _ hg => absurd htree hg, ?_⟩
      exact fun _ _ => ⟨hforce, .inl ⟨hsig, .inl rfl⟩⟩
    · refine ⟨fun hs => absurd hn hs, fun hf => absurd hf (Option.some_ne_none _),
        fun _ hf => absurd hf (Option.some_ne_none _), ?_, fun _ hg => absurd hg htree⟩
      exact fun _ _ => ⟨hkill, .inl ⟨by rw [Command.killChild, hsig]; rfl, .inl rfl⟩⟩
  · rw [if_pos (by simp [Option.isSome_iff_ne_none.mpr he])]
    exact ⟨fun hs => absurd hn hs, fun hf => absurd hf he, fun _ hf => absurd hf he, h.group, h.tree⟩

theorem Governed.killed (h : Governed setup command) (hne : command.terminationError ≠ none) (hg : Tree setup)
    {signals : List Signal} (hs : signals = [] ∨ signals = [.sigkill]) (error : Option String) :
    Governed setup (Command.finish setup { command with taskkill := false, destroyed := true, signals } error none) := by
  have htree : ∀ {settled : Option CommandOutcome}, settled ≠ none →
      signals = [] ∧ (false = true ∨ settled ≠ none) ∨ signals = [.sigkill] ∧ false = false ∧ settled ≠ none :=
    fun hsettled => hs.imp (fun hnil => ⟨hnil, .inr hsettled⟩) (fun hkill => ⟨hkill, rfl, hsettled⟩)
  simp only [Command.finish]
  by_cases hn : command.settled = none
  · rw [if_neg (by simp [hn])]
    exact ⟨fun _ => ⟨rfl, rfl, rfl⟩, fun he => absurd he hne, fun _ he => absurd he hne, fun _ ht => absurd hg ht,
      fun _ _ => ⟨rfl, htree (Option.some_ne_none _)⟩⟩
  · rw [if_pos (Option.isSome_iff_ne_none.mpr hn)]
    exact ⟨h.past, fun he => absurd he hne, fun he => absurd he hn, fun _ ht => absurd hg ht,
      fun _ _ => ⟨(h.past hn).2.2, htree hn⟩⟩

theorem Recorded.terminate {why : String} (h : Recorded setup events command) (hn : command.settled = none)
    (hr : reasonOf setup event = some why) (hw : ∀ pipe, written pipe [event] = []) (timeout onAbort : Bool) :
    Recorded setup (events ++ [event]) (Command.terminate setup { command with timeout, onAbort } why) := by
  have hreason := @stopReason_concat setup events event
  have hstdout := @outputOf_of_silent setup event .stdout events (hw .stdout)
  have hstderr := @outputOf_of_silent setup event .stderr events (hw .stderr)
  rw [← h.reason, hr] at hreason
  rw [← h.stdout] at hstdout
  rw [← h.stderr] at hstderr
  simp only [Command.terminate]
  by_cases he : command.terminationError = none
  · rw [he, Option.none_or] at hreason
    rw [if_neg (by simp [hn, he])]
    split_ifs
    · exact ⟨hreason.symm, hstdout.symm, hstderr.symm⟩
    · exact ⟨hreason.symm, hstdout.symm, hstderr.symm⟩
  · obtain ⟨earlier, hearlier⟩ := Option.ne_none_iff_exists'.mp he
    rw [hearlier, Option.some_or] at hreason
    rw [if_pos (by simp [hearlier])]
    exact ⟨hearlier.trans hreason.symm, hstdout.symm, hstderr.symm⟩

theorem governed_step (h : Governed setup command) (hs : command.step setup event = some command') :
    Governed setup command' := by
  cases event with
  | data pipe chunk =>
    simp only [Command.step] at hs
    split_ifs at hs
    cases hs
    cases pipe
    · exact ⟨h.past, h.running, h.timed, h.group, h.tree⟩
    · exact ⟨h.past, h.running, h.timed, h.group, h.tree⟩
  | failed error =>
    cases hs
    exact h.finish _ _
  | close code =>
    simp only [Command.step] at hs
    split_ifs at hs
    · cases hs
      exact h
    · cases hs
      split <;> exact h.finish _ _
  | timeout =>
    simp only [Command.step] at hs
    split_ifs at hs with ht
    cases hs
    exact h.terminate (h.unsettled_of_timeout ht) false command.onAbort _
  | abort reason =>
    simp only [Command.step] at hs
    split_ifs at hs with ha
    cases hs
    exact h.terminate (h.unsettled_of_onAbort ha) command.timeout false _
  | forceKill =>
    simp only [Command.step] at hs
    split_ifs at hs with hf
    cases hs
    have hne : command.terminationError ≠ none := by
      intro hn
      exact absurd ((h.running hn).2.1.symm.trans hf) Bool.false_ne_true
    have hg : ¬Tree setup := by
      intro hg
      exact absurd ((h.tree hne hg).1.symm.trans hf) Bool.false_ne_true
    have hn : command.settled = none := by
      by_contra hn
      exact absurd ((h.past hn).2.2.symm.trans hf) Bool.false_ne_true
    refine ⟨fun hs => absurd hn hs, fun he => absurd he hne, h.timed, ?_, fun _ ht => absurd ht hg⟩
    intro _ _
    obtain ⟨hk, ⟨hsig, -⟩ | ⟨-, hforce⟩⟩ := h.group hne hg
    · exact ⟨hk, .inr ⟨by rw [Command.killChild, hsig]; rfl, rfl⟩⟩
    · exact absurd (hforce.symm.trans hf) Bool.false_ne_true
  | taskkilled killError =>
    simp only [Command.step] at hs
    split_ifs at hs with hk
    cases hs
    have hne : command.terminationError ≠ none := by
      intro hn
      exact absurd ((h.running hn).2.2.symm.trans hk) Bool.false_ne_true
    have hg : Tree setup := by
      by_contra hg
      exact absurd ((h.group hne hg).1.symm.trans hk) Bool.false_ne_true
    have hsig : command.signals = [] := by
      obtain ⟨-, ⟨hsig, -⟩ | ⟨-, hf, -⟩⟩ := h.tree hne hg
      · exact hsig
      · exact absurd (hf.symm.trans hk) Bool.false_ne_true
    cases killError with
    | some reason => exact h.killed hne hg (.inr (by rw [hsig]; rfl)) _
    | none => exact h.killed hne hg (.inl hsig) _

theorem recorded_step (h : Recorded setup events command) (hg : Governed setup command)
    (hs : command.step setup event = some command') : Recorded setup (events ++ [event]) command' := by
  cases event with
  | data pipe chunk =>
    have hreason : command.terminationError = stopReason setup (events ++ [.data pipe chunk]) := by
      rw [stopReason_concat, h.reason]
      exact (Option.or_none).symm
    simp only [Command.step] at hs
    split_ifs at hs
    cases hs
    cases pipe with
    | stdout => exact ⟨hreason, by rw [outputOf_concat, h.stdout]; simp [written], by
        rw [outputOf_of_silent events (by rfl), h.stderr]⟩
    | stderr => exact ⟨hreason, by rw [outputOf_of_silent events (by rfl), h.stdout], by
        rw [outputOf_concat, h.stderr]; simp [written]⟩
  | failed error =>
    cases hs
    exact (h.mono _ rfl (fun _ => rfl)).finish _ _
  | close code =>
    have hmono := h.mono (.close code) rfl (fun _ => rfl)
    simp only [Command.step] at hs
    split_ifs at hs
    · cases hs
      exact hmono
    · cases hs
      split <;> exact hmono.finish _ _
  | timeout =>
    simp only [Command.step] at hs
    split_ifs at hs with ht
    cases hs
    exact h.terminate (hg.unsettled_of_timeout ht) rfl (fun _ => rfl) false command.onAbort
  | abort reason =>
    simp only [Command.step] at hs
    split_ifs at hs with ha
    cases hs
    exact h.terminate (hg.unsettled_of_onAbort ha) rfl (fun _ => rfl) command.timeout false
  | forceKill =>
    have hmono := h.mono .forceKill rfl (fun _ => rfl)
    simp only [Command.step] at hs
    split_ifs at hs
    cases hs
    exact ⟨hmono.reason, hmono.stdout, hmono.stderr⟩
  | taskkilled killError =>
    have hmono := h.mono (.taskkilled killError) rfl (fun _ => rfl)
    have hstopped : ∀ signals, Recorded setup (events ++ [.taskkilled killError])
        { command with taskkill := false, destroyed := true, signals } :=
      fun _ => ⟨hmono.reason, hmono.stdout, hmono.stderr⟩
    simp only [Command.step] at hs
    split_ifs at hs
    cases hs
    cases killError with
    | some reason => exact (hstopped _).finish _ _
    | none => exact (hstopped _).finish _ _

end KimchiWorkflows.Host.PackageManagerCommand
