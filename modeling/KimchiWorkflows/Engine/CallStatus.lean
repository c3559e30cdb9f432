import KimchiWorkflows.Flow.Scopes
import KimchiWorkflows.Engine.BranchSettling
import KimchiWorkflows.Engine.ParallelSettling
import KimchiWorkflows.Engine.Calls
import KimchiWorkflows.Engine.PendingHistory

namespace KimchiWorkflows.Engine

open KimchiWorkflows.Flow

variable {env : RunEnv}

mutual

theorem settles_runNode (henv : PendingByKey env) {node : WorkflowNode}
    (h : scopesUniqueUnder node = true) : RunnerSettles env (runNode env node) := by
  cases node with
  | step step => exact settles_runStepNode step
  | branch name arms => exact settles_runBranchNode (settles_walkedArms henv h)
  | loop name mode body condition maxIterations =>
    have hb := (Bool.and_eq_true _ _).mp h
    exact settles_runLoopNode (settles_walked henv hb.2)
  | foreach name body selector concurrency feedback =>
    have hb := (Bool.and_eq_true _ _).mp h
    exact settles_runForeachNode (settles_walked henv hb.2) henv
  | parallel name arms => exact settles_runParallelNode henv (by simpa [scopesUniqueUnder] using h)
  | workflow name nodes =>
    have hb := (Bool.and_eq_true _ _).mp h
    exact settles_runNestedWorkflowNode (settles_walked henv hb.2)

theorem settles_walked (henv : PendingByKey env) {nodes : List WorkflowNode}
    (h : scopesUniqueIn nodes = true) : ∀ node ∈ walked env nodes, RunnerSettles env node.2 := by
  cases nodes with
  | nil => simp [walked]
  | cons node rest =>
    have hb := (Bool.and_eq_true _ _).mp h
    intro other ho
    rcases List.mem_cons.mp ho with rfl | ho
    · exact settles_runNode henv hb.1
    · exact settles_walked henv hb.2 other ho

theorem settles_walkedArms (henv : PendingByKey env) {arms : List BranchArm}
    (h : scopesUniqueInArms arms = true) :
    ∀ arm ∈ walkedArms env arms, ∀ node ∈ arm.2, RunnerSettles env node.2 := by
  match arms with
  | [] => simp [walkedArms]
  | .mk name condition body :: rest =>
    have hb := (Bool.and_eq_true _ _).mp h
    have hbody := (Bool.and_eq_true _ _).mp hb.1
    intro arm ha
    rcases List.mem_cons.mp ha with rfl | ha
    · exact settles_walked henv hbody.2
    · exact settles_walkedArms henv hb.2 arm ha

end

end KimchiWorkflows.Engine

namespace KimchiWorkflows.Engine

open KimchiWorkflows.Flow Process Scheduling

def RunEvent.executes : RunEvent → Option NodePath
  | .stepStarted path _ => some path
  | .stepRetry path _ _ _ => some path
  | .agentSteer path _ _ _ _ => some path
  | .stepCompleted path _ => some path
  | .stepFailed path _ => some path
  | .questionnaireAsked path _ _ _ _ _ => some path
  | .interactionRequested path _ _ => some path
  | .stepCancelled path => some path
  | _ => none

def RunEvent.delivers : RunEvent → Option NodePath
  | .answersProvided path _ => some path
  | .interactionProvided path _ => some path
  | _ => none

def Executed (key : NodePath) (events : List RunEvent) : Prop :=
  ∃ event ∈ events, ∃ path, event.executes = some path ∧ staticKeyOf path = key

/-- A call that blocks asks nobody inside an arm it takes, one that goes on from an answer executes the
step it delivers it to, and one that completes the run executes every step that waited. -/
structure Attends (log : List RunEvent) (call : EngineCall) (new : List RunEvent) (outcome : ExecOutcome) :
    Prop where
  arms : ∀ block, outcome = .blocked block → ¬ AsksInArm new
  delivered : outcome.held = true → ∀ event ∈ new, call.opens event → ∀ path,
    event.delivers = some path → Executed (staticKeyOf path) new
  waiting : ∀ output, outcome = .ok output → ∀ key, IsWaiting log key → Executed key new

variable {workflow : WorkflowDefinition} {log new events : List RunEvent} {call : EngineCall}
  {outcome : ExecOutcome} {key : NodePath} {opening : RunEvent}

theorem touch_of_executes {event : RunEvent} {path : NodePath} (h : event.executes = some path) :
    ∃ state, touchOf (staticKeyOf path) event = some (.put state) := by
  cases event <;> simp only [RunEvent.executes, reduceCtorEq, Option.some.injEq] at h <;> subst h <;>
    exact ⟨_, if_pos rfl⟩

theorem not_idle_of_executed (h : Executed key events) : ¬ Idle key events := by
  obtain ⟨event, he, path, hp, rfl⟩ := h
  obtain ⟨state, ht⟩ := touch_of_executes hp
  intro hi
  rcases hi event he with hn | hc
  · rw [ht] at hn
    cases hn
  · rw [ht] at hc
    cases hc

theorem executed_of_cons {event : RunEvent} (he : event.executes = none)
    (h : Executed key (event :: events)) : Executed key events := by
  obtain ⟨e, hm, path, hp, hk⟩ := h
  rcases List.mem_cons.mp hm with rfl | hm
  · rw [he] at hp
    cases hp
  · exact ⟨e, hm, path, hp, hk⟩

theorem executed_of_append {last : List RunEvent} (hl : ∀ e ∈ last, e.executes = none)
    (h : Executed key (events ++ last)) : Executed key events := by
  obtain ⟨e, hm, path, hp, hk⟩ := h
  rcases List.mem_append.mp hm with hm | hm
  · exact ⟨e, hm, path, hp, hk⟩
  · rw [hl e hm] at hp
    cases hp

theorem lastTerminal_append (log last : List RunEvent) :
    lastTerminal (log ++ last) = last.foldl (fun terminal event => event.terminal.or terminal) (lastTerminal log) :=
  List.foldl_append

theorem deriveRunStatus_closed {status : RunStatus} (hs : log.any RunEvent.isRunStarted = true)
    (hc : ∀ key, (viewOf key log).isOpen = false) (ht : lastTerminal log = some status) :
    deriveRunStatus log = some status := by
  have hno : ∀ state : StepState, state.isOpen = true → hasState (deriveStepStates log) state = false := by
    intro state ho
    rw [Bool.eq_false_iff]
    intro h
    obtain ⟨key, hk⟩ := hasState_iff.mp h
    have := hc key
    rw [KeyView.isOpen, hk] at this
    simp [ho] at this
  simp [deriveRunStatus, hs, hno .inProgress rfl, hno .blocked rfl, ht]

theorem deriveRunStatus_blocked (hs : log.any RunEvent.isRunStarted = true)
    (hn : ∀ key, (viewOf key log).state ≠ some .inProgress) (hb : (viewOf key log).state = some .blocked) :
    deriveRunStatus log = some .blocked := by
  have hno : hasState (deriveStepStates log) .inProgress = false := by
    rw [Bool.eq_false_iff]
    intro h
    obtain ⟨key, hk⟩ := hasState_iff.mp h
    exact hn key hk
  have hyes : hasState (deriveStepStates log) .blocked = true := hasState_iff.mpr ⟨key, hb⟩
  simp [deriveRunStatus, hs, hno, hyes]

theorem isOpen_terminal {event : RunEvent} (h : event.terminal = some .crashed ∨ event.terminal = some .cancelled)
    (v : KeyView) : (v.next key event).isOpen = false := by
  have hclose : ∀ state : StepState, state.isOpen = false → (v.touch (.closeOpen state)).isOpen = false := by
    intro state hs
    by_cases ho : v.isOpen = true
    · rw [KeyView.touch, if_pos ho]
      simpa [KeyView.isOpen] using hs
    · rw [KeyView.touch, if_neg ho]
      simpa using ho
  cases event with
  | runCrashed path error =>
    cases path with
    | none => exact hclose .crashed rfl
    | some path =>
      by_cases hk : staticKeyOf path = key
      · simp [KeyView.next, touchOf, touchAt, hk, KeyView.touch, KeyView.isOpen, StepState.isOpen]
      · simpa [KeyView.next, touchOf, touchAt, hk] using hclose .crashed rfl
  | runCancelled path source =>
    cases path with
    | none => exact hclose .cancelled rfl
    | some path =>
      by_cases hk : staticKeyOf path = key
      · simp [KeyView.next, touchOf, touchAt, hk, KeyView.touch, KeyView.isOpen, StepState.isOpen]
      · simpa [KeyView.next, touchOf, touchAt, hk] using hclose .cancelled rfl
  | _ => simp [RunEvent.terminal] at h

theorem closed_of_terminal {event : RunEvent}
    (h : event.terminal = some .crashed ∨ event.terminal = some .cancelled) :
    ∀ key, (viewOf key (log ++ [event])).isOpen = false := by
  intro key
  rw [viewOf_append]
  exact isOpen_terminal h _

/-- The log after a call, and the status derived from it once the run has started. -/
structure Agrees (log : List RunEvent) (outcome : ExecOutcome) : Prop where
  idle : ∀ key, (viewOf key log).state ≠ some .inProgress
  status : log.any RunEvent.isRunStarted = true → deriveRunStatus log = some (resultOf outcome).status

theorem ne_inProgress_of_closed {v : KeyView} (h : v.isOpen = false) : v.state ≠ some .inProgress := by
  intro hs
  rw [KeyView.isOpen, hs] at h
  cases h

theorem agrees_of_terminal {event : RunEvent} (h : event.terminal = some (resultOf outcome).status)
    (hs : (resultOf outcome).status = .crashed ∨ (resultOf outcome).status = .cancelled) :
    Agrees (log ++ [event]) outcome := by
  have hc : ∀ key, (viewOf key (log ++ [event])).isOpen = false := by
    apply closed_of_terminal
    rw [h]
    simpa using hs
  refine ⟨fun key => ne_inProgress_of_closed (hc key), fun hstart => deriveRunStatus_closed hstart hc ?_⟩
  simp [lastTerminal_append, h]

theorem status_blocked (block : PendingBlock) : (resultOf (.blocked block)).status = .blocked := by
  simp only [resultOf]
  split <;> rfl

theorem next_opening (ho : call.opens opening) (key : NodePath) (v : KeyView) :
    v.next key opening = v ∨ ∃ path, opening.delivers = some path ∧ staticKeyOf path = key := by
  refine forall_opening (P := fun opening => v.next key opening = v ∨
    ∃ path, opening.delivers = some path ∧ staticKeyOf path = key) ho (fun _ _ _ => .inl rfl) (fun _ => .inl rfl) ?_ ?_
  all_goals
    intro path _
    by_cases hk : staticKeyOf path = key
    · exact .inr ⟨path, rfl, hk⟩
    · exact .inl (by simp [KeyView.next, touchOf, touchAt, hk])

theorem executes_opening (ho : call.opens opening) : opening.executes = none :=
  forall_opening (P := fun event => event.executes = none) ho (fun _ _ _ => rfl) (fun _ => rfl)
    (fun _ _ => rfl) (fun _ _ => rfl)

theorem executes_closing (outcome : ExecOutcome) : ∀ e ∈ closingEvents outcome, e.executes = none := by
  cases outcome <;> simp [closingEvents, RunEvent.executes]

section Opened

variable (ho : call.opens opening) (hm : Attends log call (opening :: (events ++ closingEvents outcome)) outcome)

include ho hm

theorem view_of_idle (hheld : outcome.held = true) (hi : Idle key events) :
    (viewOf key log).next key opening = viewOf key log := by
  rcases next_opening ho key (viewOf key log) with hv | ⟨path, hd, rfl⟩
  · exact hv
  · have he := hm.delivered hheld opening List.mem_cons_self ho path hd
    have he' := executed_of_append (executes_closing outcome) (executed_of_cons (executes_opening ho) he)
    exact absurd hi (not_idle_of_executed he')

theorem agrees_of_ok {env : RunEnv} {reentered : Bool} {output : Value} (hout : outcome = .ok output)
    (hlog : ∀ key, (viewOf key log).state ≠ some .inProgress)
    (hs : Settles env reentered [] events outcome) :
    Agrees (log ++ opening :: (events ++ closingEvents outcome)) outcome := by
  subst hout
  have hclosed : ∀ key, (viewOf key (log ++ opening :: (events ++ closingEvents (.ok output)))).isOpen = false := by
    intro key
    rw [viewOf_append, after_cons, after_append]
    have hlast : ∀ v : KeyView, after key v (closingEvents (.ok output)) = v := fun _ => rfl
    rw [hlast]
    rcases hs.closes output rfl key with hi | hc
    · have hwait : (viewOf key log).state ≠ some .blocked := by
        intro hb
        have he := hm.waiting output rfl key (isWaiting_iff.mpr hb)
        have he' := executed_of_append (executes_closing _) (executed_of_cons (executes_opening ho) he)
        exact not_idle_of_executed he' hi
      rw [view_of_idle ho hm rfl hi]
      rcases after_idle hi (viewOf key log) with hv | hv
      · rw [KeyView.isOpen, hv]
        have hnot := hlog key
        cases hst : (viewOf key log).state with
        | none => rfl
        | some state => cases state <;> simp_all [StepState.isOpen]
      · rw [KeyView.isOpen, hv]
        rfl
    · obtain ⟨state, hst, hopen⟩ := hc ((viewOf key log).next key opening)
      rw [KeyView.isOpen, hst]
      simpa using hopen
  refine ⟨fun key => ne_inProgress_of_closed (hclosed key), fun hstart => ?_⟩
  refine deriveRunStatus_closed hstart hclosed ?_
  rw [lastTerminal_append, List.foldl_cons, List.foldl_append]
  rfl

theorem agrees_of_blocked {env : RunEnv} {reentered : Bool} {block : PendingBlock}
    (hout : outcome = .blocked block) (hlog : ∀ key, (viewOf key log).state ≠ some .inProgress)
    (henv : ∀ key, (Dict.get env.pendingBlocks key).isSome → IsWaiting log key)
    (hs : Settles env reentered [] events outcome) :
    Agrees (log ++ opening :: (events ++ closingEvents outcome)) outcome := by
  subst hout
  have hnil : closingEvents (.blocked block) = [] := rfl
  rw [hnil, List.append_nil]
  have hidle : ∀ key, (viewOf key (log ++ opening :: events)).state ≠ some .inProgress := by
    intro key
    rw [viewOf_append, after_cons]
    rcases hs.rests block rfl with hr | ha
    · rcases hr key with hi | hr
      · rw [view_of_idle ho hm rfl hi]
        rcases after_idle hi (viewOf key log) with hv | hv
        · rw [hv]
          exact hlog key
        · rw [hv]
          simp
      · obtain ⟨state, hst, hne⟩ := hr ((viewOf key log).next key opening)
        rw [hst]
        simpa using hne
    · refine absurd (ha.mono ?_) (hm.arms block rfl)
      exact List.subset_cons_of_subset _ (List.subset_append_left _ _)
  have hblocked : (viewOf (staticKeyOf block.path) (log ++ opening :: events)).state = some .blocked := by
    rw [viewOf_append, after_cons]
    rcases hs.waits block rfl with ha | ⟨-, hp, -, hu⟩
    · exact ha _
    · rw [view_of_idle ho hm rfl hu.idle, after_untouched hu]
      exact isWaiting_iff.mp (henv _ hp)
  refine ⟨hidle, fun hstart => ?_⟩
  rw [status_blocked]
  exact deriveRunStatus_blocked hstart hidle hblocked

end Opened

end KimchiWorkflows.Engine
