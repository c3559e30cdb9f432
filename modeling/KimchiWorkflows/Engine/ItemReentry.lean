import KimchiWorkflows.Engine.PlainAsks
import KimchiWorkflows.Engine.StatusAgreement

/-!
A concurrent foreach that is entered again: what becomes of the items that wait beside the target.
-/

namespace KimchiWorkflows.Engine

open KimchiWorkflows.Flow Scheduling

variable {env : RunEnv} {each : ForeachDefinition} {body : List Walked} {parentPath : NodePath}
  {frames : List ScopeFrame} {items : List Value} {history : ItemHistory} {effects : List Effect}
  {outcome : ExecOutcome} {settled : List (Nat × ExecOutcome)} {toRun : List Nat} {index target : Nat}

def RunEvent.opens : RunEvent → Bool
  | .stepStarted _ _ => true
  | .foreachItemStarted _ _ => true
  | .questionnaireAsked _ _ _ _ _ _ => true
  | .interactionRequested _ _ _ => true
  | _ => false

/-- An item other than the target that has no output yet and waits for a human, as the log stands. -/
def WaitsBeside (log : List RunEvent) (parentPath : NodePath) (name : String) (items : List Value)
    (history : ItemHistory) (target index : Nat) : Prop :=
  index < items.length ∧ index ≠ target ∧ Dict.has history index = false ∧
    ∃ asked ∈ pendingHumanInputs log, Below (itemKey parentPath name index) (staticKeyOf asked.path)

/-- The items that wait beside the target are left alone, and as long as there is one the construct
settles on a question of an item. -/
structure LeavesWaiting (log : List RunEvent) (parentPath : NodePath) (name : String)
    (items : List Value) (history : ItemHistory) (target : Nat) (new : List RunEvent)
    (outcome : ExecOutcome) : Prop where
  unopened : ∀ index, WaitsBeside log parentPath name items history target index →
    ∀ event ∈ new, event.opens = true → ∀ path, event.subject = some path →
      ¬ itemKey parentPath name index <+: staticKeyOf path
  blocks : (∃ index, WaitsBeside log parentPath name items history target index) →
    ∃ block index, outcome = .blocked block ∧
      (index = target ∨ WaitsBeside log parentPath name items history target index) ∧
      Below (itemKey parentPath name index) (staticKeyOf block.path)

theorem started_runExtraItems {finish : List (Nat × ExecOutcome) → Code}
    (h : Emits (runExtraItems each body parentPath frames items finish toRun settled) effects outcome) :
    ∃ first last settled', effects = first ++ last ∧ Emits (finish settled') last outcome ∧
      ((∀ index ∈ toRun, RunEvent.foreachItemStarted (appendForeachItem parentPath each.name index) index ∈
        recordedEvents first) ∨ ∃ index, (index, .cancelled none none) ∈ settled') := by
  induction toRun generalizing settled effects with
  | nil => exact ⟨[], effects, settled, rfl, h, .inl (by simp)⟩
  | cons index rest ih =>
    rcases emits_runExtraItems_cons h with hstop | hrun
    · exact ⟨[], effects, _, rfl, hstop, .inr ⟨index, by simp⟩⟩
    · obtain ⟨bodyEffects, more, o, itemFrames, rfl, -, hnext⟩ := emits_item hrun
      obtain ⟨first, last, settled', rfl, hfinish, hall⟩ := ih hnext
      refine ⟨_, last, settled', (List.append_assoc _ _ _).symm, hfinish, hall.imp_left ?_⟩
      intro hrest other ho
      rw [recordedEvents_append, List.mem_append]
      rcases List.mem_cons.mp ho with rfl | ho
      · exact .inl (by simp [itemEffects])
      · exact .inr (hrest other ho)

theorem held_of_blocked {outcomes : List ExecOutcome} {stillBlocked : List PendingBlock} {onOk : Code}
    {block : PendingBlock} (h : Emits (settleConcurrent outcomes stillBlocked onOk) effects (.blocked block)) :
    ∀ o ∈ outcomes, o.held = true := by
  rcases emits_settleConcurrent h with ⟨-, path, source, ho⟩ | ⟨error, path, ho, -⟩ | ⟨hheld, -⟩
  · cases ho
  · cases ho
  · exact hheld

variable {workflow : WorkflowDefinition} {log : List RunEvent} {answered : NodePath} {active : Reentry}
  {kind : IndexKind}

/-- A re-entry that settles on a question has started every other item that was waiting. -/
theorem starts_waiting (hp : Produced workflow log) (henv : env.pendingBlocks = pendingBlocksExcept log answered)
    (ht : active.path.head?.bind PathSegment.index = some (kind, target)) {block : PendingBlock}
    (h : Emits (runForeachConcurrentReentry each body parentPath frames items env history active) effects
      (.blocked block))
    (hw : WaitsBeside log parentPath each.name items history target index) :
    RunEvent.foreachItemStarted (appendForeachItem parentPath each.name index) index ∈
      recordedEvents effects := by
  obtain ⟨hlen, hne, hhist, -⟩ := hw
  simp only [runForeachConcurrentReentry, ht] at h
  obtain ⟨bodyEffects, more, o, itemFrames, rfl, -, hnext⟩ := emits_item h
  obtain ⟨first, last, settled, rfl, hfinish, hall⟩ := started_runExtraItems hnext
  rw [recordedEvents_append, recordedEvents_append, List.mem_append, List.mem_append]
  rcases hall with hstarted | ⟨other, hcancelled⟩
  · refine .inr (.inl (hstarted index ?_))
    have hnone : Dict.get env.pendingBlocks (itemKey parentPath each.name index) = none := by
      rw [henv]
      exact hp.pendingBlocks_item parentPath each.name index
    rw [List.mem_filter, List.mem_filter, List.mem_range]
    refine ⟨⟨hlen, by simp [hne, hhist]⟩, ?_⟩
    show Option.isNone (Dict.get env.pendingBlocks (itemKey parentPath each.name index)) = true
    rw [hnone]
    rfl
  · have := held_of_blocked hfinish _ (List.mem_map_of_mem hcancelled)
    cases this

theorem leavesWaiting_iff (hp : Produced workflow log)
    (henv : env.pendingBlocks = pendingBlocksExcept log answered)
    (ht : active.path.head?.bind PathSegment.index = some (kind, target))
    (h : Emits (runForeachConcurrentReentry each body parentPath frames items env history active) effects
      outcome) :
    LeavesWaiting log parentPath each.name items history target (recordedEvents effects) outcome ↔
      ∀ index, ¬ WaitsBeside log parentPath each.name items history target index := by
  constructor
  · intro hleaves index hw
    obtain ⟨block, -, rfl, -⟩ := hleaves.blocks ⟨index, hw⟩
    have hstarted := starts_waiting hp henv ht h hw
    exact hleaves.unopened index hw _ hstarted rfl _ rfl List.prefix_rfl
  · intro hnone
    exact ⟨fun index hw => absurd hw (hnone index), fun ⟨index, hw⟩ => absurd hw (hnone index)⟩

section Sample

def survey : WorkflowDefinition :=
  { name := "survey", nodes := [.foreach "ask" approval.nodes (fun _ => .ok (.array [.null, .null])) 2 false] }

def itemPath (index : Nat) : NodePath := [{ name := "ask", index := some (.foreach, index) }]

def itemQuestion (index : Nat) : NodePath := itemPath index ++ approvalPath

def askingItem (index : Nat) : List RunEvent :=
  [.foreachItemStarted (itemPath index) index, .stepStarted (itemQuestion index) .undefined,
    asking (itemQuestion index)]

def surveyAsked : List RunEvent :=
  [.runStarted "run-1" "survey" .null, .foreachStarted [{ name := "ask" }] 2] ++ askingItem 0 ++ askingItem 1

def answeringFirst : List RunEvent :=
  [.stepCompleted (itemQuestion 0) (.object []), .foreachItemCompleted (itemPath 0) 0 (.object [])] ++
    askingItem 1

theorem committed_survey : Committed survey :=
  .assembled [approval] (List.forall_mem_singleton.mpr committed_approval) (show survey.nodes.flatMap bodiesOf = _ from rfl) rfl

theorem produced_surveyAsked : Produced survey surveyAsked := by
  have hr : Returns survey (.run "run-1" .null) [] surveyAsked (waitingOn (itemQuestion 0)) :=
    returns_of_attempt [] 100 rfl
  exact Produced.start.returns hr

theorem second_waits : WaitsBeside surveyAsked [] "ask" [.null, .null] [] 0 1 := by
  have hpending : pendingHumanInputs surveyAsked =
      [⟨4, itemQuestion 0, .questionnaire { questions := [] } [], none, none, none⟩,
        ⟨7, itemQuestion 1, .questionnaire { questions := [] } [], none, none, none⟩] := rfl
  refine ⟨by decide, by decide, rfl, ?_⟩
  rw [hpending]
  exact ⟨_, List.mem_cons_of_mem _ List.mem_cons_self, below_append _ _⟩

/-- Answering the first item asks the second one again. -/
theorem survey_repeats_second : Committed survey ∧
    Returns survey (.run "run-1" .null) [] surveyAsked (waitingOn (itemQuestion 0)) ∧
    WaitsBeside surveyAsked [] "ask" [.null, .null] [] 0 1 ∧
    Returns survey (.answer [] (some (itemQuestion 0))) surveyAsked
      (surveyAsked ++ .answersProvided (itemQuestion 0) [] :: answeringFirst) (waitingOn (itemQuestion 1)) ∧
    ¬ LeavesWaiting surveyAsked [] "ask" [.null, .null] [] 0 answeringFirst (waitingOn (itemQuestion 1)) := by
  refine ⟨committed_survey, returns_of_attempt [] 100 rfl, second_waits, returns_of_attempt [] 100 rfl, ?_⟩
  intro hleaves
  refine hleaves.unopened 1 second_waits (.foreachItemStarted (itemPath 1) 1) ?_ rfl _ rfl List.prefix_rfl
  simp [answeringFirst, askingItem]

def surveyFirstAnswered : List RunEvent :=
  surveyAsked ++ .answersProvided (itemQuestion 0) [] :: answeringFirst

theorem produced_surveyFirstAnswered : Produced survey surveyFirstAnswered := by
  have hr : Returns survey (.answer [] (some (itemQuestion 0))) surveyAsked surveyFirstAnswered
      (waitingOn (itemQuestion 1)) := returns_of_attempt [] 100 rfl
  exact produced_surveyAsked.returns hr

def surveyForeach : ForeachDefinition :=
  { name := "ask", selector := fun _ => .ok (.array [.null, .null]), concurrency := 2, feedback := false }

def surveyEnv : RunEnv :=
  envOf survey { runId := "run-1", initialInput := .null, previousOutput := .null
                 pendingBlocks := pendingBlocksExcept surveyFirstAnswered (itemQuestion 1) }

def answeringSecond : List RunEvent :=
  [.stepCompleted (itemQuestion 1) (.object []), .foreachItemCompleted (itemPath 1) 1 (.object []),
    .nodeCompleted [{ name := "ask" }] (.array [.object [], .object []])]

/-- With the first item answered, the second one has no other item beside it. -/
theorem leavesWaiting_surveyFirstAnswered :
    LeavesWaiting surveyFirstAnswered [] "ask" [.null, .null] [(0, .object [])] 1 answeringSecond
      (.ok (.array [.object [], .object []])) := by
  have hdrive : drive (engineWorld survey) 100
      (runForeachConcurrentReentry surveyForeach (walked surveyEnv approval.nodes) [] [] [.null, .null]
        surveyEnv [(0, .object [])] { path := itemQuestion 1, answer := some ⟨[], [], none, none⟩ }) [] {} =
      some (.ok (.ok (.array [.object [], .object []])), [],
        { stepOutputs := [(staticKeyOf (itemQuestion 1), .object [])], log := answeringSecond }) := rfl
  obtain ⟨effects, he, hlog⟩ := emits_of_drive hdrive
  have hrecorded : answeringSecond = recordedEvents effects := hlog
  rw [hrecorded]
  refine (leavesWaiting_iff produced_surveyFirstAnswered rfl rfl he).mpr ?_
  rintro index ⟨hlen, hne, hhist, -⟩
  have hzero : index = 0 := by
    have : index < 2 := hlen
    omega
  subst hzero
  cases hhist

end Sample

end KimchiWorkflows.Engine
