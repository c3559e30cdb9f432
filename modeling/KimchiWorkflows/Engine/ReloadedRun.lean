import KimchiWorkflows.Engine.PendingHistory
import KimchiWorkflows.Engine.StatusAgreement
import KimchiWorkflows.Engine.StoredLog

/-!
When a resume from the log on disk is the resume from the log in memory.
-/

namespace KimchiWorkflows.Engine

open KimchiWorkflows.Flow Process Scheduling

variable {f : Value → Value} {log log' : List RunEvent} {workflow : WorkflowDefinition}

def HumanInput.value : HumanInput → Value
  | .questionnaire _ conversation => .array conversation
  | .interaction request => request

/-- The values an entry point takes from a log: the run's input, outputs, items and what was asked. -/
inductive Recalls (log : List RunEvent) : Value → Prop where
  | started {runId : String} {input : Value} :
      requireRunStarted log = .ok (runId, input) → Recalls log input
  | output {key : NodePath} {output : Value} : (key, output) ∈ rebuildStepOutputs log → Recalls log output
  | item {path : NodePath} {items : List (Nat × Value)} {index : Nat} {output : Value} :
      (path, items) ∈ buildForeachItemHistory log → (index, output) ∈ items → Recalls log output
  | pending {asked : Asked} : asked ∈ pendingHumanInputs log → Recalls log asked.input.value
  | questionnaire {asked : Asked} {path : Option NodePath} :
      selectPending Asked.isQuestionnaire log path = some asked → Recalls log asked.input.value
  | interaction {asked : Asked} {path : Option NodePath} :
      selectPending Asked.isInteraction log path = some asked → Recalls log asked.input.value

structure SameRecovery (log log' : List RunEvent) : Prop where
  started : requireRunStarted log = requireRunStarted log'
  outputs : rebuildStepOutputs log = rebuildStepOutputs log'
  items : buildForeachItemHistory log = buildForeachItemHistory log'
  pending : pendingHumanInputs log = pendingHumanInputs log'
  questionnaire : ∀ path,
    selectPending Asked.isQuestionnaire log path = selectPending Asked.isQuestionnaire log' path
  interaction : ∀ path,
    selectPending Asked.isInteraction log path = selectPending Asked.isInteraction log' path

theorem stored_input_eq_iff {input : HumanInput} (h : input.value.isData = true) :
    input.stored f = input ↔ input.value.isWhole = true := by
  cases input with
  | questionnaire form conversation =>
    rw [HumanInput.stored, HumanInput.questionnaire.injEq, eq_self_iff_true, true_and]
    exact storedItems_eq_iff conversation h
  | interaction request =>
    rw [HumanInput.stored, HumanInput.interaction.injEq]
    exact stored_eq_iff request h

theorem stored_asked_eq_iff {asked : Asked} (h : asked.input.value.isData = true) :
    asked.stored f = asked ↔ asked.input.value.isWhole = true := by
  rw [← stored_input_eq_iff (f := f) h]
  constructor
  · intro he
    exact congrArg Asked.input he
  · intro he
    rw [Asked.stored, he]

theorem map_eq_self_iff {α : Type} {f : α → α} {l : List α} : l.map f = l ↔ ∀ a ∈ l, f a = a := by
  conv_lhs => rhs; rw [← List.map_id l]
  exact List.map_inj_left

theorem option_map_eq_self_iff {α : Type} {f : α → α} {o : Option α} :
    o.map f = o ↔ ∀ a, o = some a → f a = a := by
  cases o <;> simp

theorem storedOutputs_eq_iff {items : List (Nat × Value)} (h : ∀ entry ∈ items, entry.2.isData = true) :
    storedOutputs f items = items ↔ ∀ entry ∈ items, entry.2.isWhole = true := by
  rw [storedOutputs, map_eq_self_iff]
  refine forall₂_congr (fun entry hm => ?_)
  rw [← stored_eq_iff (f := f) entry.2 (h entry hm)]
  exact ⟨fun he => congrArg Prod.snd he, fun he => by rw [he]⟩

theorem started_reloaded_iff (hd : ∀ value, Recalls log value → value.isData = true) :
    requireRunStarted (reloaded f log) = requireRunStarted log ↔
      ∀ runId input, requireRunStarted log = .ok (runId, input) → input.isWhole = true := by
  rw [requireRunStarted_reloaded]
  cases hs : requireRunStarted log with
  | error error => simp [Except.map]
  | ok started =>
    obtain ⟨runId, input⟩ := started
    rw [Except.map, Except.ok.injEq, Prod.mk.injEq, stored_eq_iff input (hd input (.started hs))]
    simp

theorem outputs_reloaded_iff (hd : ∀ value, Recalls log value → value.isData = true) :
    rebuildStepOutputs (reloaded f log) = rebuildStepOutputs log ↔
      ∀ entry ∈ rebuildStepOutputs log, entry.2.isWhole = true := by
  rw [rebuildStepOutputs_reloaded, map_eq_self_iff]
  refine forall₂_congr (fun entry hm => ?_)
  rw [← stored_eq_iff (f := f) entry.2 (hd entry.2 (.output hm))]
  exact ⟨fun he => congrArg Prod.snd he, fun he => by rw [he]⟩

theorem items_reloaded_iff (hd : ∀ value, Recalls log value → value.isData = true) :
    buildForeachItemHistory (reloaded f log) = buildForeachItemHistory log ↔
      ∀ entry ∈ buildForeachItemHistory log, ∀ item ∈ entry.2, item.2.isWhole = true := by
  rw [buildForeachItemHistory_reloaded, storedHistory, map_eq_self_iff]
  refine forall₂_congr (fun entry hm => ?_)
  rw [← storedOutputs_eq_iff (f := f) (fun item hi => hd item.2 (.item hm hi))]
  exact ⟨fun he => congrArg Prod.snd he, fun he => by rw [he]⟩

theorem pending_reloaded_iff (hd : ∀ value, Recalls log value → value.isData = true) :
    pendingHumanInputs (reloaded f log) = pendingHumanInputs log ↔
      ∀ asked ∈ pendingHumanInputs log, asked.input.value.isWhole = true := by
  rw [pendingHumanInputs_reloaded, map_eq_self_iff]
  exact forall₂_congr (fun asked hm => stored_asked_eq_iff (hd _ (.pending hm)))

theorem selected_reloaded_iff {keep : Asked → Bool} (path : Option NodePath) (hk : ByKind keep)
    (hd : ∀ asked, selectPending keep log path = some asked → asked.input.value.isData = true) :
    selectPending keep (reloaded f log) path = selectPending keep log path ↔
      ∀ asked, selectPending keep log path = some asked → asked.input.value.isWhole = true := by
  rw [selectPending_reloaded hk, option_map_eq_self_iff]
  exact forall₂_congr (fun asked hs => stored_asked_eq_iff (hd asked hs))

theorem mem_askedInputs_of_pending {asked : Asked} (h : asked ∈ pendingHumanInputs log) :
    asked ∈ askedInputs log :=
  (get_latestByKey (mem_pendingHumanInputs h).2).1

theorem mem_askedInputs_of_select {keep : Asked → Bool} {path : Option NodePath} {asked : Asked}
    (h : selectPending keep log path = some asked) : asked ∈ askedInputs log := by
  cases path with
  | some path => exact List.mem_of_mem_filter (List.mem_of_getLast? h)
  | none =>
    obtain hpending | ⟨-, hlast⟩ := Option.or_eq_some_iff.mp h
    · exact mem_askedInputs_of_pending (List.mem_of_mem_filter (List.mem_of_mem_head? hpending))
    · exact List.mem_of_mem_filter (List.mem_of_getLast? hlast)

theorem sameRecovery_reloaded_iff (hd : ∀ value, Recalls log value → value.isData = true) :
    SameRecovery (reloaded f log) log ↔ ∀ value, Recalls log value → value.isWhole = true := by
  have hquestionnaire path := selected_reloaded_iff (f := f) path byKind_isQuestionnaire
    (fun asked hs => hd _ (.questionnaire hs))
  have hinteraction path := selected_reloaded_iff (f := f) path byKind_isInteraction
    (fun asked hs => hd _ (.interaction hs))
  constructor
  · intro h value hv
    cases hv with
    | started hs => exact (started_reloaded_iff hd).mp h.started _ _ hs
    | output hm => exact (outputs_reloaded_iff hd).mp h.outputs _ hm
    | item hm hi => exact (items_reloaded_iff hd).mp h.items _ hm _ hi
    | pending hm => exact (pending_reloaded_iff hd).mp h.pending _ hm
    | questionnaire hs => exact (hquestionnaire _).mp (h.questionnaire _) _ hs
    | interaction hs => exact (hinteraction _).mp (h.interaction _) _ hs
  · intro h
    exact
      { started := (started_reloaded_iff hd).mpr (fun runId input hs => h _ (.started hs))
        outputs := (outputs_reloaded_iff hd).mpr (fun entry hm => h _ (.output hm))
        items := (items_reloaded_iff hd).mpr (fun entry hm item hi => h _ (.item hm hi))
        pending := (pending_reloaded_iff hd).mpr (fun asked hm => h _ (.pending hm))
        questionnaire := fun path => (hquestionnaire path).mpr (fun asked hs => h _ (.questionnaire hs))
        interaction := fun path => (hinteraction path).mpr (fun asked hs => h _ (.interaction hs)) }

theorem checkDrift_reloaded (outputs : StepOutputs) (runId : String) :
    checkDrift workflow (reloaded f log) outputs runId = checkDrift workflow log outputs runId := by
  rw [checkDrift, checkDrift, completedStepKeys_reloaded]

theorem pendingBlocksExcept_congr (h : pendingHumanInputs log = pendingHumanInputs log') (target : NodePath) :
    pendingBlocksExcept log target = pendingBlocksExcept log' target := by
  rw [pendingBlocksExcept, pendingBlocksExcept, h]

theorem resumeWithInput_reloaded {keep : Asked → Bool} {path : Option NodePath} {missing : String}
    {overtaken : String → String → String} {provided : NodePath → RunEvent} {deliver : Asked → Reentry}
    (hk : ByKind keep) (h : SameRecovery (reloaded f log) log)
    (hs : selectPending keep (reloaded f log) path = selectPending keep log path) :
    resumeWithInput workflow (reloaded f log) keep path missing overtaken provided deliver =
      resumeWithInput workflow log keep path missing overtaken provided deliver := by
  have hsettled : ∀ asked, selectPending keep log path = some asked →
      settledAfter (reloaded f log) asked = settledAfter log asked := by
    intro asked ha
    have hfixed := selectPending_reloaded (f := f) hk log path
    rw [hs, ha, Option.map_some, Option.some.injEq] at hfixed
    have hafter := settledAfter_reloaded (f := f) log asked
    rwa [← hfixed] at hafter
  rw [resumeWithInput, resumeWithInput, h.started]
  cases requireRunStarted log with
  | error error => rfl
  | ok started =>
    obtain ⟨runId, input⟩ := started
    simp only [hs]
    cases ha : selectPending keep log path with
    | none => rfl
    | some asked =>
      simp only [hsettled asked ha, h.outputs, h.items, checkDrift_reloaded,
        pendingBlocksExcept_congr h.pending]

theorem launch_reloaded (h : SameRecovery (reloaded f log) log) (call : EngineCall) :
    launch workflow (reloaded f log) call = launch workflow log call := by
  cases call with
  | run runId input => rfl
  | resume =>
    rw [launch, launch, resumeWorkflow, resumeWorkflow, h.started, h.outputs]
    cases requireRunStarted log with
    | error error => rfl
    | ok started =>
      simp only [checkDrift_reloaded, resumeCursor, h.outputs, h.items]
  | answer answers path =>
    rw [launch, launch, resumeWithAnswer, resumeWithAnswer]
    exact resumeWithInput_reloaded byKind_isQuestionnaire h (h.questionnaire path)
  | respond response path =>
    rw [launch, launch, resumeWithInteraction, resumeWithInteraction]
    exact resumeWithInput_reloaded byKind_isInteraction h (h.interaction path)

/-- The log on disk carries the run of the log in memory if and only if no value that a resume takes from
it has an undefined element or member. -/
theorem reload_faithful_iff (hd : ∀ value, Recalls log value → value.isData = true) :
    (SameRecovery (reloaded f log) log ∧
      (∀ workflow call, launch workflow (reloaded f log) call = launch workflow log call) ∧
      deriveRunStatus (reloaded f log) = deriveRunStatus log) ↔
    ∀ value, Recalls log value → value.isWhole = true := by
  rw [← sameRecovery_reloaded_iff (f := f) hd]
  constructor
  · intro h
    exact h.1
  · intro h
    exact ⟨h, fun workflow call => launch_reloaded h call, deriveRunStatus_reloaded log⟩

section Sample

def surveying : WorkflowDefinition :=
  { name := "surveying"
    nodes := [.foreach "each" [.step (.function { name := "work", isOptional := true })]
      (fun _ => .ok (.array [.string "a"])) 1 false, .step (question "approve")] }

def surveyItem : NodePath := [{ name := "each", index := some (.foreach, 0) }]

def surveyed : List RunEvent :=
  [.runStarted "run-1" "surveying" .null, .foreachStarted [{ name := "each" }] 1,
    .foreachItemStarted surveyItem 0,
    .stepStarted (surveyItem ++ [{ name := "work" }]) .undefined,
    .stepCompleted (surveyItem ++ [{ name := "work" }]) (.string "A"), .foreachItemCompleted surveyItem 0 (.string "A"),
    .nodeCompleted [{ name := "each" }] (.array [.string "A"]), .stepStarted approvalPath .undefined,
    asking approvalPath]

theorem recalls_surveyed {value : Value} (h : Recalls surveyed value) :
    value = .null ∨ value = .string "A" ∨ value = .array [.string "A"] ∨ value = .array [] := by
  have hasked : ∀ asked ∈ askedInputs surveyed, asked.input.value = .array [] := by
    intro asked hm
    rw [show askedInputs surveyed = [_] from rfl, List.mem_singleton] at hm
    rw [hm]
    rfl
  cases h with
  | started hs =>
    cases hs
    exact .inl rfl
  | output hm =>
    rw [show rebuildStepOutputs surveyed = [_, _] from rfl, List.mem_pair] at hm
    obtain hm | hm := hm
    · cases hm
      exact .inr (.inl rfl)
    · cases hm
      exact .inr (.inr (.inl rfl))
  | item hm hi =>
    rw [show buildForeachItemHistory surveyed = [_] from rfl, List.mem_singleton] at hm
    cases hm
    cases List.mem_singleton.mp hi
    exact .inr (.inl rfl)
  | pending hm => exact .inr (.inr (.inr (hasked _ (mem_askedInputs_of_pending hm))))
  | questionnaire hs => exact .inr (.inr (.inr (hasked _ (mem_askedInputs_of_select hs))))
  | interaction hs => exact .inr (.inr (.inr (hasked _ (mem_askedInputs_of_select hs))))

theorem surveyed_reloads :
    Returns surveying (.run "run-1" .null) [] surveyed (waitingOn approvalPath) ∧
      SameRecovery (reloaded id surveyed) surveyed ∧
      (∀ workflow call, launch workflow (reloaded id surveyed) call = launch workflow surveyed call) ∧
      deriveRunStatus (reloaded id surveyed) = deriveRunStatus surveyed := by
  have hdata : ∀ value, Recalls surveyed value → value.isData = true := by
    intro value h
    obtain rfl | rfl | rfl | rfl := recalls_surveyed h <;> rfl
  have hwhole : ∀ value, Recalls surveyed value → value.isWhole = true := by
    intro value h
    obtain rfl | rfl | rfl | rfl := recalls_surveyed h <;> rfl
  exact ⟨returns_of_attempt [{ outcome := .ok (.string "A") }] 100 rfl, (reload_faithful_iff hdata).mpr hwhole⟩

def surveyBlocked : List RunEvent :=
  [.runStarted "run-1" "surveying" .null, .foreachStarted [{ name := "each" }] 1,
    .foreachItemStarted surveyItem 0,
    .stepStarted (surveyItem ++ [{ name := "work" }]) .undefined,
    .stepFailed (surveyItem ++ [{ name := "work" }]) "no network", .foreachItemCompleted surveyItem 0 .undefined,
    .nodeCompleted [{ name := "each" }] (.array [.undefined]), .stepStarted approvalPath .undefined,
    asking approvalPath]

def surveyCursor (log : List RunEvent) : ExecutionCursor :=
  { runId := "run-1"
    initialInput := .null
    stepOutputs := rebuildStepOutputs log
    previousOutput := .null
    foreachItemHistory := buildForeachItemHistory log
    reentry := some { path := approvalPath, answer := some ⟨[], [], none, none⟩ }
    pendingBlocks := pendingBlocksExcept log approvalPath }

def surveyAnswered (log : List RunEvent) : Launched :=
  launchAt surveying (.answersProvided approvalPath []) (surveyCursor log)

theorem isData_surveyBlocked (value : Value) (h : Recalls surveyBlocked value) : value.isData = true := by
  have hasked : ∀ asked ∈ askedInputs surveyBlocked, asked.input.value.isData = true := by
    intro asked hm
    rw [show askedInputs surveyBlocked = [_] from rfl, List.mem_singleton] at hm
    rw [hm]
    rfl
  cases h with
  | started hs =>
    cases hs
    rfl
  | output hm =>
    rw [show rebuildStepOutputs surveyBlocked = [_] from rfl, List.mem_singleton] at hm
    cases hm
    rfl
  | item hm hi =>
    rw [show buildForeachItemHistory surveyBlocked = [_] from rfl, List.mem_singleton] at hm
    cases hm
    obtain hi := List.mem_singleton.mp hi
    cases hi
    rfl
  | pending hm => exact hasked _ (mem_askedInputs_of_pending hm)
  | questionnaire hs => exact hasked _ (mem_askedInputs_of_select hs)
  | interaction hs => exact hasked _ (mem_askedInputs_of_select hs)

/-- The lost item is undefined in memory; on disk it is null, and the next step is handed that. -/
theorem survey_reloads_differently :
    Returns surveying (.run "run-1" .null) [] surveyBlocked (waitingOn approvalPath) ∧
    launch surveying surveyBlocked (.answer [] none) = .ok (surveyAnswered surveyBlocked) ∧
    launch surveying (reloaded id surveyBlocked) (.answer [] none) =
      .ok (surveyAnswered (reloaded id surveyBlocked)) ∧
    (∀ value, Recalls surveyBlocked value → value.isData = true) ∧
    ((surveyAnswered surveyBlocked).memory surveyBlocked).outputAt [{ name := "each" }] = .array [.undefined] ∧
    ((surveyAnswered (reloaded id surveyBlocked)).memory (reloaded id surveyBlocked)).outputAt
      [{ name := "each" }] = .array [.null] ∧
    rebuildStepOutputs (reloaded id surveyBlocked) ≠ rebuildStepOutputs surveyBlocked := by
  exact ⟨returns_of_attempt [{ outcome := .crashed "no network" }] 100 rfl, rfl, rfl, isData_surveyBlocked, rfl,
    rfl, by decide⟩

end Sample

end KimchiWorkflows.Engine
