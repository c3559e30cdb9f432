import KimchiWorkflows.Flow.StoredValue
import KimchiWorkflows.Engine.Recovery
import KimchiWorkflows.Engine.ResumeWorkflow

/-!
A log written as JSON lines and read back: each reader of a resume finds the stored image of what it
finds in the original.
-/

namespace KimchiWorkflows.Engine

open KimchiWorkflows.Flow

section Storage

variable (f : Value → Value)

def HumanInput.stored : HumanInput → HumanInput
  | .questionnaire form conversation => .questionnaire form (storedItems f conversation)
  | .interaction request => .interaction (request.stored f)

def Asked.stored (asked : Asked) : Asked := { asked with input := asked.input.stored f }

def RunEvent.stored : RunEvent → RunEvent
  | .runStarted runId workflowName input => .runStarted runId workflowName (input.stored f)
  | .stepStarted path input => .stepStarted path (input.stored f)
  | .stepCompleted path output => .stepCompleted path (output.stored f)
  | .nodeCompleted path output => .nodeCompleted path (output.stored f)
  | .foreachItemCompleted path index output => .foreachItemCompleted path index (output.stored f)
  | .runCompleted output => .runCompleted (output.stored f)
  | .questionnaireAsked path questionnaire conversation violation elapsedMs tokensUsed =>
    .questionnaireAsked path questionnaire (storedItems f conversation) violation elapsedMs tokensUsed
  | .answersProvided path answers => .answersProvided path (storedFields f answers)
  | .interactionRequested path request violation =>
    .interactionRequested path (request.stored f) violation
  | .interactionProvided path response => .interactionProvided path (response.stored f)
  | event => event

def reloaded (log : List RunEvent) : List RunEvent := log.map (RunEvent.stored f)

end Storage

variable {f : Value → Value} {log : List RunEvent} {event : RunEvent} {key : NodePath}

theorem next_stored (d : Derivation) (event : RunEvent) : d.next (event.stored f) = d.next event := by
  cases event <;> rfl

theorem deriveStepStates_reloaded (log : List RunEvent) :
    deriveStepStates (reloaded f log) = deriveStepStates log := by
  rw [deriveStepStates, deriveStepStates, reloaded, List.foldl_map]
  simp only [next_stored]

theorem deriveRunStatus_reloaded (log : List RunEvent) :
    deriveRunStatus (reloaded f log) = deriveRunStatus log := by
  have hstarted : RunEvent.isRunStarted ∘ RunEvent.stored f = RunEvent.isRunStarted :=
    funext (fun event => by cases event <;> rfl)
  have hterminal : ∀ event, (RunEvent.stored f event).terminal = event.terminal :=
    fun event => by cases event <;> rfl
  have hlast : lastTerminal (reloaded f log) = lastTerminal log := by
    rw [lastTerminal, lastTerminal, reloaded, List.foldl_map]
    simp only [hterminal]
  rw [deriveRunStatus, deriveRunStatus, deriveStepStates_reloaded, hlast, reloaded, List.any_map, hstarted]

theorem completedStepKeys_reloaded (log : List RunEvent) :
    completedStepKeys (reloaded f log) = completedStepKeys log := by
  have hnext : ∀ keys event, CompletedKeys.next keys (RunEvent.stored f event) = keys.next event :=
    fun keys event => by cases event <;> rfl
  rw [completedStepKeys, completedStepKeys, reloaded, List.foldl_map]
  simp only [hnext]

theorem completes_stored (key : NodePath) (event : RunEvent) :
    (event.stored f).completes key = (event.completes key).map (Value.stored f) := by
  cases event with
  | stepCompleted path output =>
    by_cases hk : staticKeyOf path = key <;> simp [RunEvent.stored, RunEvent.completes, RunEvent.completion, hk]
  | nodeCompleted path output =>
    by_cases hk : staticKeyOf path = key <;> simp [RunEvent.stored, RunEvent.completes, RunEvent.completion, hk]
  | _ => rfl

theorem lastCompletion_reloaded (log : List RunEvent) (key : NodePath) :
    lastCompletion (reloaded f log) key = (lastCompletion log key).map (Value.stored f) := by
  rw [lastCompletion, lastCompletion, reloaded, List.filterMap_map, ← List.getLast?_map, List.map_filterMap]
  congr 1
  apply List.filterMap_congr
  intro event _
  exact completes_stored key event

theorem completion_stored (event : RunEvent) :
    (event.stored f).completion = event.completion.map (fun entry => (entry.1, entry.2.stored f)) := by
  cases event <;> rfl

theorem rebuildStepOutputs_reloaded (log : List RunEvent) :
    rebuildStepOutputs (reloaded f log) =
      (rebuildStepOutputs log).map (fun entry => (entry.1, entry.2.stored f)) := by
  induction log using List.reverseRecOn with
  | nil => rfl
  | append_singleton log event ih =>
    rw [reloaded, List.map_append, List.map_singleton, rebuildStepOutputs_concat, rebuildStepOutputs_concat,
      completion_stored]
    rw [reloaded] at ih
    cases event.completion with
    | none => exact ih
    | some entry =>
      rw [Option.map_some, Option.elim_some, Option.elim_some, ih, Dict.set_map]

def storedOutputs (f : Value → Value) (items : List (Nat × Value)) : List (Nat × Value) :=
  items.map (fun item => (item.1, item.2.stored f))

def storedHistory (f : Value → Value) (history : ForeachItemHistory) : ForeachItemHistory :=
  history.map (fun entry => (entry.1, storedOutputs f entry.2))

theorem recordItem_stored (history : ForeachItemHistory) (path : NodePath) (index : Nat) (output : Value) :
    recordItem (storedHistory f history) path index (output.stored f) =
      storedHistory f (recordItem history path index output) := by
  rw [recordItem, recordItem]
  split
  · rename_i name n _
    have hitems : Dict.set ((Dict.get (storedHistory f history) (appendSegment path.dropLast name)).getD [])
        index (output.stored f) = storedOutputs f
          (Dict.set ((Dict.get history (appendSegment path.dropLast name)).getD []) index output) := by
      rw [storedHistory, Dict.get_map]
      cases Dict.get history (appendSegment path.dropLast name) with
      | none => rfl
      | some items => exact Dict.set_map _ items index output
    show Dict.set (storedHistory f history) (appendSegment path.dropLast name) _ = _
    rw [hitems]
    exact Dict.set_map _ history _ _
  · rfl

theorem buildForeachItemHistory_reloaded (log : List RunEvent) :
    buildForeachItemHistory (reloaded f log) = storedHistory f (buildForeachItemHistory log) := by
  induction log using List.reverseRecOn with
  | nil => rfl
  | append_singleton log event ih =>
    rw [reloaded, List.map_append, List.map_singleton, buildForeachItemHistory, buildForeachItemHistory,
      List.foldl_append, List.foldl_append, ← buildForeachItemHistory, ← buildForeachItemHistory, ← reloaded, ih]
    cases event with
    | foreachItemCompleted path index output => exact recordItem_stored _ path index output
    | _ => rfl

theorem requireRunStarted_reloaded (log : List RunEvent) :
    requireRunStarted (reloaded f log) =
      (requireRunStarted log).map (fun started => (started.1, started.2.stored f)) := by
  induction log with
  | nil => rfl
  | cons event rest ih =>
    cases event with
    | runStarted runId workflowName input => rfl
    | _ => exact ih

theorem askedBy_stored (event : RunEvent) (index : Nat) :
    askedBy (event.stored f) index = (askedBy event index).map (Asked.stored f) := by
  cases event <;> rfl

theorem askedInputs_reloaded (log : List RunEvent) :
    askedInputs (reloaded f log) = (askedInputs log).map (Asked.stored f) := by
  rw [askedInputs, askedInputs, reloaded, List.zipIdx_map, List.filterMap_map, List.map_filterMap]
  apply List.filterMap_congr
  intro entry _
  exact askedBy_stored entry.1 entry.2

theorem latestByKey_reloaded (log : List RunEvent) :
    latestByKey (reloaded f log) =
      (latestByKey log).map (fun entry => (entry.1, entry.2.stored f)) := by
  rw [latestByKey, latestByKey, askedInputs_reloaded]
  induction askedInputs log using List.reverseRecOn with
  | nil => rfl
  | append_singleton asked last ih =>
    rw [List.map_append, List.map_singleton, List.foldl_append, List.foldl_append, ih]
    exact Dict.set_map _ _ _ _

theorem pendingHumanInputs_reloaded (log : List RunEvent) :
    pendingHumanInputs (reloaded f log) = (pendingHumanInputs log).map (Asked.stored f) := by
  have hblocked : (deriveStepStates log).filterMap (fun entry => if entry.2 = .blocked then
        Dict.get (latestByKey (reloaded f log)) entry.1 else none) =
      ((deriveStepStates log).filterMap (fun entry => if entry.2 = .blocked then
        Dict.get (latestByKey log) entry.1 else none)).map (Asked.stored f) := by
    rw [List.map_filterMap]
    apply List.filterMap_congr
    intro entry _
    split
    · rw [latestByKey_reloaded]
      exact Dict.get_map _ _ _
    · rfl
  rw [pendingHumanInputs, pendingHumanInputs, deriveStepStates_reloaded, hblocked]
  exact (List.map_insertionSort (fun a b : Asked => a.index ≤ b.index) (fun a b : Asked => a.index ≤ b.index)
    (Asked.stored f) _ (fun a _ b _ => Iff.rfl)).symm

theorem settlement_stored (path : NodePath) (event : RunEvent) :
    settlement path (event.stored f) = settlement path event := by
  cases event <;> rfl

theorem settledAfter_reloaded (log : List RunEvent) (pending : Asked) :
    settledAfter (reloaded f log) (pending.stored f) = settledAfter log pending := by
  rw [settledAfter, settledAfter, reloaded, ← List.map_drop, List.findSome?_map]
  congr 1
  exact funext (settlement_stored pending.path)

/-- A choice of requests that looks only at what kind they are. -/
def ByKind (keep : Asked → Bool) : Prop := ∀ f asked, keep (Asked.stored f asked) = keep asked

theorem byKind_isQuestionnaire : ByKind Asked.isQuestionnaire := by
  rintro f ⟨index, path, form | request, violation, elapsedMs, tokensUsed⟩ <;> rfl

theorem byKind_isInteraction : ByKind Asked.isInteraction := by
  intro f asked
  rw [Asked.isInteraction, Asked.isInteraction, byKind_isQuestionnaire]

theorem selectPending_reloaded {keep : Asked → Bool} (hk : ByKind keep) (log : List RunEvent)
    (path : Option NodePath) :
    selectPending keep (reloaded f log) path = (selectPending keep log path).map (Asked.stored f) := by
  have hkeep : keep ∘ Asked.stored f = keep := funext (hk f)
  cases path with
  | some path =>
    have hat : (fun asked => keep asked && decide (asked.path = path)) ∘ Asked.stored f =
        (fun asked => keep asked && decide (asked.path = path)) :=
      funext (fun asked => congrArg (· && decide (asked.path = path)) (hk f asked))
    rw [selectPending, selectPending, findAskedAt, findAskedAt, askedInputs_reloaded, List.filter_map, hat,
      List.getLast?_map]
  | none =>
    rw [selectPending, selectPending, lastAsked, lastAsked, pendingHumanInputs_reloaded, askedInputs_reloaded,
      List.filter_map, List.filter_map, hkeep, List.head?_map, List.getLast?_map, Option.map_or]

end KimchiWorkflows.Engine
