import KimchiWorkflows.Engine.LastWord
import KimchiWorkflows.Engine.StatusAgreement

namespace KimchiWorkflows.Engine

open KimchiWorkflows.Flow Process Process.Proc Scheduling

def RunEvent.opensCall : RunEvent → Bool
  | .runStarted _ _ _ => true
  | .runResumed _ => true
  | .answersProvided _ _ => true
  | .interactionProvided _ _ => true
  | _ => false

/-- A call has opened, and the run has not ended since. -/
def Live (log : List RunEvent) : Prop :=
  ∃ before marker after, log = before ++ marker :: after ∧ marker.opensCall = true ∧
    ∀ event ∈ after, event.terminal = none

def AtWork (log : List RunEvent) (key : NodePath) : Prop := (lastWord log key).any RunEvent.begins = true

def FailedLast (log : List RunEvent) (key : NodePath) : Prop :=
  (lastWord log key).any RunEvent.failsStep = true

variable {workflow : WorkflowDefinition} {log full : List RunEvent} {call : EngineCall} {launched : Launched}

theorem lastTerminal_concat (log : List RunEvent) (event : RunEvent) :
    lastTerminal (log ++ [event]) = event.terminal.or (lastTerminal log) := by
  rw [lastTerminal_append]
  rfl

theorem lastTerminal_eq_none_iff : lastTerminal log = none ↔ ∀ event ∈ log, event.terminal = none := by
  induction log using List.reverseRecOn with
  | nil => simp [lastTerminal]
  | append_singleton log event ih =>
    rw [lastTerminal_concat, Option.or_eq_none_iff, ih]
    simp only [List.mem_append, List.mem_singleton, or_imp, forall_and, forall_eq]
    exact and_comm

theorem terminal_ne_inProgress (event : RunEvent) : event.terminal ≠ some .inProgress := by
  cases event <;> simp [RunEvent.terminal]

theorem lastTerminal_ne_inProgress (log : List RunEvent) : lastTerminal log ≠ some .inProgress := by
  induction log using List.reverseRecOn with
  | nil => simp [lastTerminal]
  | append_singleton log event ih =>
    rw [lastTerminal_concat]
    cases ht : event.terminal with
    | none => simpa using ih
    | some status =>
      have := terminal_ne_inProgress event
      rw [ht] at this
      simpa using this

theorem atWork_iff : (∃ key, AtWork log key) ↔ hasState (deriveStepStates log) .inProgress = true := by
  rw [hasState_iff]
  exact exists_congr (fun key => (inProgress_iff log key).symm)

theorem failedLast_iff (h : ∀ event ∈ log, event.terminal = none) :
    (∃ key, FailedLast log key) ↔ hasState (deriveStepStates log) .crashed = true := by
  rw [hasState_iff]
  exact exists_congr (fun key => (crashed_iff h key).symm)

theorem status_of_started (hs : log.any RunEvent.isRunStarted = true) (hw : ∀ key, ¬ IsWaiting log key) :
    deriveRunStatus log = some .inProgress ↔
      (∃ key, AtWork log key) ∨
        ((∀ event ∈ log, event.terminal = none) ∧ ∀ key, ¬ FailedLast log key) := by
  have hblocked : hasState (deriveStepStates log) .blocked = false := by
    rw [Bool.eq_false_iff]
    intro hb
    obtain ⟨key, hk⟩ := hasState_iff.mp hb
    exact hw key (isWaiting_iff.mpr hk)
  rw [atWork_iff, ← lastTerminal_eq_none_iff]
  cases hwork : hasState (deriveStepStates log) .inProgress with
  | true => simp [deriveRunStatus, hs, hwork]
  | false =>
    cases ht : lastTerminal log with
    | some status =>
      have hne := lastTerminal_ne_inProgress log
      rw [ht] at hne
      simpa [deriveRunStatus, hs, hwork, hblocked, ht] using hne
    | none =>
      have hfail := failedLast_iff (lastTerminal_eq_none_iff.mp ht)
      rw [← not_exists, hfail]
      cases hc : hasState (deriveStepStates log) .crashed <;> simp [deriveRunStatus, hs, hwork, hblocked, ht, hc]

theorem started_of_requireRunStarted {started : String × Value} (h : requireRunStarted log = .ok started) :
    log.any RunEvent.isRunStarted = true := by
  unfold requireRunStarted at h
  split at h
  · rename_i pair hp
    obtain ⟨event, he, hs⟩ := List.exists_of_findSome?_eq_some hp
    refine List.any_eq_true.mpr ⟨event, he, ?_⟩
    cases event <;> first | rfl | cases hs
  · cases h

theorem launch_unstarted (h : launch workflow log call = .ok launched)
    (hs : log.any RunEvent.isRunStarted = false) : ∃ runId input, launched = runWorkflow workflow runId input := by
  have hno : ∀ started, requireRunStarted log ≠ .ok started := by
    intro started hr
    rw [started_of_requireRunStarted hr] at hs
    cases hs
  cases call with
  | run runId input =>
    cases h
    exact ⟨runId, input, rfl⟩
  | resume =>
    simp only [launch, resumeWorkflow] at h
    split at h
    · cases h
    · rename_i hr
      exact absurd hr (hno _)
  | answer answers path =>
    simp only [launch, resumeWithAnswer, resumeWithInput] at h
    split at h
    · cases h
    · rename_i hr
      exact absurd hr (hno _)
  | respond response path =>
    simp only [launch, resumeWithInteraction, resumeWithInput] at h
    split at h
    · cases h
    · rename_i hr
      exact absurd hr (hno _)

theorem events_runWorkflow {runId : String} {input : Value} {t : Trace} {code : Code}
    (h : Run (runWorkflow workflow runId input).code t code) :
    (∀ event ∈ recordedEvents (effectsOf t), event.opensCall = false) ∨
      ∃ event rest, recordedEvents (effectsOf t) = event :: rest ∧ event.isRunStarted = true := by
  unfold runWorkflow at h
  split at h
  · rcases run_act h with rfl | ⟨u, rfl, hu⟩
    · exact .inl (by simp [effectsOf])
    · rw [run_done hu]
      exact .inl (by simp [effectsOf, effectOf, RunEvent.opensCall])
  · rcases run_act h with rfl | ⟨u, rfl, hu⟩
    · exact .inl (by simp [effectsOf])
    · exact .inr ⟨_, recordedEvents (effectsOf u), rfl, rfl⟩

theorem opensCall_of_ofHost {event : RunEvent} (h : event.ofHost = true) : event.opensCall = false := by
  cases event <;> first | rfl | cases h

theorem Produced.started (h : Produced workflow full) :
    ∀ log, log <+: full → log.any RunEvent.isRunStarted = true ∨ ∀ event ∈ log, event.opensCall = false := by
  induction h with
  | start =>
    intro log hp
    rw [List.prefix_nil.mp hp]
    exact .inr (by simp)
  | @host full event hfull he ih =>
    intro log hp
    rcases List.prefix_concat_iff.mp hp with rfl | hp
    · rcases ih full (List.prefix_refl full) with hs | hn
      · exact .inl (by simp [hs])
      · refine .inr ?_
        intro e hm
        rcases List.mem_append.mp hm with hm | hm
        · exact hn e hm
        · rw [List.mem_singleton.mp hm]
          exact opensCall_of_ofHost he
    · exact ih log hp
  | @call full call launched t code memory hfull hl hrun hreplay ih =>
    intro log hp
    rw [log_replay hreplay] at hp
    rcases List.prefix_or_prefix_of_prefix hp (List.prefix_append full _) with hp' | ⟨rest, rfl⟩
    · exact ih log hp'
    · have hrest := (List.prefix_append_right_inj full).mp hp
      have hbase := ih full (List.prefix_refl full)
      cases hs : full.any RunEvent.isRunStarted with
      | true => exact .inl (by simp [hs])
      | false =>
        obtain ⟨runId, input, rfl⟩ := launch_unstarted hl hs
        have hquiet : ∀ event ∈ full, event.opensCall = false := by
          rcases hbase with hb | hb
          · rw [hs] at hb
            cases hb
          · exact hb
        rcases events_runWorkflow hrun with hn | ⟨event, tail, he, hstart⟩
        · refine .inr ?_
          intro e hm
          rcases List.mem_append.mp hm with hm | hm
          · exact hquiet e hm
          · exact hn e (hrest.subset hm)
        · cases rest with
          | nil => exact .inr (by simpa using hquiet)
          | cons first rest =>
            rw [he] at hrest
            obtain ⟨rfl, -⟩ := List.cons_prefix_cons.mp hrest
            exact .inl (by simp [hstart])

/-- While a call is under way and nothing waits, the run is in progress exactly when some step or arm is
at work, or when the log never ended and no step failed last. -/
theorem deriveRunStatus_live_iff (h : Produced workflow full) (hp : log <+: full) (hl : Live log)
    (hw : ∀ key, ¬ IsWaiting log key) :
    deriveRunStatus log = some .inProgress ↔
      (∃ key, AtWork log key) ∨
        ((∀ event ∈ log, event.terminal = none) ∧ ∀ key, ¬ FailedLast log key) := by
  apply status_of_started _ hw
  rcases h.started log hp with hs | hn
  · exact hs
  · obtain ⟨before, marker, after, rfl, hm, -⟩ := hl
    rw [hn marker (by simp)] at hm
    cases hm

section Sample

theorem deriveRunStatus_approvalStarted :
    deriveRunStatus [.runStarted "run-1" "review" .null] = some .inProgress := by
  have hproduced : Produced approval approvalAsked :=
    Produced.start.returns (returns_of_attempt [] 100 rfl : Returns approval (.run "run-1" .null) [] _ _)
  have hlive : Live [.runStarted "run-1" "review" .null] := ⟨[], _, [], rfl, rfl, by simp⟩
  refine (deriveRunStatus_live_iff hproduced ⟨_, rfl⟩ hlive ?_).mpr (.inr ⟨?_, ?_⟩)
  · intro key hw
    cases hw
  · intro event he
    rw [List.mem_singleton.mp he]
    rfl
  · intro key hf
    cases hf

def fragile : WorkflowDefinition := { name := "build", nodes := [.step (.function { name := "work" })] }

theorem committed_fragile : Committed fragile :=
  .flat (show fragile.nodes.flatMap bodiesOf = [] from rfl) rfl

def workPath : NodePath := [{ name := "work" }]

def fragileCrashed : List RunEvent :=
  [.runStarted "run-1" "build" .null, .stepStarted workPath .undefined, .runCrashed (some workPath) "boom"]

def fragileResumed : List RunEvent :=
  [.runResumed (some workPath), .stepStarted workPath .undefined, .stepCompleted workPath .null,
    .runCompleted .null]

/-- A run that resumes after a crash is still derived as crashed until its first step starts. -/
theorem resumed_derived_crashed : Produced fragile (fragileCrashed ++ fragileResumed) ∧
    fragileCrashed ++ [.runResumed (some workPath)] <+: fragileCrashed ++ fragileResumed ∧
    Live (fragileCrashed ++ [.runResumed (some workPath)]) ∧
    (∀ key, ¬ IsWaiting (fragileCrashed ++ [.runResumed (some workPath)]) key) ∧
    deriveRunStatus (fragileCrashed ++ [.runResumed (some workPath)]) = some .crashed := by
  have hcrashed : Returns fragile (.run "run-1" .null) [] fragileCrashed (.crashed "boom" (some workPath)) :=
    returns_of_attempt [{ outcome := .crashed "boom" }] 100 rfl
  have hresumed : Returns fragile .resume fragileCrashed (fragileCrashed ++ fragileResumed) (.ok .null) :=
    returns_of_attempt [{ outcome := .ok .null }] 100 rfl
  refine ⟨(Produced.start.returns hcrashed).returns hresumed, ⟨fragileResumed.tail, rfl⟩,
    ⟨fragileCrashed, _, [], rfl, rfl, by simp⟩, ?_, by decide⟩
  intro key hw
  have hm := Dict.mem_of_get hw
  rw [show deriveStepStates (fragileCrashed ++ [.runResumed (some workPath)]) = [(workPath, .crashed)]
    from rfl] at hm
  simp at hm

end Sample

end KimchiWorkflows.Engine
