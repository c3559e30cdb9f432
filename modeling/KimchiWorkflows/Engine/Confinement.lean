import KimchiWorkflows.Lib.Confinement
import KimchiWorkflows.Engine.ConcurrentNodes
import KimchiWorkflows.Engine.Walker

/-!
A node records events about itself, its arms and what is inside them only, and asks only at steps.
-/

namespace KimchiWorkflows.Engine

open KimchiWorkflows.Flow Process Process.Proc

def EndsPlain (path : NodePath) : Prop := ∃ parent name, path = appendSegment parent name

def KeepsTo (region : NodePath → Prop) (event : RunEvent) : Prop :=
  event.terminal = none ∧
    ∃ path, event.subject = some path ∧ region path ∧ (event.block?.isSome → EndsPlain path)

/-- What an action records or stores is of the region. -/
def ActsIn (region : NodePath → Prop) : Action → Prop
  | .emit event => KeepsTo region event
  | .setStepOutput key _ => ∃ path, region path ∧ staticKeyOf path = key
  | _ => True

/-- Code that records and stores in a region only, and blocks only inside it. -/
def Confined (region : NodePath → Prop) (code : Code) : Prop :=
  code.Only (ActsIn region) (fun result => ∀ block, result = .ok (.blocked block) → region block.path)

def Under (scope : NodePath) (names : List String) (path : NodePath) : Prop :=
  ∃ segment : PathSegment, segment.name ∈ names ∧ scope ++ [segment] <+: staticPathOf path

variable {env : RunEnv} {region region' : NodePath → Prop} {code : Code} {parentPath : NodePath}
  {frames : List ScopeFrame} {names : List String} {input : Value} {reentry : Option Reentry}

theorem Confined.mono (h : Confined region code) (hr : ∀ path, region path → region' path) :
    Confined region' code := by
  refine only_mono h ?_ ?_
  · intro action ha
    cases action with
    | emit event =>
      obtain ⟨ht, path, hs, hp, hb⟩ := ha
      exact ⟨ht, path, hs, hr path hp, hb⟩
    | setStepOutput key output =>
      obtain ⟨path, hp, hk⟩ := ha
      exact ⟨path, hr path hp, hk⟩
    | _ => exact trivial
  · intro result hres block hb
    exact hr _ (hres block hb)

theorem confined_conclude {outcome : ExecOutcome} (h : ∀ block, outcome = .blocked block → region block.path) :
    Confined region (conclude outcome) := by
  intro block hb
  exact h block (Except.ok.inj hb)

theorem confined_raise (error : String) : Confined region (raise error) := by
  intro block hb
  cases hb

theorem confined_emit {event : RunEvent} (he : KeepsTo region event) (h : Confined region code) :
    Confined region (emit event code) := ⟨he, h⟩

theorem confined_emitAll {events : List RunEvent} (he : ∀ event ∈ events, KeepsTo region event)
    (h : Confined region code) : Confined region (emitAll events code) := by
  induction events with
  | nil => exact h
  | cons event rest ih =>
    exact confined_emit (he event List.mem_cons_self) (ih (fun e hm => he e (List.mem_cons_of_mem _ hm)))

theorem confined_act {action : Action} (ha : ActsIn region action) (h : Confined region code) :
    Confined region (.act action code) := ⟨ha, h⟩

theorem confined_andThen {next : ExecOutcome → Code} (h : Confined region code)
    (hn : ∀ outcome, (∀ block, outcome = .blocked block → region block.path) → Confined region (next outcome)) :
    Confined region (andThen code next) := by
  refine only_bind h ?_
  intro result hres
  cases result with
  | ok outcome => exact hn outcome (fun block hb => hres block (congrArg Except.ok hb))
  | error error => exact confined_raise error

theorem confined_ifOk {next : Value → Code} (h : Confined region code)
    (hn : ∀ output, Confined region (next output)) : Confined region (ifOk code next) := by
  refine confined_andThen h ?_
  intro outcome ho
  cases outcome with
  | ok output => exact hn output
  | _ => exact confined_conclude ho

theorem confined_settleConcurrent {outcomes : List ExecOutcome} {stillBlocked : List PendingBlock}
    {onOk : Code} (ho : ∀ block, .blocked block ∈ outcomes → region block.path)
    (hs : ∀ block ∈ stillBlocked, region block.path) (h : Confined region onOk) :
    Confined region (settleConcurrent outcomes stillBlocked onOk) := by
  have hwaiting : ∀ block ∈ outcomes.filterMap ExecOutcome.block? ++ stillBlocked, region block.path := by
    intro block hm
    rcases List.mem_append.mp hm with hm | hm
    · obtain ⟨outcome, hmem, hb⟩ := List.mem_filterMap.mp hm
      cases outcome with
      | blocked b =>
        cases hb
        exact ho block hmem
      | _ => cases hb
    · exact hs block hm
  unfold settleConcurrent
  dsimp only
  split
  · rename_i cancelled hc
    have hmem := List.mem_of_find?_eq_some hc
    refine confined_conclude ?_
    rintro block rfl
    exact ho block hmem
  · rename_i crashed hc
    have hmem := List.mem_of_find?_eq_some hc
    refine confined_emitAll ?_ (confined_conclude ?_)
    · intro event he
      obtain ⟨block, hb, rfl⟩ := List.mem_map.mp he
      exact ⟨rfl, block.path, rfl, hwaiting block hb, by simp [RunEvent.block?]⟩
    · rintro block rfl
      exact ho block hmem
  · rename_i hw
    refine confined_conclude ?_
    rintro block hb
    cases hb
    exact hwaiting _ (by rw [hw]; exact List.mem_cons_self)
  · exact h

theorem mem_of_collectOutcomes {results : List (Option Settlement)} {outcomes : List ExecOutcome}
    (h : collectOutcomes results = .ok outcomes) : ∀ outcome ∈ outcomes, some (.ok outcome) ∈ results := by
  induction results generalizing outcomes with
  | nil =>
    cases h
    simp
  | cons result rest ih =>
    match result with
    | none =>
      intro outcome ho
      exact List.mem_cons_of_mem _ (ih h outcome ho)
    | some (.error e) => simp [collectOutcomes] at h
    | some (.ok o) =>
      simp only [collectOutcomes] at h
      cases hr : collectOutcomes rest with
      | error e =>
        rw [hr] at h
        cases h
      | ok os =>
        rw [hr] at h
        cases h
        intro outcome ho
        rcases List.mem_cons.mp ho with rfl | ho
        · exact List.mem_cons_self
        · exact List.mem_cons_of_mem _ (ih hr outcome ho)

theorem confined_pool {tasks : List Code} {localLimit : Nat} {onOk : List (Option Settlement) → Code}
    (ht : ∀ task ∈ tasks, Confined region task) (h : ∀ results, Confined region (onOk results)) :
    Confined region (runConcurrent tasks localLimit (fun results => settleAll results (onOk results))) := by
  have hjoin : ∀ results : List (Option Settlement),
      (∀ result, some result ∈ results → ∀ block, result = .ok (.blocked block) → region block.path) →
      Confined region (settleAll results (onOk results)) := by
    intro results hres
    unfold settleAll
    split
    · exact confined_raise _
    · rename_i outcomes ho
      refine confined_settleConcurrent ?_ (by simp) (h results)
      intro block hb
      exact hres _ (mem_of_collectOutcomes ho _ hb) block rfl
  cases tasks with
  | nil => exact hjoin [] (by simp)
  | cons first rest =>
    refine ⟨_, ?_, ?_, hjoin⟩
    · intro i
      show Confined region ((first :: rest).getD i first)
      rw [List.getD_eq_getElem?_getD]
      cases hi : (first :: rest)[i]? with
      | none => exact ht first List.mem_cons_self
      | some task => exact ht task (List.mem_of_getElem? hi)
    · intro i result hl
      dsimp only at hl
      split at hl <;> cases hl

section Steps

variable {path : NodePath}

def AtStep (path : NodePath) (other : NodePath) : Prop := other = path

theorem keepsTo_step {event : RunEvent} (hp : EndsPlain path) (hs : event.subject = some path)
    (ht : event.terminal = none) : KeepsTo (AtStep path) event :=
  ⟨ht, path, hs, rfl, fun _ => hp⟩

theorem confined_finishStep (hp : EndsPlain path) (isOptional : Bool) (outcome : StepOutcome) :
    Confined (AtStep path) (finishStep path isOptional outcome) := by
  cases outcome with
  | ok output => exact confined_emit (keepsTo_step hp rfl rfl) (confined_conclude (by simp))
  | blocked questionnaire conversation violation elapsedMs tokensUsed =>
    refine confined_emit (keepsTo_step hp rfl rfl) (confined_conclude ?_)
    rintro block hb
    cases hb
    rfl
  | crashed error =>
    cases isOptional with
    | false => exact confined_conclude (by simp)
    | true => exact confined_emit (keepsTo_step hp rfl rfl) (confined_conclude (by simp))
  | cancelled source => exact confined_conclude (by simp)

theorem confined_runPolicies (call : StepCall) (hp : EndsPlain call.path) (isOptional : Bool) :
    Confined (AtStep call.path) (runPolicies call isOptional) := by
  intro reply
  refine confined_emitAll ?_ (confined_finishStep hp isOptional reply.outcome)
  intro event he
  obtain ⟨note, -, rfl⟩ := List.mem_map.mp he
  cases note <;> exact keepsTo_step hp rfl rfl

theorem confined_asked {event : RunEvent} {block : PendingBlock} (hp : EndsPlain path)
    (hb : event.block? = some block) (hpath : block.path = path) :
    Confined (AtStep path) (emit event (conclude (.blocked block))) := by
  subst hpath
  refine confined_emit ?_ (confined_conclude ?_)
  · cases event <;> simp only [RunEvent.block?, reduceCtorEq, Option.some.injEq] at hb <;> subst hb <;>
      exact keepsTo_step hp rfl rfl
  · rintro b hb'
    cases hb'
    rfl

theorem confined_startStep (hp : EndsPlain path) (step : StepDefinition) (input : Value) {run : Value → Code}
    (h : ∀ value, Confined (AtStep path) (run value)) : Confined (AtStep path) (startStep step input path run) := by
  unfold startStep
  dsimp only
  split
  · exact confined_conclude (by simp)
  · exact confined_emit (keepsTo_step hp rfl rfl) (h _)

theorem confined_requestInteraction (hp : EndsPlain path) (step : InteractiveStep) (stepInput : Value) :
    Confined (AtStep path) (requestInteraction env step stepInput parentPath frames path) := by
  intro memory
  dsimp only
  split
  · exact confined_conclude (by simp)
  · split
    · exact confined_conclude (by simp)
    · split
      · exact confined_conclude (by simp)
      · exact confined_asked hp rfl rfl

theorem confined_runStepFresh (hp : EndsPlain path) (step : StepDefinition) (input : Value) :
    Confined (AtStep path) (runStepFresh env step input parentPath frames path) := by
  cases step with
  | questionnaire form => exact confined_emit (keepsTo_step hp rfl rfl) (confined_asked hp rfl rfl)
  | interactive ask => exact confined_startStep hp _ _ (fun _ => confined_requestInteraction hp _ _)
  | function work => exact confined_startStep hp _ _ (fun _ => confined_runPolicies ⟨_, _, _, _, path, _⟩ hp _)
  | agent work => exact confined_startStep hp _ _ (fun _ => confined_runPolicies ⟨_, _, _, _, path, _⟩ hp _)

theorem confined_resumeInteraction (hp : EndsPlain path) (step : InteractiveStep) (resume : InteractionResume) :
    Confined (AtStep path) (resumeInteraction step path resume) := by
  unfold resumeInteraction
  split
  · exact confined_conclude (by simp)
  · split
    · exact confined_asked hp rfl rfl
    · exact confined_emit (keepsTo_step hp rfl rfl) (confined_conclude (by simp))

theorem confined_runStepBody (hp : EndsPlain path) (step : StepDefinition) (input : Value)
    (answer : Option AnswerResume) (interaction : Option InteractionResume) :
    Confined (AtStep path) (runStepBody env step input parentPath frames path answer interaction) := by
  unfold runStepBody
  split
  · exact confined_runPolicies ⟨_, _, _, _, path, _⟩ hp _
  · exact confined_finishStep hp _ _
  · split
    · exact confined_resumeInteraction hp _ _
    · exact confined_conclude (by simp)
    · exact confined_runStepFresh hp _ _

theorem confined_runStepNode (step : StepDefinition) (input : Value) (reentry : Option Reentry) :
    Confined (AtStep (appendSegment parentPath step.name))
      (runStepNode env step input parentPath frames reentry) := by
  refine confined_act trivial (confined_act trivial (confined_act trivial ?_))
  refine only_bind (confined_runStepBody ⟨parentPath, step.name, rfl⟩ step input _ _) ?_
  intro result hres
  exact confined_act trivial (confined_act trivial hres)

end Steps

end KimchiWorkflows.Engine
