import KimchiWorkflows.Engine.Executions
import KimchiWorkflows.Engine.LiveStatus
import KimchiWorkflows.Engine.RunnerEffects

/-!
A branch that is entered again inside one of its taken arms, against the arms its record marks as taken.
-/

namespace KimchiWorkflows.Engine

open KimchiWorkflows.Flow Process Scheduling

variable {workflow : WorkflowDefinition} {env : RunEnv} {name : String} {arms : List WalkedArm}
  {input : Value} {parentPath branchPath : NodePath} {frames : List ScopeFrame} {active : Reentry}
  {reentry : Option Reentry} {memory memory' : RunMemory} {t : Trace} {effects : List Effect}
  {outcome : ExecOutcome} {log : List RunEvent} {decisions : List DecidedArm} {record : Record}
  {recorded : String → Bool} {outputs : NodePath → Value} {finish : Record → Code}

/-- The re-entry is handed to the arm it names; without one the arm starts afresh. -/
def Enters (armName : String) (reentry armReentry : Option Reentry) : Prop :=
  armReentry = reentry.map Reentry.descend ∧ ∀ active, reentry = some active → leafNameOf active = some armName

def armFrames (frames : List ScopeFrame) (armName : String) (input : Value) : List ScopeFrame :=
  frames ++ [{ kind := .branchArm, name := armName, input := input }]

/-- A branch entered again as its record says: an arm not marked as taken is passed; before the target a
taken one is recovered; the target is handed the re-entry, and every taken one after it runs once. -/
inductive Follows (recorded : String → Bool) (outputs : NodePath → Value) (input : Value)
    (parentPath branchPath : NodePath) (frames : List ScopeFrame) :
    List WalkedArm → Record → Option Reentry → List Effect → ExecOutcome → Prop where
  | completes (record : Record) :
      Follows recorded outputs input parentPath branchPath frames [] record none
        [.recorded (.nodeCompleted branchPath (.object record))] (.ok (.object record))
  | passes {arm : BranchArm} {body : List Walked} {rest : List WalkedArm} {record : Record}
      {reentry : Option Reentry} {effects : List Effect} {outcome : ExecOutcome} :
      recorded arm.name = false →
      Follows recorded outputs input parentPath branchPath frames rest record reentry effects outcome →
      Follows recorded outputs input parentPath branchPath frames ((arm, body) :: rest) record reentry
        effects outcome
  | recovers {arm : BranchArm} {body : List Walked} {rest : List WalkedArm} {record : Record}
      {active : Reentry} {effects : List Effect} {outcome : ExecOutcome} :
      recorded arm.name = true → leafNameOf active ≠ some arm.name →
      Follows recorded outputs input parentPath branchPath frames rest
        (assign record arm.name (outputs (staticChildKey parentPath arm.name))) (some active) effects outcome →
      Follows recorded outputs input parentPath branchPath frames ((arm, body) :: rest) record (some active)
        effects outcome
  | cancels {arm : BranchArm} {body : List Walked} {rest : List WalkedArm} {record : Record}
      {reentry armReentry : Option Reentry} :
      recorded arm.name = true → Enters arm.name reentry armReentry →
      Follows recorded outputs input parentPath branchPath frames ((arm, body) :: rest) record reentry []
        (.cancelled none none)
  | stops {arm : BranchArm} {body : List Walked} {rest : List WalkedArm} {record : Record}
      {reentry armReentry : Option Reentry} {effects : List Effect} {outcome : ExecOutcome} :
      recorded arm.name = true → Enters arm.name reentry armReentry →
      Emits (runNodeSequence body input (appendSegment parentPath arm.name) (armFrames frames arm.name input) 0
        armReentry) effects outcome → outcome.output? = none →
      Follows recorded outputs input parentPath branchPath frames ((arm, body) :: rest) record reentry
        effects outcome
  | runs {arm : BranchArm} {body : List Walked} {rest : List WalkedArm} {record : Record}
      {reentry armReentry : Option Reentry} {first last : List Effect} {output : Value}
      {outcome : ExecOutcome} :
      recorded arm.name = true → Enters arm.name reentry armReentry →
      Emits (runNodeSequence body input (appendSegment parentPath arm.name) (armFrames frames arm.name input) 0
        armReentry) first (.ok output) →
      Follows recorded outputs input parentPath branchPath frames rest (assign record arm.name output) none
        last outcome →
      Follows recorded outputs input parentPath branchPath frames ((arm, body) :: rest) record reentry
        (first ++ .recorded (.nodeCompleted (appendSegment parentPath arm.name) output) :: last) outcome

/-- Somewhere in the trace the step at the end of the re-entry's path is run with what the re-entry carries. -/
def Delivered (env : RunEnv) (parentPath : NodePath) (active : Reentry) (t : Trace) : Prop :=
  ∃ step stepInput stepParent stepFrames leaf during o,
    appendSegment stepParent step.name = parentPath ++ active.path ∧
    leaf.answer = active.answer ∧ leaf.interaction = active.interaction ∧ during <:+: t ∧
    Proc.Traces (runStepNode env step stepInput stepParent stepFrames (some leaf)) during (.ok o)

/-- Every condition decides as it is recorded to have done, and an object can hold every taken arm. -/
def Steady (recorded : String → Bool) (ctx : RunContext) (arms : List WalkedArm) : Prop :=
  ∀ arm ∈ arms, arm.1.condition ctx = .ok (recorded arm.1.name) ∧
    (recorded arm.1.name = true → arm.1.name ≠ "__proto__")

/-- The constructs between a scope and the step a re-entry names still lead to it: each branch on the way decides
without an error and takes the arm the step lies in, each iteration is within its maximum, and each foreach still
selects an array that has the item. -/
inductive Leads (env : RunEnv) (memory : RunMemory) :
    List WorkflowNode → Value → NodePath → List ScopeFrame → Reentry → Prop where
  | step {nodes : List WorkflowNode} {input : Value} {parentPath : NodePath} {frames : List ScopeFrame}
      {active : Reentry} {index : Nat} {step : StepDefinition} :
      HandedTo nodes active index (.step step) → active.path = [{ name := step.name }] →
      Leads env memory nodes input parentPath frames active
  | branch {nodes : List WorkflowNode} {input received : Value} {parentPath : NodePath} {frames : List ScopeFrame}
      {active : Reentry} {index : Nat} {name : String} {before after : List BranchArm} {arm : BranchArm} :
      HandedTo nodes active index (.branch name (before ++ arm :: after)) →
      active.path.head? = some { name := arm.name } → (∀ other ∈ before, other.name ≠ arm.name) →
      (∀ other ∈ before ++ arm :: after, ∃ taken, other.condition
        (createRunContext env memory parentPath frames (appendSegment parentPath name)) = .ok taken) →
      arm.condition (createRunContext env memory parentPath frames (appendSegment parentPath name)) = .ok true →
      received = recoveredInput (walked env nodes) index input parentPath memory →
      Leads env memory arm.body received (appendSegment parentPath arm.name) (armFrames frames arm.name received)
        active.descend →
      Leads env memory nodes input parentPath frames active
  | loop {nodes : List WorkflowNode} {input received : Value} {parentPath : NodePath} {frames : List ScopeFrame}
      {active : Reentry} {index iteration maxIterations : Nat} {name : String} {mode : LoopMode}
      {body : List WorkflowNode} {condition : RunContext → Value → Except String Bool} :
      HandedTo nodes active index (.loop name mode body condition maxIterations) →
      active.path.head? = some { name := name, index := some (.loop, iteration) } → iteration ≤ maxIterations →
      received = reseededInput (walked env body) name parentPath iteration
        (recoveredInput (walked env nodes) index input parentPath memory) memory →
      Leads env memory body received (appendLoopIteration parentPath name iteration)
        (frames ++ [loopFrame name iteration received]) active.descend →
      Leads env memory nodes input parentPath frames active
  | item {nodes : List WorkflowNode} {input received : Value} {parentPath : NodePath} {frames : List ScopeFrame}
      {active : Reentry} {index item : Nat} {each : ForeachDefinition} {body : List WorkflowNode}
      {items : List Value} :
      HandedTo nodes active index (.foreach each.name body each.selector each.concurrency each.feedback) →
      active.path.head? = some { name := each.name, index := some (.foreach, item) } →
      each.selector (createRunContext env memory parentPath frames (foreachPath each parentPath)) =
        .ok (.array items) → (each.concurrency ≤ 1 → item < items.length) →
      received = reenteredInput env each parentPath items
        (recoveredInput (walked env nodes) index input parentPath memory) item →
      Leads env memory body received (appendForeachItem parentPath each.name item)
        (frames ++ [foreachFrame each.name item items]) active.descend →
      Leads env memory nodes input parentPath frames active
  | parallel {nodes : List WorkflowNode} {input : Value} {parentPath : NodePath} {frames : List ScopeFrame}
      {active : Reentry} {index : Nat} {name : String} {arms : List StepDefinition} {arm : StepDefinition} :
      HandedTo nodes active index (.parallel name arms) → arm ∈ arms →
      active.path = [{ name := name }, { name := arm.name }] →
      Leads env memory nodes input parentPath frames active
  | workflow {nodes nested : List WorkflowNode} {input received : Value} {parentPath : NodePath}
      {frames : List ScopeFrame} {active : Reentry} {index : Nat} {name : String} :
      HandedTo nodes active index (.workflow name nested) → active.path.head? = some { name := name } →
      received = recoveredInput (walked env nodes) index input parentPath memory →
      Leads env memory nested received (appendSegment parentPath name)
        (frames ++ [{ kind := .workflow, name := name, input := received }]) active.descend →
      Leads env memory nodes input parentPath frames active

section Walk

variable {rest : List DecidedArm} {arm : BranchArm} {body : List Walked} {armReentry : Option Reentry}

end Walk

section Way

variable {seen : RunMemory} {parts : List BranchArm}

theorem path_of_head {segment : PathSegment} (h : active.path.head? = some segment) :
    (parentPath ++ [segment]) ++ active.descend.path = parentPath ++ active.path := by
  obtain ⟨rest, hpath⟩ := List.head?_eq_some_iff.mp h
  simp [Reentry.descend, hpath]

theorem Delivered.outward {segment : PathSegment} {during : Trace}
    (h : Delivered env (parentPath ++ [segment]) active.descend during)
    (hhead : active.path.head? = some segment) (hi : during <:+: t) : Delivered env parentPath active t := by
  obtain ⟨step, stepInput, stepParent, stepFrames, leaf, first, o, hpath, ha, hr, hfirst, hrun⟩ := h
  exact ⟨step, stepInput, stepParent, stepFrames, leaf, first, o, hpath.trans (path_of_head hhead), ha, hr,
    hfirst.trans hi, hrun⟩

theorem Delivered.widen {during : Trace} (h : Delivered env parentPath active during) (hi : during <:+: t) :
    Delivered env parentPath active t := by
  obtain ⟨step, stepInput, stepParent, stepFrames, leaf, first, o, hpath, ha, hr, hfirst, hrun⟩ := h
  exact ⟨step, stepInput, stepParent, stepFrames, leaf, first, o, hpath, ha, hr, hfirst.trans hi, hrun⟩

end Way

section Sample

/-- An arm whose question lies in the arm of a branch further in. -/
def reviewArm : BranchArm :=
  .mk "review" (fun _ => .ok true) [.branch "gate" [.mk "open" (fun _ => .ok true) approval.nodes]]

def guarded : WorkflowDefinition := { name := "release", nodes := [.branch "branch-1" [reviewArm]] }

/-- The second arm is taken as long as the first one has no result. -/
def triage : WorkflowDefinition :=
  { name := "triage"
    nodes := [.branch "route"
      [.mk "first" (fun _ => .ok true) fragile.nodes,
        .mk "second" (fun ctx => (ctx.getStepResult "first").map Value.isUndefined) approval.nodes]] }

def triagePath (arm step : String) : NodePath := [{ name := arm }, { name := step }]

def triageAsked : List RunEvent :=
  [.runStarted "run-1" "triage" .null, .nodeStarted [{ name := "route" }] .branch,
    .branchArm [{ name := "first" }] true, .branchArm [{ name := "second" }] true,
    .stepStarted (triagePath "first" "work") .undefined, .stepCompleted (triagePath "first" "work") .null,
    .nodeCompleted [{ name := "first" }] .null,
    .stepStarted (triagePath "second" "approve") .undefined, asking (triagePath "second" "approve")]

theorem committed_triage : Committed triage := by
  refine .assembled [fragile, approval] ?_ (show triage.nodes.flatMap bodiesOf = _ from rfl) rfl
  exact List.forall_mem_cons.mpr ⟨committed_fragile, List.forall_mem_singleton.mpr committed_approval⟩

end Sample

end KimchiWorkflows.Engine
