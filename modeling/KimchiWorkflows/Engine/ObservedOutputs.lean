import Mathlib.Data.List.Infix
import KimchiWorkflows.Engine.DriftCheck
import KimchiWorkflows.Engine.LoopReentry

/-!
The recorded step outputs a resumed execution can observe, and which of them the drift check vouches for.
-/

namespace KimchiWorkflows.Engine

open KimchiWorkflows.Flow Process Scheduling

variable {workflow : WorkflowDefinition} {log : List RunEvent} {call : EngineCall} {launched : Launched}
  {nodes inner : List WorkflowNode} {scope key : NodePath} {value : Value} {name : String}

/-- The scopes of a tree of nodes under their static paths; the arms of a parallel are a scope of steps. -/
inductive ScopeAt : List WorkflowNode → NodePath → List WorkflowNode → Prop where
  | here {nodes : List WorkflowNode} : ScopeAt nodes [] nodes
  | loop {nodes body inner : List WorkflowNode} {name : String} {mode : LoopMode}
      {condition : RunContext → Value → Except String Bool} {maxIterations : Nat} {scope : NodePath} :
      .loop name mode body condition maxIterations ∈ nodes → ScopeAt body scope inner →
      ScopeAt nodes ({ name := name } :: scope) inner
  | item {nodes body inner : List WorkflowNode} {name : String}
      {selector : RunContext → Except String Value} {concurrency : Nat} {feedback : Bool}
      {index : Nat} {scope : NodePath} :
      .foreach name body selector concurrency feedback ∈ nodes → ScopeAt body scope inner →
      ScopeAt nodes ({ name := name, index := some (.foreach, index) } :: scope) inner
  | arm {nodes body inner : List WorkflowNode} {branch name : String} {arms : List BranchArm}
      {condition : RunContext → Except String Bool} {scope : NodePath} :
      .branch branch arms ∈ nodes → .mk name condition body ∈ arms → ScopeAt body scope inner →
      ScopeAt nodes ({ name := name } :: scope) inner
  | parallel {nodes : List WorkflowNode} {name : String} {arms : List StepDefinition} :
      .parallel name arms ∈ nodes → ScopeAt nodes [{ name := name }] (arms.map .step)
  | nested {nodes inside inner : List WorkflowNode} {name : String} {scope : NodePath} :
      .workflow name inside ∈ nodes → ScopeAt inside scope inner →
      ScopeAt nodes ({ name := name } :: scope) inner

theorem ScopeAt.outer {outer : NodePath} (h : ScopeAt nodes scope inner) (hp : outer ∈ scope.inits) :
    ∃ between, ScopeAt nodes outer between := by
  induction h generalizing outer with
  | here =>
    obtain rfl : outer = [] := by simpa using hp
    exact ⟨_, .here⟩
  | loop hm _ ih =>
    obtain rfl | ⟨rest, hr, rfl⟩ := by simpa using hp
    · exact ⟨_, .here⟩
    · obtain ⟨between, hb⟩ := ih ((List.mem_inits _ _).mpr hr)
      exact ⟨between, .loop hm hb⟩
  | item hm _ ih =>
    obtain rfl | ⟨rest, hr, rfl⟩ := by simpa using hp
    · exact ⟨_, .here⟩
    · obtain ⟨between, hb⟩ := ih ((List.mem_inits _ _).mpr hr)
      exact ⟨between, .item hm hb⟩
  | arm hm ha _ ih =>
    obtain rfl | ⟨rest, hr, rfl⟩ := by simpa using hp
    · exact ⟨_, .here⟩
    · obtain ⟨between, hb⟩ := ih ((List.mem_inits _ _).mpr hr)
      exact ⟨between, .arm hm ha hb⟩
  | parallel hm =>
    obtain rfl | rfl : outer = [] ∨ outer = [_] := by simpa using hp
    · exact ⟨_, .here⟩
    · exact ⟨_, .parallel hm⟩
  | nested hm _ ih =>
    obtain rfl | ⟨rest, hr, rfl⟩ := by simpa using hp
    · exact ⟨_, .here⟩
    · obtain ⟨between, hb⟩ := ih ((List.mem_inits _ _).mpr hr)
      exact ⟨between, .nested hm hb⟩

/-- The keys an execution of the nodes reads outputs under. -/
inductive ReadsKey (nodes : List WorkflowNode) : NodePath → Prop where
  | bare {scope : NodePath} {inner : List WorkflowNode} {name : String} :
      ScopeAt nodes scope inner → name ∈ declaredIn (buildDeclaredNameIndex nodes) scope →
      ReadsKey nodes (scope ++ [{ name := name }])
  | node {scope : NodePath} {inner : List WorkflowNode} {node : WorkflowNode} :
      ScopeAt nodes scope inner → node ∈ inner → ReadsKey nodes (scope ++ [{ name := nodeName node }])
  | arm {scope : NodePath} {inner body : List WorkflowNode} {branch name : String} {arms : List BranchArm}
      {condition : RunContext → Except String Bool} :
      ScopeAt nodes scope inner → .branch branch arms ∈ inner → .mk name condition body ∈ arms →
      ReadsKey nodes (scope ++ [{ name := name }])

theorem readsKey_of_resolveIn {env : RunEnv} {memory : RunMemory} {scopes : List NodePath}
    (hi : env.nameIndex = buildDeclaredNameIndex nodes)
    (hs : ∀ scope ∈ scopes, ∃ inner, ScopeAt nodes scope inner)
    (h : resolveIn env memory name scopes = some (.ok value)) :
    ∃ key, ReadsKey nodes key ∧ value = memory.outputAt key := by
  induction scopes with
  | nil => cases h
  | cons scope outward ih =>
    rw [resolveIn] at h
    split at h
    · cases h
    · split at h
      · rename_i hname
        obtain ⟨inner, hscope⟩ := hs scope List.mem_cons_self
        rw [hi] at hname
        exact ⟨_, .bare hscope hname, by cases h; rfl⟩
      · exact ih (fun scope hm => hs scope (List.mem_cons_of_mem _ hm)) h

theorem readsKey_of_resolveStepResult {env : RunEnv} {memory : RunMemory}
    (hi : env.nameIndex = buildDeclaredNameIndex nodes) (hs : ScopeAt nodes scope inner)
    (h : resolveStepResult env memory scope name = .ok value) :
    ∃ key, ReadsKey nodes key ∧ value = memory.outputAt key := by
  rw [resolveStepResult] at h
  split at h
  · cases h
  · cases hr : resolveIn env memory name (scopesOutward scope) with
    | none =>
      rw [hr] at h
      cases h
    | some result =>
      rw [hr] at h
      obtain rfl : result = .ok value := h
      refine readsKey_of_resolveIn hi ?_ hr
      intro outer hm
      exact hs.outer (List.mem_reverse.mp hm)

theorem readsKey_of_reseededInput {env : RunEnv} {memory : RunMemory} {parent : NodePath} {loop : LoopDefinition}
    {body : List WorkflowNode} {iteration : Nat} {input : Value}
    (hs : ScopeAt nodes (staticChildKey parent loop.name) body) :
    reseededInput (walked env body) loop.name parent iteration input memory = input ∨
      ∃ key, ReadsKey nodes key ∧
        reseededInput (walked env body) loop.name parent iteration input memory = memory.outputAt key := by
  rw [reseededInput]
  split
  · cases htail : body.getLast? with
    | none =>
      have hwalked := getLast?_walked env body
      rw [htail, Option.map_eq_none_iff] at hwalked
      rw [hwalked]
      exact .inl rfl
    | some tail =>
      have hwalked := getLast?_walked env body
      rw [htail] at hwalked
      obtain ⟨⟨node, run⟩, hget, rfl⟩ := Option.map_eq_some_iff.mp hwalked
      rw [hget, Option.elim_some]
      by_cases hu : memory.outputAt (staticChildKey parent loop.name ++ [{ name := nodeName node }]) = .undefined
      · rw [hu]
        exact .inl rfl
      · rw [passThrough_defined hu]
        exact .inr ⟨_, .node hs (List.mem_of_getLast? htail), rfl⟩
  · exact .inl rfl

/-- A path directly inside a scope; every round of a loop is inside the loop. -/
inductive DirectlyInside : NodePath → NodePath → Prop where
  | scope (scope : NodePath) (name : String) : DirectlyInside scope (appendSegment scope name)
  | round (parent : NodePath) (loop : String) (iteration : Nat) (name : String) :
      DirectlyInside (appendSegment parent loop) (appendSegment (appendLoopIteration parent loop iteration) name)

/-- What completes inside the scope passes on what it received. -/
def PassesOn (scope : NodePath) (events : List RunEvent) : Prop :=
  ∀ event ∈ events, ∀ entry, event.completion = some entry → DirectlyInside scope entry.1 →
    entry.2 = .undefined

/-- The last output a scope received from inside is that of a step with this key, directly or handed on from
a construct inside it. -/
inductive ProducedBy : List RunEvent → NodePath → Value → NodePath → Prop where
  | step {first last : List RunEvent} {scope path : NodePath} {value : Value} :
      DirectlyInside scope path → PassesOn scope last →
      ProducedBy (first ++ .stepCompleted path value :: last) scope value (staticKeyOf path)
  | node {first last : List RunEvent} {scope path key : NodePath} {value : Value} :
      DirectlyInside scope path → PassesOn scope last → ProducedBy first path value key →
      ProducedBy (first ++ .nodeCompleted path value :: last) scope value key

/-- A recorded step output that a launched execution can observe: the key of the step and the output. -/
inductive Observable (workflow : WorkflowDefinition) (log : List RunEvent) (launched : Launched) :
    NodePath → Value → Prop where
  | seeded {first last : List RunEvent} {path : NodePath} {value : Value} :
      log = first ++ .stepCompleted path value :: last → lastCompletion last (staticKeyOf path) = none →
      ReadsKey workflow.nodes (staticKeyOf path) →
      Dict.get launched.stepOutputs (staticKeyOf path) = some value →
      Observable workflow log launched (staticKeyOf path) value
  | handedOn {first last : List RunEvent} {path key : NodePath} {value : Value} :
      log = first ++ .nodeCompleted path value :: last → lastCompletion last (staticKeyOf path) = none →
      ReadsKey workflow.nodes (staticKeyOf path) →
      Dict.get launched.stepOutputs (staticKeyOf path) = some value →
      ProducedBy first path value key → Observable workflow log launched key value
  | item {first last : List RunEvent} {parent key : NodePath} {inner body : List WorkflowNode} {name : String}
      {selector : RunContext → Except String Value} {concurrency : Nat} {feedback : Bool} {index : Nat}
      {value : Value} :
      log = first ++ .foreachItemCompleted (appendForeachItem parent name index) index value :: last →
      (∀ output, .foreachItemCompleted (appendForeachItem parent name index) index output ∉ last) →
      ScopeAt workflow.nodes (staticPathOf parent) inner →
      .foreach name body selector concurrency feedback ∈ inner →
      Dict.get ((Dict.get (buildForeachItemHistory log) (appendSegment parent name)).getD []) index = some value →
      ProducedBy first (appendForeachItem parent name index) value key →
      Observable workflow log launched key value

/-- The step was opened again after it completed, or completed again with another output. -/
def Overtaken (log : List RunEvent) (key : NodePath) (value : Value) : Prop :=
  standing log key = false ∨ lastCompletion log key ≠ some value

/-- A call that resumes a run and was not refused for drift. -/
structure Resumes (workflow : WorkflowDefinition) (log : List RunEvent) (call : EngineCall)
    (launched : Launched) : Prop where
  fresh : ∀ runId input, call ≠ .run runId input
  launched : launch workflow log call = .ok launched
  unrefused : ∃ runId input, requireRunStarted log = .ok (runId, input) ∧
    checkDrift workflow log (rebuildStepOutputs log) runId = none

theorem fits_of_standing (h : Resumes workflow log call launched) (hs : ¬ Overtaken log key value) :
    Fits workflow key value := by
  obtain ⟨hstands, hlast⟩ := not_or.mp hs
  obtain ⟨runId, input, -, hcheck⟩ := h.unrefused
  have hfit := checkDrift_eq_none_iff.mp hcheck key ((Bool.not_eq_false _).mp hstands)
  rwa [not_not.mp hlast] at hfit

/-- The step outputs a resume that was not refused can observe all fit the workflow if and only if those
that were overtaken do. -/
theorem observable_fits_iff (h : Resumes workflow log call launched) :
    (∀ key value, Observable workflow log launched key value → Fits workflow key value) ↔
      ∀ key value, Observable workflow log launched key value → Overtaken log key value →
        Fits workflow key value := by
  constructor
  · intro hall key value hobs _
    exact hall key value hobs
  · intro hovertaken key value hobs
    by_cases ho : Overtaken log key value
    · exact hovertaken key value hobs ho
    · exact fits_of_standing h ho

section Sample

def reviewBody (accepted : Option Schema) : List WorkflowNode :=
  [.step (.function { name := "work", outputSchema := accepted, isOptional := true }),
    .step (question "approve"), .step (.function { name := "report" })]

def reviewing (accepted : Option Schema) : WorkflowDefinition :=
  { name := "reviewing"
    nodes := [.loop "rounds" .dountil (reviewBody accepted) (fun _ _ => .ok false) 5] }

def noString : Schema where
  violations value :=
    match value with
    | .string _ => some "expected no string"
    | _ => none

def reviewPath (iteration : Nat) (name : String) : NodePath :=
  [{ name := "rounds", index := some (.loop, iteration) }, { name := name }]

def reviewAsked (iteration : Nat) : List RunEvent :=
  [.stepStarted (reviewPath iteration "approve") .undefined, asking (reviewPath iteration "approve")]

def reviewOnce : List RunEvent :=
  [.runStarted "run-1" "reviewing" .null, .nodeStarted [{ name := "rounds" }] .loop,
    .loopIteration [{ name := "rounds", index := some (.loop, 1) }] 1,
    .stepStarted (reviewPath 1 "work") .undefined] ++
    .stepCompleted (reviewPath 1 "work") (.string "old") :: reviewAsked 1

def reviewEnded : List RunEvent :=
  [.answersProvided (reviewPath 1 "approve") [], .stepCompleted (reviewPath 1 "approve") (.object []),
    .stepStarted (reviewPath 1 "report") .undefined, .stepCompleted (reviewPath 1 "report") .null,
    .loopIteration [{ name := "rounds", index := some (.loop, 2) }] 2,
    .stepStarted (reviewPath 2 "work") .undefined, .stepFailed (reviewPath 2 "work") "no network"] ++
    reviewAsked 2

def reviewTwice : List RunEvent := reviewOnce ++ reviewEnded

def reviewCursor (log : List RunEvent) : ExecutionCursor :=
  { runId := "run-1"
    initialInput := .null
    stepOutputs := rebuildStepOutputs log
    previousOutput := .null
    foreachItemHistory := buildForeachItemHistory log
    reentry := some { path := reviewPath 2 "approve", answer := some ⟨[], [], none, none⟩ }
    pendingBlocks := pendingBlocksExcept log (reviewPath 2 "approve") }

def reviewReload (accepted : Option Schema) (log : List RunEvent) : Launched :=
  launchAt (reviewing accepted) (.answersProvided (reviewPath 2 "approve") []) (reviewCursor log)

theorem resumes_reviewing : Resumes (reviewing (some noString)) reviewTwice (.answer [] none)
    (reviewReload (some noString) reviewTwice) where
  fresh := by simp
  launched := rfl
  unrefused := ⟨"run-1", .null, rfl, rfl⟩

theorem observable_work : Observable (reviewing (some noString)) reviewTwice
    (reviewReload (some noString) reviewTwice) (staticKeyOf (reviewPath 1 "work")) (.string "old") := by
  have hsplit : reviewTwice = reviewOnce.take 4 ++
      .stepCompleted (reviewPath 1 "work") (.string "old") :: (reviewAsked 1 ++ reviewEnded) := rfl
  exact .seeded hsplit rfl (.node (.loop List.mem_cons_self .here) List.mem_cons_self) rfl

theorem not_fits_work : ¬ Fits (reviewing (some noString)) (staticKeyOf (reviewPath 1 "work"))
    (.string "old") := by
  rintro ⟨step, hstep, hfit⟩
  obtain rfl := Option.some.inj hstep
  cases hfit

theorem review_condition_fails : ¬ ∀ key value, Observable (reviewing (some noString)) reviewTwice
    (reviewReload (some noString) reviewTwice) key value → Overtaken reviewTwice key value →
    Fits (reviewing (some noString)) key value := by
  intro hcondition
  exact not_fits_work ((observable_fits_iff resumes_reviewing).mpr hcondition _ _ observable_work)

/-- The work failed in the second round: its output of the first is not checked, and the report reads it. -/
theorem review_reads_stale :
    Returns (reviewing none) (.run "run-1" .null) [] reviewOnce (waitingOn (reviewPath 1 "approve")) ∧
    Returns (reviewing none) (.answer [] none) reviewOnce reviewTwice (waitingOn (reviewPath 2 "approve")) ∧
    Resumes (reviewing (some noString)) reviewTwice (.answer [] none)
      (reviewReload (some noString) reviewTwice) ∧
    Observable (reviewing (some noString)) reviewTwice (reviewReload (some noString) reviewTwice)
      (staticKeyOf (reviewPath 1 "work")) (.string "old") ∧
    resolveStepResult (envOf (reviewing (some noString)) (reviewCursor reviewTwice))
      ((reviewReload (some noString) reviewTwice).memory reviewTwice) [{ name := "rounds" }] "work" =
      .ok (.string "old") ∧
    ¬ Fits (reviewing (some noString)) (staticKeyOf (reviewPath 1 "work")) (.string "old") :=
  ⟨returns_of_attempt [{ outcome := .ok (.string "old") }] 100 rfl,
    returns_of_attempt [{ outcome := .ok .null }, { outcome := .crashed "no network" }] 100 rfl,
    resumes_reviewing, observable_work, rfl, not_fits_work⟩

end Sample

end KimchiWorkflows.Engine
