import KimchiWorkflows.Engine.LoopFeedback
import KimchiWorkflows.Engine.PlainAsks
import KimchiWorkflows.Engine.StatusAgreement

/-!
The input of the iteration a loop is entered again at, against the one it had in the run that blocked.
-/

namespace KimchiWorkflows.Engine

open KimchiWorkflows.Flow Process Process.Proc Scheduling

variable {env : RunEnv} {loop : LoopDefinition} {parentPath : NodePath} {frames : List ScopeFrame}
  {effects : List Effect} {outputs : List Value} {start fed : Value} {reentry : Option Reentry}
  {first last : Nat} {block : PendingBlock} {nodes : List WorkflowNode} {body : List Walked}

def iterationOpened (loop : LoopDefinition) (parentPath : NodePath) (iteration : Nat)
    (reentry : Option Reentry) : List Effect :=
  if reentry.isSome then []
  else [.recorded (.loopIteration (appendLoopIteration parentPath loop.name iteration) iteration)]

/-- A loop that starts at one iteration with a value, lets its rounds output the values in the list,
and blocks in a later iteration, which was fed the last value. -/
inductive BlocksIn (env : RunEnv) (loop : LoopDefinition) (body : List Walked) (parentPath : NodePath)
    (frames : List ScopeFrame) : Nat → Value → Option Reentry → List Effect → List Value → Nat → Value →
    PendingBlock → Prop where
  | here {iteration : Nat} {input : Value} {reentry : Option Reentry} {effects : List Effect}
      {block : PendingBlock} :
      Emits (runNodeSequence body input (appendLoopIteration parentPath loop.name iteration)
        (frames ++ [loopFrame loop.name iteration input]) 0 reentry) effects (.blocked block) →
      BlocksIn env loop body parentPath frames iteration input reentry
        (iterationOpened loop parentPath iteration reentry ++ effects) [] iteration input block
  | round {iteration last : Nat} {input output fed : Value} {reentry : Option Reentry}
      {effects rest : List Effect} {outputs : List Value} {block : PendingBlock} :
      Emits (runNodeSequence body input (appendLoopIteration parentPath loop.name iteration)
        (frames ++ [loopFrame loop.name iteration input]) 0 reentry) effects (.ok output) →
      BlocksIn env loop body parentPath frames (iteration + 1) (passThrough output input) none rest outputs
        last fed block →
      BlocksIn env loop body parentPath frames iteration input reentry
        (iterationOpened loop parentPath iteration reentry ++ (effects ++ rest)) (output :: outputs) last
        fed block

/-- Every run of a loop that blocks does so in some iteration. -/
theorem blocksIn_of_iterate {remaining : Nat}
    (h : Emits (iterate env loop body parentPath frames remaining first start reentry) effects
      (.blocked block)) :
    ∃ outputs last fed, BlocksIn env loop body parentPath frames first start reentry effects outputs last fed
      block := by
  induction remaining generalizing first start reentry effects with
  | zero =>
    have := (emits_conclude h).2
    cases this
  | succ remaining ih =>
    rcases emits_iterate h with ⟨-, ho⟩ | ⟨opening, rest, bodyFrames, rfl, rfl, rfl, hbody⟩
    · cases ho
    · rcases hbody with ⟨hstop, -⟩ | ⟨round, more, output, rfl, hround, hend⟩
      · exact ⟨[], first, start, .here hstop⟩
      · rcases hend with ⟨-, error, path, ho⟩ | ⟨-, ho⟩ | hnext
        · cases ho
        · cases ho
        · obtain ⟨outputs, last, fed, hrest⟩ := ih hnext
          exact ⟨output :: outputs, last, fed, .round hround hrest⟩

def fedAfter (start : Value) (outputs : List Value) : Value :=
  outputs.foldl (fun fed output => passThrough output fed) start

theorem BlocksIn.fedAfter_eq (h : BlocksIn env loop body parentPath frames first start reentry effects outputs last fed
    block) : fed = fedAfter start outputs := by
  induction h with
  | here hbody => rfl
  | round hround hrest ih => exact ih

theorem passThrough_undefined (received : Value) : passThrough .undefined received = received := rfl

theorem passThrough_defined {output : Value} (h : output ≠ .undefined) (received : Value) :
    passThrough output received = output := by
  cases output <;> first | rfl | exact absurd rfl h

theorem lastCompletion_opened (parentPath : NodePath) (iteration : Nat) (reentry : Option Reentry)
    (effects : List Effect) (key : NodePath) :
    lastCompletion (recordedEvents (iterationOpened loop parentPath iteration reentry ++ effects)) key =
      lastCompletion (recordedEvents effects) key := by
  unfold iterationOpened
  split
  · rfl
  · rw [recordedEvents_append, lastCompletion_append]
    exact Option.or_none

variable {tail : WorkflowNode}

def tailKey (parentPath : NodePath) (name : String) (tail : WorkflowNode) : NodePath :=
  staticChildKey parentPath name ++ [{ name := nodeName tail }]

theorem staticChildKey_iteration (iteration : Nat) :
    staticChildKey (appendLoopIteration parentPath loop.name iteration) (nodeName tail) =
      tailKey parentPath loop.name tail := by
  rw [staticChildKey, staticPathOf_appendLoopIteration]
  rfl

theorem fed_of_record (henv : PendingByKey env) (hunique : (nodes.flatMap scopeNames).Nodup)
    (hlast : nodes.getLast? = some tail)
    (h : BlocksIn env loop (walked env nodes) parentPath frames first start reentry effects outputs last fed
      block) :
    (∀ output, lastCompletion (recordedEvents effects) (tailKey parentPath loop.name tail) = some output →
      output ≠ .undefined → fed = output) ∧
    (lastCompletion (recordedEvents effects) (tailKey parentPath loop.name tail) = none → fed = start) := by
  induction h with
  | @here iteration input reentry effects block hbody =>
    have hrecord := record_of_body henv hunique hlast hbody
    rw [staticChildKey_iteration] at hrecord
    rw [lastCompletion_opened]
    refine ⟨?_, fun _ => rfl⟩
    intro output ho
    rw [show lastCompletion (recordedEvents effects) (tailKey parentPath loop.name tail) = none from
      hrecord] at ho
    cases ho
  | @round iteration last input output fed reentry effects rest outputs block hround _ ih =>
    have hrecord := record_of_body henv hunique hlast hround
    rw [staticChildKey_iteration] at hrecord
    rw [lastCompletion_opened, recordedEvents_append, lastCompletion_append]
    cases hlater : lastCompletion (recordedEvents rest) (tailKey parentPath loop.name tail) with
    | some later =>
      refine ⟨?_, by simp⟩
      intro value hv
      obtain rfl : later = value := by simpa using hv
      exact ih.1 later hlater
    | none =>
      have hfed := ih.2 hlater
      rw [Option.none_or]
      rcases hrecord with hsome | ⟨hnone, rfl⟩
      · rw [hsome]
        refine ⟨?_, by simp⟩
        intro value hv hdefined
        obtain rfl : output = value := Option.some.inj hv
        rw [hfed, passThrough_defined hdefined]
      · rw [hnone]
        exact ⟨by simp, fun _ => hfed⟩

/-- The record of the run that blocked, and what was on record before it, rebuild the value it fed. -/
def RebuildsFeed (before : List RunEvent) (new : List RunEvent) (key : NodePath) (input start : Value)
    (outputs : List Value) : Prop :=
  match lastCompletion new key with
  | some output => output ≠ .undefined ∨ fedAfter start outputs = input
  | none => start = passThrough ((lastCompletion before key).getD .undefined) input

variable {workflow : WorkflowDefinition} {before log : List RunEvent} {cursor : ExecutionCursor}
  {input : Value} {memory : RunMemory}

theorem getLast?_walked (env : RunEnv) (nodes : List WorkflowNode) :
    ((walked env nodes).getLast?).map Prod.fst = nodes.getLast? := by
  rw [← List.getLast?_map, map_fst_walked]

theorem reseededInput_eq (hlast : nodes.getLast? = some tail) (hk : 1 < last)
    (hm : memory.stepOutputs = rebuildStepOutputs log) (name : String) :
    reseededInput (walked env nodes) name parentPath last input memory =
      passThrough ((lastCompletion log (tailKey parentPath name tail)).getD .undefined) input := by
  have hwalked := getLast?_walked env nodes
  rw [hlast] at hwalked
  obtain ⟨⟨node, run⟩, hget, rfl⟩ := Option.map_eq_some_iff.mp hwalked
  rw [reseededInput, if_pos hk, hget, Option.elim_some, RunMemory.outputAt, hm, get_rebuildStepOutputs]
  rfl

/-- The log may hold, between the events of this loop, those of lanes that record under other keys. -/
theorem reseededInput_eq_fed_iff (hc : Committed workflow)
    (ho : OccursIn (.loop loop.name loop.mode nodes loop.condition loop.maxIterations) workflow.nodes)
    (hp : cursor.pendingBlocks = [] ∨ ∃ target, cursor.pendingBlocks = pendingBlocksExcept before target)
    (hlast : nodes.getLast? = some tail)
    (h : BlocksIn (envOf workflow cursor) loop (walked (envOf workflow cursor) nodes) parentPath frames first
      start reentry effects outputs last fed block) (hk : 1 < last)
    (hlog : log.filterMap (RunEvent.completes (tailKey parentPath loop.name tail)) =
      (before ++ recordedEvents effects).filterMap (RunEvent.completes (tailKey parentPath loop.name tail)))
    (hm : memory.stepOutputs = rebuildStepOutputs log) :
    reseededInput (walked env nodes) loop.name parentPath last input memory = fed ↔
      RebuildsFeed before (recordedEvents effects) (tailKey parentPath loop.name tail) input start outputs := by
  have hunique := ((Bool.and_eq_true _ _).mp (ho.unique hc.scopesUnique).1).1
  have hrecord := fed_of_record (pendingByKey_of_launch hp) (of_decide_eq_true hunique) hlast h
  have hcompletion : lastCompletion log (tailKey parentPath loop.name tail) =
      (lastCompletion (recordedEvents effects) (tailKey parentPath loop.name tail)).or
        (lastCompletion before (tailKey parentPath loop.name tail)) := by
    rw [lastCompletion, hlog, ← lastCompletion, lastCompletion_append]
  rw [reseededInput_eq hlast hk hm, hcompletion, RebuildsFeed]
  cases hnew : lastCompletion (recordedEvents effects) (tailKey parentPath loop.name tail) with
  | none =>
    rw [hrecord.2 hnew, Option.none_or]
    exact eq_comm
  | some output =>
    rw [Option.some_or, Option.getD_some, ← h.fedAfter_eq]
    by_cases hdefined : output = .undefined
    · subst hdefined
      simp only [passThrough_undefined, ne_eq, not_true_eq_false, false_or]
      exact eq_comm
    · rw [passThrough_defined hdefined, hrecord.1 output hnew hdefined]
      simp [hdefined]

section Sample

def draftBody : WorkflowDefinition :=
  { name := "round", nodes := [.step (question "approve"), .step (.function { name := "work" })] }

/-- A question and a piece of work in each round; the loop ends only at its guard. -/
def drafting : WorkflowDefinition :=
  { name := "drafting", nodes := [.loop "rounds" .dountil draftBody.nodes (fun _ _ => .ok false) 5] }

def draftLoop : LoopDefinition := ⟨"rounds", .dountil, fun _ _ => .ok false, 5⟩

def draftPath (iteration : Nat) (name : String) : NodePath :=
  [{ name := "rounds", index := some (.loop, iteration) }, { name := name }]

def askingRound (iteration : Nat) : List RunEvent :=
  [.loopIteration [{ name := "rounds", index := some (.loop, iteration) }] iteration,
    .stepStarted (draftPath iteration "approve") .undefined, asking (draftPath iteration "approve")]

def draftStarted : List RunEvent :=
  [.runStarted "run-1" "drafting" .null, .nodeStarted [{ name := "rounds" }] .loop] ++ askingRound 1

def workingRound (iteration : Nat) (output : Value) : List RunEvent :=
  [.stepCompleted (draftPath iteration "approve") (.object []),
    .stepStarted (draftPath iteration "work") .undefined, .stepCompleted (draftPath iteration "work") output]

def draftAnswered (iteration : Nat) (output : Value) : List RunEvent :=
  .answersProvided (draftPath iteration "approve") [] ::
    (workingRound iteration output ++ askingRound (iteration + 1))

def draftOnce : List RunEvent := draftStarted ++ draftAnswered 1 (.bool true)

def draftTwice : List RunEvent := draftOnce ++ draftAnswered 2 .undefined

theorem committed_draftBody : Committed draftBody :=
  .flat (show draftBody.nodes.flatMap bodiesOf = [] from rfl) rfl

theorem committed_drafting : Committed drafting :=
  .assembled [draftBody] (List.forall_mem_singleton.mpr committed_draftBody) (show drafting.nodes.flatMap bodiesOf = _ from rfl) rfl

def draftEnv (log : List RunEvent) (iteration : Nat) : RunEnv :=
  envOf drafting { runId := "run-1", initialInput := .null, previousOutput := .null
                   stepOutputs := rebuildStepOutputs log
                   pendingBlocks := pendingBlocksExcept log (draftPath iteration "approve") }

def draftReentry (iteration : Nat) : Reentry :=
  { path := (draftPath iteration "approve").tail, answer := some ⟨[], [], none, none⟩ }

theorem blocksIn_draft (log : List RunEvent) (iteration : Nat) (start output : Value) :
    ∃ effects, recordedEvents effects = workingRound iteration output ++ askingRound (iteration + 1) ∧
      BlocksIn (envOf drafting { runId := "run-1", initialInput := .null, previousOutput := .null
                                 stepOutputs := rebuildStepOutputs log
                                 pendingBlocks := pendingBlocksExcept log (draftPath iteration "approve") })
        draftLoop (walked (draftEnv log iteration) draftBody.nodes) [] [] iteration start
        (some (draftReentry iteration)) effects [output] (iteration + 1) (passThrough output start)
        ⟨draftPath (iteration + 1) "approve", .questionnaire { questions := [] } [], none⟩ := by
  have hround : drive (engineWorld drafting) 100
      (runNodeSequence (walked (draftEnv log iteration) draftBody.nodes) start
        (appendLoopIteration [] "rounds" iteration) ([] ++ [loopFrame "rounds" iteration start]) 0
        (some (draftReentry iteration))) [{ outcome := .ok output }] {} =
      some (.ok (.ok output), [],
        { stepOutputs := [(staticKeyOf (draftPath iteration "approve"), .object []),
                          (staticKeyOf (draftPath iteration "work"), output)]
          log := workingRound iteration output }) := rfl
  have hnext : drive (engineWorld drafting) 100
      (runNodeSequence (walked (draftEnv log iteration) draftBody.nodes) (passThrough output start)
        (appendLoopIteration [] "rounds" (iteration + 1))
        ([] ++ [loopFrame "rounds" (iteration + 1) (passThrough output start)]) 0 none) [] {} =
      some (.ok (waitingOn (draftPath (iteration + 1) "approve")), [],
        { log := (askingRound (iteration + 1)).tail }) := rfl
  obtain ⟨effects, hbody, hlog⟩ := emits_of_drive hround
  obtain ⟨rest, hrest, hlog'⟩ := emits_of_drive hnext
  have he : workingRound iteration output = recordedEvents effects := hlog
  have hr : (askingRound (iteration + 1)).tail = recordedEvents rest := hlog'
  refine ⟨_, ?_, .round hbody (.here hrest)⟩
  show recordedEvents (effects ++ ([_] ++ rest)) = _
  rw [recordedEvents_append, recordedEvents_append, ← he, ← hr]
  rfl

/-- A round with a value: the re-entry of the next one is fed that value again. -/
theorem reseeded_draftOnce :
    reseededInput (walked (draftEnv draftOnce 2) draftBody.nodes) "rounds" [] 2 .null
      { stepOutputs := rebuildStepOutputs draftOnce } = .bool true := by
  obtain ⟨effects, hnew, hblocks⟩ := blocksIn_draft draftStarted 1 .null (.bool true)
  refine (reseededInput_eq_fed_iff committed_drafting (.here List.mem_cons_self) (.inr ⟨_, rfl⟩) rfl hblocks
    (by decide) ?_ rfl).mpr ?_
  · rw [hnew]
    rfl
  · rw [hnew]
    show Value.bool true ≠ .undefined ∨ _
    exact .inl (by simp)

/-- A round with a value and one that completes without: the re-entry loses the value. -/
theorem drafting_loses_value : Committed drafting ∧
    Returns drafting (.run "run-1" .null) [] draftStarted (waitingOn (draftPath 1 "approve")) ∧
    Returns drafting (.answer [] none) draftStarted draftOnce (waitingOn (draftPath 2 "approve")) ∧
    Returns drafting (.answer [] none) draftOnce draftTwice (waitingOn (draftPath 3 "approve")) ∧
    (∃ effects block, recordedEvents effects = workingRound 2 .undefined ++ askingRound 3 ∧
      BlocksIn (draftEnv draftOnce 2) draftLoop (walked (draftEnv draftOnce 2) draftBody.nodes) [] [] 2
        (.bool true) (some (draftReentry 2)) effects [.undefined] 3 (.bool true) block) ∧
    reseededInput (walked (draftEnv draftTwice 3) draftBody.nodes) "rounds" [] 3 .null
      { stepOutputs := rebuildStepOutputs draftTwice } = .null := by
  obtain ⟨effects, hnew, hblocks⟩ := blocksIn_draft draftOnce 2 (.bool true) .undefined
  exact ⟨committed_drafting, returns_of_attempt [] 100 rfl,
    returns_of_attempt [{ outcome := .ok (.bool true) }] 100 rfl,
    returns_of_attempt [{ outcome := .ok .undefined }] 100 rfl, ⟨effects, _, hnew, hblocks⟩, rfl⟩

end Sample

end KimchiWorkflows.Engine
