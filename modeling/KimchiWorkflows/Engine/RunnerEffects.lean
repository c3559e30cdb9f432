import KimchiWorkflows.Engine.StepEffects
import KimchiWorkflows.Engine.Walker

/-!
Inversion lemmas for the runners: how the effects of a construct are put together from those of the
nodes, arms and items inside it.
-/

namespace KimchiWorkflows.Engine

open KimchiWorkflows.Flow Process

variable {env : RunEnv} {parentPath : NodePath} {frames : List ScopeFrame} {effects : List Effect}
  {outcome : ExecOutcome}

theorem emits_walkNodes_nil {output : Value} {reentry : Option Reentry}
    (h : Emits (walkNodes parentPath frames [] output reentry) effects outcome) :
    effects = [] ∧ outcome = .ok output := emits_conclude h

theorem emits_walkNodes_cons {node : WorkflowNode} {run : NodeRunner} {rest : List Walked}
    {output : Value} {reentry : Option Reentry}
    (h : Emits (walkNodes parentPath frames ((node, run) :: rest) output reentry) effects outcome) :
    (effects = [] ∧ outcome = .cancelled none none) ∨
    (Emits (run output parentPath frames reentry) effects outcome ∧ outcome.output? = none) ∨
    (∃ first last result,
      effects = first ++ .stored (staticChildKey parentPath (nodeName node)) result :: last ∧
      Emits (run output parentPath frames reentry) first (.ok result) ∧
      Emits (walkNodes parentPath frames rest result none) last outcome) := by
  obtain ⟨memory, hm⟩ := emits_look h
  split_ifs at hm
  · exact .inl (emits_conclude hm)
  · rcases emits_ifOk hm with ⟨first, last, result, rfl, hf, hl⟩ | hstop
    · obtain ⟨last, rfl, hr⟩ := emits_store hl
      exact .inr (.inr ⟨first, last, result, rfl, hf, hr⟩)
    · exact .inr (.inl hstop)

theorem emits_runNodeSequence {nodes : List Walked} {input : Value} {startIndex : Nat}
    {reentry : Option Reentry}
    (h : Emits (runNodeSequence nodes input parentPath frames startIndex reentry) effects outcome) :
    (effects = [] ∧ ∃ error, outcome = .crashed error none) ∨
    ∃ index output, Emits (walkNodes parentPath frames (nodes.drop index) output reentry)
      effects outcome ∧ (reentry = none → index = startIndex ∧ output = input) := by
  cases reentry with
  | none => exact .inr ⟨startIndex, input, h, fun _ => ⟨rfl, rfl⟩⟩
  | some active =>
    simp only [runNodeSequence] at h
    split at h
    · exact absurd h (fun h => emits_raise h)
    · split at h
      · exact .inl ⟨(emits_conclude h).1, _, (emits_conclude h).2⟩
      · obtain ⟨memory, hm⟩ := emits_look h
        exact .inr ⟨_, _, hm, by simp⟩

theorem emits_runBranchNode {name : String} {arms : List WalkedArm} {input : Value}
    {reentry : Option Reentry}
    (h : Emits (runBranchNode env name arms input parentPath frames reentry) effects outcome) :
    ∃ rest, effects = (if reentry.isSome then [] else
        [Effect.recorded (.nodeStarted (appendSegment parentPath name) .branch)]) ++ rest ∧
      ((rest = [] ∧ ∃ error, outcome = .crashed error (some (appendSegment parentPath name))) ∨
      ∃ memory decisions last,
        decideArms name (createRunContext env memory parentPath frames (appendSegment parentPath name)) arms
          = .ok decisions ∧
        rest = (if reentry.isSome then [] else (armEvents parentPath decisions).map Effect.recorded) ++ last ∧
        Emits (runTakenArms input parentPath frames (fun result =>
          emitNodeCompleted (appendSegment parentPath name) (.object result)
            (conclude (.ok (.object result)))) decisions [] reentry) last outcome) := by
  obtain ⟨rest, rfl, hr⟩ := emits_emitAll h
  refine ⟨rest, by split_ifs <;> rfl, ?_⟩
  obtain ⟨memory, hm⟩ := emits_look hr
  split at hm
  · obtain ⟨rfl, rfl⟩ := emits_conclude hm
    exact .inl ⟨rfl, _, rfl⟩
  · rename_i decisions hd
    obtain ⟨last, rfl, hl⟩ := emits_emitAll hm
    exact .inr ⟨memory, decisions, last, hd, by split_ifs <;> rfl, hl⟩

theorem emits_runArm {body : List Walked} {input : Value} {armName : String}
    {armReentry : Option Reentry} {next : Value → Code}
    (h : Emits (runArm body input parentPath frames armName armReentry next) effects outcome) :
    (effects = [] ∧ outcome = .cancelled none none) ∨
    ∃ armFrames,
      (Emits (runNodeSequence body input (appendSegment parentPath armName) armFrames 0 armReentry)
        effects outcome ∧ outcome.output? = none) ∨
      ∃ first last output, effects = first ++
          .recorded (.nodeCompleted (appendSegment parentPath armName) output) :: last ∧
        Emits (runNodeSequence body input (appendSegment parentPath armName) armFrames 0 armReentry)
          first (.ok output) ∧
        Emits (next output) last outcome := by
  obtain ⟨memory, hm⟩ := emits_look h
  split_ifs at hm
  · exact .inl (emits_conclude hm)
  · refine .inr ⟨frames ++ [{ kind := .branchArm, name := armName, input := input }], ?_⟩
    rcases emits_ifOk hm with ⟨first, last, output, rfl, hf, hl⟩ | hstop
    · obtain ⟨last, rfl, hr⟩ := emits_emit hl
      exact .inr ⟨first, last, output, rfl, hf, hr⟩
    · exact .inl hstop

theorem emits_runTakenArms_cons {input : Value} {finish : Record → Code} {arm : BranchArm}
    {body : List Walked} {taken : Bool} {rest : List DecidedArm} {result : Record}
    {reentry : Option Reentry}
    (h : Emits (runTakenArms input parentPath frames finish (((arm, body), taken) :: rest) result reentry)
      effects outcome) :
    (taken = false ∧ Emits (runTakenArms input parentPath frames finish rest result reentry) effects outcome) ∨
    (taken = true ∧ reentry.isSome ∧ ∃ value, Emits (runTakenArms input parentPath frames finish rest
      (assign result arm.name value) reentry) effects outcome) ∨
    (taken = true ∧ ∃ armReentry, armReentry.isSome = reentry.isSome ∧
      Emits (runArm body input parentPath frames arm.name armReentry (fun output =>
        runTakenArms input parentPath frames finish rest (assign result arm.name output) none))
        effects outcome) := by
  simp only [runTakenArms] at h
  split_ifs at h with ht
  · cases reentry with
    | none => exact .inr (.inr ⟨ht, none, rfl, h⟩)
    | some active =>
      dsimp only at h
      split at h
      · exact absurd h (fun h => emits_raise h)
      · split_ifs at h with hl
        · exact .inr (.inr ⟨ht, some active.descend, rfl, h⟩)
        · obtain ⟨memory, hm⟩ := emits_look h
          exact .inr (.inl ⟨ht, rfl, _, hm⟩)
  · exact .inl ⟨by simpa using ht, h⟩

theorem emits_iterate {loop : LoopDefinition} {body : List Walked} {remaining iteration : Nat}
    {input : Value} {reentry : Option Reentry}
    (h : Emits (iterate env loop body parentPath frames (remaining + 1) iteration input reentry)
      effects outcome) :
    (effects = [] ∧ outcome = .cancelled none none) ∨
    ∃ opening rest bodyFrames, bodyFrames = frames ++ [loopFrame loop.name iteration input] ∧
      effects = opening ++ rest ∧
      opening = (if reentry.isSome then [] else
        [Effect.recorded (.loopIteration (appendLoopIteration parentPath loop.name iteration) iteration)]) ∧
      ((Emits (runNodeSequence body input (appendLoopIteration parentPath loop.name iteration) bodyFrames 0
          reentry) rest outcome ∧ outcome.output? = none) ∨
      ∃ first last output, rest = first ++ last ∧
        Emits (runNodeSequence body input (appendLoopIteration parentPath loop.name iteration) bodyFrames 0
          reentry) first (.ok output) ∧
        ((last = [] ∧ ∃ error path, outcome = .crashed error path) ∨
        (last = [.recorded (.nodeCompleted (appendSegment parentPath loop.name) (passThrough output input))] ∧
          outcome = .ok (passThrough output input)) ∨
        Emits (iterate env loop body parentPath frames remaining (iteration + 1)
          (passThrough output input) none) last outcome)) := by
  obtain ⟨memory, hm⟩ := emits_look h
  by_cases ha : memory.aborted = true
  · rw [if_pos ha] at hm
    exact .inl (emits_conclude hm)
  · rw [if_neg ha] at hm
    obtain ⟨rest, rfl, hr⟩ := emits_emitAll hm
    refine .inr ⟨_, rest, _, rfl, rfl, by split_ifs <;> rfl, ?_⟩
    rcases emits_ifOk hr with ⟨first, last, output, rfl, hf, hl⟩ | hstop
    · refine .inr ⟨first, last, output, rfl, hf, ?_⟩
      obtain ⟨memory', hc⟩ := emits_look hl
      split at hc
      · obtain ⟨rfl, rfl⟩ := emits_conclude hc
        exact .inl ⟨rfl, _, _, rfl⟩
      · split_ifs at hc
        · obtain ⟨u, rfl, hu⟩ := emits_emit hc
          obtain ⟨rfl, rfl⟩ := emits_conclude hu
          exact .inr (.inl ⟨rfl, rfl⟩)
        · exact .inr (.inr hc)
    · exact .inl hstop

theorem emits_runLoopNode {loop : LoopDefinition} {body : List Walked} {input : Value}
    {reentry : Option Reentry}
    (h : Emits (runLoopNode env loop body input parentPath frames reentry) effects outcome) :
    (reentry = none ∧ ∃ rest, effects =
        .recorded (.nodeStarted (appendSegment parentPath loop.name) .loop) :: rest ∧
      Emits (iterate env loop body parentPath frames loop.maxIterations 1 input none) rest outcome) ∨
    ∃ active remaining iteration seeded, reentry = some active ∧
      Emits (iterate env loop body parentPath frames remaining iteration seeded (some active.descend))
        effects outcome := by
  cases reentry with
  | none =>
    obtain ⟨rest, rfl, hr⟩ := emits_emit h
    exact .inl ⟨rfl, rest, rfl, hr⟩
  | some active =>
    simp only [runLoopNode] at h
    split at h
    · exact absurd h (fun h => emits_raise h)
    · obtain ⟨memory, hm⟩ := emits_look h
      exact .inr ⟨active, _, _, _, rfl, hm⟩

theorem emits_runNestedWorkflowNode {name : String} {nodes : List Walked} {input : Value}
    {reentry : Option Reentry}
    (h : Emits (runNestedWorkflowNode name nodes input parentPath frames reentry) effects outcome) :
    ∃ opening rest nestedFrames, effects = opening ++ rest ∧
      opening = (if reentry.isSome then [] else
        [Effect.recorded (.nodeStarted (appendSegment parentPath name) .workflow)]) ∧
      ((Emits (runNodeSequence nodes input (appendSegment parentPath name) nestedFrames 0
          (reentry.map Reentry.descend)) rest outcome ∧ outcome.output? = none) ∨
      ∃ first output, rest = first ++ [.recorded (.nodeCompleted (appendSegment parentPath name) output)] ∧
        outcome = .ok output ∧
        Emits (runNodeSequence nodes input (appendSegment parentPath name) nestedFrames 0
          (reentry.map Reentry.descend)) first (.ok output)) := by
  obtain ⟨rest, rfl, hr⟩ := emits_emitAll h
  refine ⟨_, rest, frames ++ [{ kind := .workflow, name := name, input := input }], rfl,
    by split_ifs <;> rfl, ?_⟩
  rcases emits_ifOk hr with ⟨first, last, output, rfl, hf, hl⟩ | hstop
  · obtain ⟨u, rfl, hu⟩ := emits_emit hl
    obtain ⟨rfl, rfl⟩ := emits_conclude hu
    exact .inr ⟨first, output, rfl, rfl, hf⟩
  · exact .inl hstop

end KimchiWorkflows.Engine
