import KimchiWorkflows.Engine.KeyNotes
import KimchiWorkflows.Engine.FanOutConfinement

/-!
A node that settles with an output records it last under its own key, or has failed and records nothing.
-/

namespace KimchiWorkflows.Engine

open KimchiWorkflows.Flow Process Process.Proc

variable {env : RunEnv} {key path parentPath : NodePath} {frames : List ScopeFrame} {name : String}
  {input : Value} {reentry : Option Reentry} {body : List Walked} {note : Note}

/-- In whichever scope the node is run, this is what it adds to the note of its own key. -/
def MarksOwn (node : WorkflowNode) (run : NodeRunner) : Prop :=
  ∀ input parentPath frames reentry note,
    Marks (staticChildKey parentPath (nodeName node)) note (run input parentPath frames reentry)

section Step

theorem marks_finishStep (hk : staticKeyOf path = key) (isOptional : Bool) (outcome : StepOutcome) :
    Marks key note (finishStep path isOptional outcome) := by
  cases outcome with
  | ok output =>
    refine .inl ?_
    have hc : (RunEvent.stepCompleted path output).completes key = some output :=
      completes_iff.mpr ⟨path, rfl, hk⟩
    show note.hear key (.stepCompleted path output) = _
    rw [Note.hear, hc]
  | blocked questionnaire conversation violation elapsedMs tokensUsed =>
    exact marks_emit rfl (marks_conclude rfl)
  | crashed error =>
    cases isOptional with
    | false => exact marks_conclude rfl
    | true =>
      refine .inr ⟨?_, rfl⟩
      show note.hear key (.stepFailed path error) = _
      have hf : (RunEvent.stepFailed path error).fails key = true := by simpa [RunEvent.fails] using hk
      simp [Note.hear, RunEvent.completes, RunEvent.completion, hf]
  | cancelled source => exact marks_conclude rfl

theorem marks_runPolicies (call : StepCall) (hk : staticKeyOf call.path = key) (isOptional : Bool) :
    Marks key note (runPolicies call isOptional) := by
  intro reply
  refine marks_emitAll ?_ (marks_finishStep hk isOptional reply.outcome)
  intro event he
  obtain ⟨entry, -, rfl⟩ := List.mem_map.mp he
  cases entry <;> rfl

theorem marks_startStep (step : StepDefinition) {run : Value → Code}
    (h : ∀ value, Marks key note (run value)) : Marks key note (startStep step input path run) := by
  unfold startStep
  dsimp only
  split
  · exact marks_conclude rfl
  · exact marks_emit rfl (h _)

theorem marks_requestInteraction (step : InteractiveStep) :
    Marks key note (requestInteraction env step input parentPath frames path) := by
  intro memory _
  dsimp only
  split
  · exact marks_conclude rfl
  · split
    · exact marks_conclude rfl
    · split
      · exact marks_conclude rfl
      · exact marks_emit rfl (marks_conclude rfl)

theorem marks_resumeInteraction (hk : staticKeyOf path = key) (step : InteractiveStep)
    (resume : InteractionResume) : Marks key note (resumeInteraction step path resume) := by
  unfold resumeInteraction
  split
  · exact marks_conclude rfl
  · split
    · exact marks_emit rfl (marks_conclude rfl)
    · exact marks_finishStep hk false (.ok resume.response)

theorem marks_runStepFresh (hk : staticKeyOf path = key) (step : StepDefinition) :
    Marks key note (runStepFresh env step input parentPath frames path) := by
  cases step with
  | questionnaire form => exact marks_emit rfl (marks_emit rfl (marks_conclude rfl))
  | interactive ask => exact marks_startStep _ (fun _ => marks_requestInteraction ask)
  | function work => exact marks_startStep _ (fun _ => marks_runPolicies ⟨_, _, _, _, path, _⟩ hk _)
  | agent work => exact marks_startStep _ (fun _ => marks_runPolicies ⟨_, _, _, _, path, _⟩ hk _)

theorem marks_runStepBody (hk : staticKeyOf path = key) (step : StepDefinition)
    (answer : Option AnswerResume) (interaction : Option InteractionResume) :
    Marks key note (runStepBody env step input parentPath frames path answer interaction) := by
  unfold runStepBody
  split
  · exact marks_runPolicies ⟨_, _, _, _, path, _⟩ hk _
  · exact marks_finishStep hk _ _
  · split
    · exact marks_resumeInteraction hk _ _
    · exact marks_conclude rfl
    · exact marks_runStepFresh hk _

theorem marksOwn_runStepNode (step : StepDefinition) : MarksOwn (.step step) (runStepNode env step) := by
  intro input parentPath frames reentry note
  have hk : staticKeyOf (appendSegment parentPath step.name) = staticChildKey parentPath step.name :=
    staticKeyOf_appendSegment parentPath step.name
  exact tracks_bind (marks_runStepBody hk step _ _) (fun _ _ h => h)

end Step

theorem ne_of_below {scope : NodePath} (h : Below scope (staticKeyOf path)) : staticKeyOf path ≠ scope := by
  rintro rfl
  exact absurd h.2 (Nat.lt_irrefl _)

theorem marks_opening {event : RunEvent} {reentered : Bool} {code : Code} (he : note.hear key event = note)
    (h : Marks key note code) : Marks key note (emitAll (if reentered then [] else [event]) code) := by
  cases reentered with
  | true => exact h
  | false => exact marks_emit he h

theorem marks_runNodeSequence {next : Value → Code} (hn : ∀ node ∈ body, Stays node.1 node.2)
    (hk : staticPathOf path = key) (h : ∀ output, Marks key note (next output)) :
    Marks key note (ifOk (runNodeSequence body input path frames 0 reentry) next) := by
  have hc : Confined (fun other => Below (staticPathOf path) (staticKeyOf other))
      (runNodeSequence body input path frames 0 reentry) := confined_runNodeSequence hn (fun _ => id)
  exact marks_ifOk hc (fun other ho => hk ▸ ne_of_below ho) h

theorem marksOwn_runLoopNode {mode : LoopMode} {nodes : List WorkflowNode}
    {condition : RunContext → Value → Except String Bool} {maxIterations : Nat}
    (hn : ∀ node ∈ body, Stays node.1 node.2) :
    MarksOwn (.loop name mode nodes condition maxIterations)
      (runLoopNode env ⟨name, mode, condition, maxIterations⟩ body) := by
  intro input parentPath frames reentry note
  have hiterate : ∀ remaining iteration iterationInput reentry,
      Marks (staticChildKey parentPath name) note
        (iterate env ⟨name, mode, condition, maxIterations⟩ body parentPath frames remaining iteration
          iterationInput reentry) := by
    intro remaining
    induction remaining with
    | zero => exact fun _ _ _ => marks_conclude rfl
    | succ remaining ih =>
      intro iteration iterationInput reentry memory _
      dsimp only
      split
      · exact marks_conclude rfl
      · refine marks_opening rfl (marks_runNodeSequence hn (staticPathOf_appendLoopIteration _ _ _) ?_)
        intro output memory _
        dsimp only
        split
        · exact marks_conclude rfl
        · split
          · exact marks_checkpoint (staticKeyOf_appendSegment parentPath name) _
          · exact ih _ _ _
  cases reentry with
  | none => exact marks_emit rfl (hiterate _ _ _ _)
  | some active =>
    simp only [runLoopNode]
    split
    · exact marks_raise _
    · exact fun memory _ => hiterate _ _ _ _

theorem marksOwn_runNestedWorkflowNode {nodes : List WorkflowNode}
    (hn : ∀ node ∈ body, Stays node.1 node.2) :
    MarksOwn (.workflow name nodes) (runNestedWorkflowNode name body) := by
  intro input parentPath frames reentry note
  refine marks_opening rfl (marks_runNodeSequence hn (staticPathOf_appendSegment _ _) ?_)
  intro output
  exact marks_checkpoint (staticKeyOf_appendSegment parentPath name) _

section Branch

theorem marks_runTakenArms {finish : Record → Code} {decisions : List DecidedArm} {result : Record}
    (hn : ∀ decision ∈ decisions, ∀ node ∈ decision.1.2, Stays node.1 node.2)
    (hk : ∀ decision ∈ decisions, staticChildKey parentPath decision.1.1.name ≠ key)
    (hlen : key.length ≤ parentPath.length + 1)
    (h : ∀ result, Marks key note (finish result)) :
    Marks key note (runTakenArms input parentPath frames finish decisions result reentry) := by
  induction decisions generalizing result reentry with
  | nil => exact h result
  | cons decision rest ih =>
    obtain ⟨⟨arm, nodes⟩, taken⟩ := decision
    have hrest : ∀ result reentry,
        Marks key note (runTakenArms input parentPath frames finish rest result reentry) :=
      fun result reentry => ih (fun d hd => hn d (List.mem_cons_of_mem _ hd))
        (fun d hd => hk d (List.mem_cons_of_mem _ hd))
    have harm : staticChildKey parentPath arm.name ≠ key := hk ((arm, nodes), taken) List.mem_cons_self
    have hrun : ∀ armReentry, Marks key note (runArm nodes input parentPath frames arm.name armReentry
        (fun output => runTakenArms input parentPath frames finish rest (assign result arm.name output)
          none)) := by
      intro armReentry memory _
      dsimp only
      split
      · exact marks_conclude rfl
      · have hc : Confined (fun other => Below (staticPathOf (appendSegment parentPath arm.name))
            (staticKeyOf other)) (runNodeSequence nodes input (appendSegment parentPath arm.name)
              (frames ++ [{ kind := .branchArm, name := arm.name, input := input }]) 0 armReentry) :=
          confined_runNodeSequence (hn _ List.mem_cons_self) (fun _ => id)
        refine marks_ifOk hc ?_ ?_
        · rintro other ⟨-, hlt⟩ rfl
          simp only [staticPathOf_appendSegment, staticChildKey, List.length_append, staticPathOf_length,
            List.length_singleton] at hlt
          omega
        · intro output
          refine marks_emit (hear_of_subject ?_) (hrest _ _)
          rintro _ ⟨rfl⟩
          rwa [staticKeyOf_appendSegment]
    cases taken with
    | false => exact hrest _ _
    | true =>
      simp only [runTakenArms, if_true]
      cases reentry with
      | none => exact hrun none
      | some active =>
        dsimp only
        split
        · exact marks_raise _
        · split
          · exact hrun _
          · exact fun memory _ => hrest _ _

theorem marksOwn_runBranchNode {arms : List BranchArm} {walkedArms : List WalkedArm}
    (hw : ∀ arm ∈ walkedArms, arm.1 ∈ arms) (hn : ∀ arm ∈ walkedArms, ∀ node ∈ arm.2, Stays node.1 node.2)
    (hname : (scopeNames (.branch name arms)).Nodup) :
    MarksOwn (.branch name arms) (runBranchNode env name walkedArms) := by
  intro input parentPath frames reentry note
  have harm : ∀ arm ∈ walkedArms, staticChildKey parentPath arm.1.name ≠ staticChildKey parentPath name := by
    intro arm ha he
    have hsame : arm.1.name = name := by simpa [staticChildKey] using he
    have hfresh := (List.nodup_cons.mp hname).1
    exact hfresh (hsame ▸ List.mem_map_of_mem (hw arm ha))
  refine marks_opening rfl ?_
  intro memory _
  dsimp only
  split
  · exact marks_conclude rfl
  · rename_i decisions hd
    have hmem := mem_of_decideArms hd
    refine marks_emitAll ?_ (marks_runTakenArms ?_ ?_ ?_ ?_)
    · intro event he
      split at he
      · cases he
      · obtain ⟨decision, -, rfl⟩ := List.mem_map.mp he
        rfl
    · exact fun decision hm => hn _ (hmem decision hm)
    · exact fun decision hm => harm _ (hmem decision hm)
    · simp [staticChildKey, nodeName]
    · exact fun result => marks_checkpoint (staticKeyOf_appendSegment parentPath name) _

end Branch

end KimchiWorkflows.Engine
