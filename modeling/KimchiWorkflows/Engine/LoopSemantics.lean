import KimchiWorkflows.Engine.LoopChains

/-!
Which chains of calls complete a loop with the value that one uncut execution would.
-/

namespace KimchiWorkflows.Engine

open KimchiWorkflows.Flow Process Process.Proc Scheduling

variable {loop : LoopDefinition} {nodes : List WorkflowNode} {parentPath : NodePath} {upstream : Value}

theorem fedAfter_append (start : Value) (outputs later : List Value) :
    fedAfter start (outputs ++ later) = fedAfter (fedAfter start outputs) later := List.foldl_append

theorem fedAfter_undefined {outputs : List Value} (h : ∀ output ∈ outputs, output = .undefined) (start : Value) :
    fedAfter start outputs = start := by
  induction outputs generalizing start with
  | nil => rfl
  | cons output outputs ih =>
    have hfirst : output = .undefined := h output List.mem_cons_self
    subst hfirst
    exact ih (fun other hm => h other (List.mem_cons_of_mem _ hm)) start

theorem fedAfter_defined {outputs : List Value} (h : ∃ output ∈ outputs, output ≠ .undefined) (start other : Value) :
    fedAfter start outputs = fedAfter other outputs := by
  induction outputs generalizing start other with
  | nil => simp at h
  | cons output outputs ih =>
    by_cases hlater : ∃ output ∈ outputs, output ≠ .undefined
    · exact ih hlater _ _
    · have hdefined : output ≠ .undefined := by
        obtain ⟨found, hm, hne⟩ := h
        obtain rfl | hm := List.mem_cons.mp hm
        · exact hne
        · exact absurd ⟨found, hm, hne⟩ hlater
      show fedAfter (passThrough output start) outputs = fedAfter (passThrough output other) outputs
      rw [passThrough_defined hdefined, passThrough_defined hdefined]

/-- A chain follows the semantics exactly if its last call restores what the loop would have fed, or makes it
irrelevant by a defined output of its own. -/
theorem loopSemantics_iff {events : List RunEvent} {earlier rounds : List Round} {visit : Visit} {ending : LoopEnd}
    (h : LoopChain loop nodes parentPath upstream events earlier rounds visit ending) :
    LoopSemantics loop parentPath upstream events (earlier ++ rounds) ending ↔
      ((∃ value, ending = .stopped value) → Restores upstream (earlier.map Round.output) visit ∨
        ∃ round ∈ rounds, round.output ≠ .undefined) := by
  obtain ⟨hnumbered, hjudged, houtput⟩ := h.facts
  have hseed : ∀ outputs, Restores upstream outputs visit ↔
      (if 1 < visit.iteration ∧ visit.recorded ≠ .undefined then visit.recorded else visit.input) =
        fedAfter upstream outputs := by
    intro outputs
    unfold Restores
    split_ifs
    · exact Iff.rfl
    · exact Iff.rfl
  rw [hseed]
  constructor
  · rintro hsemantics ⟨value, hv⟩
    by_cases hdefined : ∃ round ∈ rounds, round.output ≠ .undefined
    · exact .inr hdefined
    · left
      have hundefined : ∀ output ∈ rounds.map Round.output, output = .undefined := by
        intro output hm
        obtain ⟨round, hround, rfl⟩ := List.mem_map.mp hm
        by_contra hne
        exact hdefined ⟨round, hround, hne⟩
      have hvalue := hsemantics.output value hv
      rw [houtput value hv, List.map_append, fedAfter_append, fedAfter_undefined hundefined,
        fedAfter_undefined hundefined] at hvalue
      exact hvalue
  · intro hrestores
    refine ⟨hnumbered, hjudged, ?_⟩
    intro value hv
    rw [houtput value hv, List.map_append, fedAfter_append]
    obtain hfed | ⟨round, hm, hne⟩ := hrestores ⟨value, hv⟩
    · rw [hfed]
    · exact fedAfter_defined ⟨round.output, List.mem_map_of_mem hm, hne⟩ _ _

section Sample

def thirdRound (ctx : RunContext) : Bool := (ctx.scope none).any (fun frame => frame.iteration = some 3)

/-- A question and a piece of work in each round, until the third round. -/
def finishing : WorkflowDefinition :=
  { name := "finishing", nodes := [.loop "rounds" .dountil draftBody.nodes (fun ctx _ => .ok (thirdRound ctx)) 5] }

def finishLoop : LoopDefinition := ⟨"rounds", .dountil, fun ctx _ => .ok (thirdRound ctx), 5⟩

def finishStarted : List RunEvent :=
  [.runStarted "run-1" "finishing" .null, .nodeStarted [{ name := "rounds" }] .loop] ++ askingRound 1

def finishOnce : List RunEvent := finishStarted ++ draftAnswered 1 (.bool true)

def finishTwice : List RunEvent := finishOnce ++ draftAnswered 2 .undefined

def finishRounds (output result : Value) : List RunEvent :=
  workingRound 3 output ++ [.nodeCompleted [{ name := "rounds" }] result]

def finishThrice : List RunEvent :=
  finishTwice ++ .answersProvided (draftPath 3 "approve") [] :: (finishRounds .undefined .null ++ [.runCompleted .null])

def finishEnv (log : List RunEvent) (iteration : Nat) : RunEnv :=
  envOf finishing { runId := "run-1", initialInput := .null, previousOutput := .null
                    stepOutputs := rebuildStepOutputs log
                    pendingBlocks := pendingBlocksExcept log (draftPath iteration "approve") }

def answering (iteration : Nat) : Reentry := { path := draftPath iteration "approve", answer := some ⟨[], [], none, none⟩ }

def recalled (log : List RunEvent) : RunMemory := { stepOutputs := rebuildStepOutputs log }

theorem pendingByKey_finishEnv (log : List RunEvent) (iteration : Nat) : PendingByKey (finishEnv log iteration) :=
  @pendingByKey_of_launch finishing log _ (.inr ⟨_, rfl⟩)

theorem asks_round (log : List RunEvent) (last iteration : Nat) (start : Value) :
    ∃ effects, recordedEvents effects = (askingRound iteration).tail ∧
      RunsBody finishLoop (walked (finishEnv log last) draftBody.nodes) [] [] iteration start none effects
        (waitingOn (draftPath iteration "approve")) := by
  have hround : drive (engineWorld finishing) 100
      (runNodeSequence (walked (finishEnv log last) draftBody.nodes) start (appendLoopIteration [] "rounds" iteration)
        ([] ++ [loopFrame "rounds" iteration start]) 0 none) [] {} =
      some (.ok (waitingOn (draftPath iteration "approve")), [], { log := (askingRound iteration).tail }) := rfl
  obtain ⟨effects, hbody, hlog⟩ := emits_of_drive hround
  exact ⟨effects, hlog.symm, hbody⟩

theorem works_round (log : List RunEvent) (iteration : Nat) (start output : Value) :
    ∃ effects, recordedEvents effects = workingRound iteration output ∧
      RunsBody finishLoop (walked (finishEnv log iteration) draftBody.nodes) [] [] iteration start
        (some (draftReentry iteration)) effects (.ok output) := by
  have hround : drive (engineWorld finishing) 100
      (runNodeSequence (walked (finishEnv log iteration) draftBody.nodes) start
        (appendLoopIteration [] "rounds" iteration) ([] ++ [loopFrame "rounds" iteration start]) 0
        (some (draftReentry iteration))) [{ outcome := .ok output }] {} =
      some (.ok (.ok output), [],
        { stepOutputs := [(staticKeyOf (draftPath iteration "approve"), .object []),
                          (staticKeyOf (draftPath iteration "work"), output)]
          log := workingRound iteration output }) := rfl
  obtain ⟨effects, hbody, hlog⟩ := emits_of_drive hround
  exact ⟨effects, hlog.symm, hbody⟩

theorem judges_finishLoop (log : List RunEvent) (last iteration : Nat) (start output : Value) :
    Judges (finishEnv log last) finishLoop [] [] iteration start ⟨output, decide (iteration = 3)⟩ := by
  refine ⟨recalled log, decide (iteration = 3), ?_, rfl⟩
  show Except.ok (thirdRound _) = _
  simp [thirdRound, createRunContext, loopFrame, scopeFrame]

theorem opens_round {effects : List Effect} {iteration : Nat} (h : recordedEvents effects = (askingRound iteration).tail) :
    recordedEvents (iterationOpened finishLoop [] iteration none ++ effects) = askingRound iteration := by
  rw [recordedEvents_append, h]
  rfl

theorem visited_round (log : List RunEvent) (iteration remaining : Nat) (start output : Value) (h : iteration ≠ 3) :
    ∃ effects, recordedEvents effects = workingRound iteration output ++ askingRound (iteration + 1) ∧
      Visited (finishEnv log iteration) finishLoop (walked (finishEnv log iteration) draftBody.nodes) [] []
        (remaining + 2) iteration start (some (draftReentry iteration)) effects [⟨output, false⟩]
        (.blocked (iteration + 1) ⟨draftPath (iteration + 1) "approve", .questionnaire { questions := [] } [], none⟩) := by
  obtain ⟨asks, hasks, hask⟩ := asks_round log iteration (iteration + 1) (passThrough output start)
  obtain ⟨works, hworks, hwork⟩ := works_round log iteration start output
  have hjudged := judges_finishLoop log iteration iteration start output
  rw [decide_eq_false h] at hjudged
  refine ⟨_, ?_, .again hwork hjudged (.blocked hask)⟩
  show recordedEvents (works ++ _) = _
  rw [recordedEvents_append, hworks, opens_round hasks]

theorem visited_last (log : List RunEvent) (remaining : Nat) (start output : Value) :
    ∃ effects, recordedEvents effects =
        workingRound 3 output ++ [.nodeCompleted [{ name := "rounds" }] (passThrough output start)] ∧
      Visited (finishEnv log 3) finishLoop (walked (finishEnv log 3) draftBody.nodes) [] [] (remaining + 1) 3 start
        (some (draftReentry 3)) effects [⟨output, true⟩] (.stopped (passThrough output start)) := by
  obtain ⟨works, hworks, hwork⟩ := works_round log 3 start output
  refine ⟨_, ?_, .stopped hwork (judges_finishLoop log 3 3 start output)⟩
  show recordedEvents (works ++ _) = _
  rw [recordedEvents_append, hworks]
  rfl

theorem loopChain_finishStarted : LoopChain finishLoop draftBody.nodes [] .null (askingRound 1) [] []
    ⟨1, .undefined, .null⟩ (.blocked 1 ⟨draftPath 1 "approve", .questionnaire { questions := [] } [], none⟩) := by
  obtain ⟨asks, hasks, hask⟩ := asks_round [] 1 1 .null
  have hchain := LoopChain.entered (pendingByKey_finishEnv [] 1) (.blocked hask)
  rwa [opens_round hasks] at hchain

/-- The call that answers the question of an iteration, with the log of the calls before it. -/
theorem loopChain_answered (log : List RunEvent) {events : List RunEvent} {earlier rounds more : List Round}
    {visit : Visit} {iteration : Nat} {block : PendingBlock} {effects : List Effect} {ending : LoopEnd}
    (hchain : LoopChain finishLoop draftBody.nodes [] .null events earlier rounds visit (.blocked iteration block))
    (hvisit : Visited (finishEnv log iteration) finishLoop (walked (finishEnv log iteration) draftBody.nodes) [] []
      (5 + 1 - iteration) iteration
      (reseededInput (walked (finishEnv log iteration) draftBody.nodes) "rounds" [] iteration .null (recalled log))
      (some (draftReentry iteration)) effects more ending) :
    LoopChain finishLoop draftBody.nodes [] .null (events ++ recordedEvents effects) (earlier ++ rounds) more
      ⟨iteration, tailRecord draftBody.nodes [] "rounds" (recalled log), .null⟩ ending := by
  have hindex : (answering iteration).path.head?.bind PathSegment.index = some (.loop, iteration) := rfl
  exact .answered hchain (pendingByKey_finishEnv log iteration) hindex hvisit

theorem loopChain_finishOnce : LoopChain finishLoop draftBody.nodes [] .null
    (askingRound 1 ++ (workingRound 1 (.bool true) ++ askingRound 2)) [] [⟨.bool true, false⟩] ⟨1, .undefined, .null⟩
    (.blocked 2 ⟨draftPath 2 "approve", .questionnaire { questions := [] } [], none⟩) := by
  obtain ⟨effects, hlog, hvisit⟩ := visited_round finishStarted 1 3 .null (.bool true) (by decide)
  rw [← hlog]
  exact loopChain_answered finishStarted loopChain_finishStarted hvisit

theorem loopChain_finishTwice : LoopChain finishLoop draftBody.nodes [] .null
    (askingRound 1 ++ (workingRound 1 (.bool true) ++ askingRound 2) ++ (workingRound 2 .undefined ++ askingRound 3))
    [⟨.bool true, false⟩] [⟨.undefined, false⟩] ⟨2, .bool true, .null⟩
    (.blocked 3 ⟨draftPath 3 "approve", .questionnaire { questions := [] } [], none⟩) := by
  obtain ⟨effects, hlog, hvisit⟩ := visited_round finishOnce 2 2 (.bool true) .undefined (by decide)
  rw [← hlog]
  exact loopChain_answered finishOnce loopChain_finishOnce hvisit

/-- A round with a value and one without, then the third one: the record of the second has no value to restore. -/
theorem loopChain_finishThrice (output : Value) : LoopChain finishLoop draftBody.nodes [] .null
    (askingRound 1 ++ (workingRound 1 (.bool true) ++ askingRound 2) ++ (workingRound 2 .undefined ++ askingRound 3) ++
      finishRounds output (passThrough output .null)) [⟨.bool true, false⟩, ⟨.undefined, false⟩] [⟨output, true⟩]
    ⟨3, .undefined, .null⟩ (.stopped (passThrough output .null)) := by
  obtain ⟨effects, hlog, hvisit⟩ := visited_last finishTwice 2 .null output
  rw [finishRounds, ← hlog]
  exact loopChain_answered finishTwice loopChain_finishTwice hvisit

def answers : RunEvent → Bool
  | .answersProvided _ _ => true
  | _ => false

/-- Each block answered in a call of its own: the loop completes without the value of its first round. -/
theorem finishing_loses_value : Committed finishing ∧
    Returns finishing (.run "run-1" .null) [] finishStarted (waitingOn (draftPath 1 "approve")) ∧
    Returns finishing (.answer [] none) finishStarted finishOnce (waitingOn (draftPath 2 "approve")) ∧
    Returns finishing (.answer [] none) finishOnce finishTwice (waitingOn (draftPath 3 "approve")) ∧
    Returns finishing (.answer [] none) finishTwice finishThrice (.ok .null) ∧
    ∃ events earlier rounds visit, LoopChain finishLoop draftBody.nodes [] .null events earlier rounds visit
        (.stopped .null) ∧
      events = ((finishThrice.drop 2).dropLast).filter (fun event => ¬ answers event) ∧
      ¬ LoopSemantics finishLoop [] .null events (earlier ++ rounds) (.stopped .null) := by
  refine ⟨?_, returns_of_attempt [] 100 rfl, returns_of_attempt [{ outcome := .ok (.bool true) }] 100 rfl,
    returns_of_attempt [{ outcome := .ok .undefined }] 100 rfl,
    returns_of_attempt [{ outcome := .ok .undefined }] 100 rfl, _, _, _, _, loopChain_finishThrice .undefined, ?_, ?_⟩
  · exact .assembled [draftBody] (List.forall_mem_singleton.mpr committed_draftBody)
      (show finishing.nodes.flatMap bodiesOf = _ from rfl) rfl
  · rfl
  · intro h
    have hvalue := h.output .null rfl
    cases hvalue

/-- A value of the last call is one the loop completes with, whatever was lost before. -/
theorem loopSemantics_finishing : ∃ events, LoopSemantics finishLoop [] .null events
    [⟨.bool true, false⟩, ⟨.undefined, false⟩, ⟨.bool false, true⟩] (.stopped (.bool false)) :=
  ⟨_, (loopSemantics_iff (loopChain_finishThrice (.bool false))).mpr
    (fun _ => .inr ⟨_, List.mem_singleton_self _, by simp⟩)⟩

end Sample

end KimchiWorkflows.Engine
