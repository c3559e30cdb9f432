import KimchiWorkflows.Engine.LoopReentry

/-!
The iterations of a loop in one call of the engine, with what its predicate was given and said.
-/

namespace KimchiWorkflows.Engine

open KimchiWorkflows.Flow Process Process.Proc

/-- A finished iteration: its raw output, and whether the predicate then stopped the loop. -/
structure Round where
  output : Value
  stops : Bool

inductive LoopEnd where
  | blocked (iteration : Nat) (block : PendingBlock)
  | stopped (value : Value)
  | guarded
  | left (outcome : ExecOutcome)

def guardError (loop : LoopDefinition) : String :=
  "loop \"" ++ loop.name ++ "\" exceeded its max of " ++ toString loop.maxIterations ++
    " iterations without its condition being met"

def LoopEnd.outcome (loop : LoopDefinition) (parentPath : NodePath) : LoopEnd → ExecOutcome
  | .blocked _ block => .blocked block
  | .stopped value => .ok value
  | .guarded => .crashed (guardError loop) (some (appendSegment parentPath loop.name))
  | .left outcome => outcome

variable {env : RunEnv} {loop : LoopDefinition} {body : List Walked} {parentPath iterPath : NodePath}
  {frames : List ScopeFrame}

/-- The predicate of an iteration, given its raw output, says whether to stop. -/
def Judges (env : RunEnv) (loop : LoopDefinition) (parentPath : NodePath) (frames : List ScopeFrame)
    (iteration : Nat) (input : Value) (round : Round) : Prop :=
  ∃ memory met, loop.condition (createRunContext env memory (appendLoopIteration parentPath loop.name iteration)
    (frames ++ [loopFrame loop.name iteration input]) (appendLoopIteration parentPath loop.name iteration))
      round.output = .ok met ∧ round.stops = LoopMode.stops loop.mode met

abbrev RunsBody (loop : LoopDefinition) (body : List Walked) (parentPath : NodePath)
    (frames : List ScopeFrame) (iteration : Nat) (input : Value) (reentry : Option Reentry)
    (effects : List Effect) (outcome : ExecOutcome) : Prop :=
  Emits (runNodeSequence body input (appendLoopIteration parentPath loop.name iteration)
    (frames ++ [loopFrame loop.name iteration input]) 0 reentry) effects outcome

/-- The iterations from one of them on, with those left before the guard. -/
inductive Visited (env : RunEnv) (loop : LoopDefinition) (body : List Walked) (parentPath : NodePath)
    (frames : List ScopeFrame) : Nat → Nat → Value → Option Reentry → List Effect → List Round → LoopEnd → Prop where
  | guarded (iteration : Nat) (input : Value) (reentry : Option Reentry) :
      Visited env loop body parentPath frames 0 iteration input reentry [] [] .guarded
  | aborted (remaining iteration : Nat) (input : Value) (reentry : Option Reentry) :
      Visited env loop body parentPath frames (remaining + 1) iteration input reentry [] []
        (.left (.cancelled none none))
  | blocked {remaining iteration : Nat} {input : Value} {reentry : Option Reentry} {effects : List Effect}
      {block : PendingBlock}
      (hbody : RunsBody loop body parentPath frames iteration input reentry effects (.blocked block)) :
      Visited env loop body parentPath frames (remaining + 1) iteration input reentry
        (iterationOpened loop parentPath iteration reentry ++ effects) [] (.blocked iteration block)
  | failed {remaining iteration : Nat} {input : Value} {reentry : Option Reentry} {effects : List Effect}
      {outcome : ExecOutcome}
      (hbody : RunsBody loop body parentPath frames iteration input reentry effects outcome)
      (hok : outcome.output? = none) (hblock : ∀ block, outcome ≠ .blocked block) :
      Visited env loop body parentPath frames (remaining + 1) iteration input reentry
        (iterationOpened loop parentPath iteration reentry ++ effects) [] (.left outcome)
  | unjudged {remaining iteration : Nat} {input output : Value} {reentry : Option Reentry}
      {effects : List Effect}
      (hbody : RunsBody loop body parentPath frames iteration input reentry effects (.ok output))
      (error : String) :
      Visited env loop body parentPath frames (remaining + 1) iteration input reentry
        (iterationOpened loop parentPath iteration reentry ++ effects) []
        (.left (.crashed error (some (appendLoopIteration parentPath loop.name iteration))))
  | stopped {remaining iteration : Nat} {input output : Value} {reentry : Option Reentry} {effects : List Effect}
      (hbody : RunsBody loop body parentPath frames iteration input reentry effects (.ok output))
      (hjudged : Judges env loop parentPath frames iteration input ⟨output, true⟩) :
      Visited env loop body parentPath frames (remaining + 1) iteration input reentry
        (iterationOpened loop parentPath iteration reentry ++ (effects ++
          [.recorded (.nodeCompleted (appendSegment parentPath loop.name) (passThrough output input))]))
        [⟨output, true⟩] (.stopped (passThrough output input))
  | again {remaining iteration : Nat} {input output : Value} {reentry : Option Reentry}
      {effects rest : List Effect} {rounds : List Round} {ending : LoopEnd}
      (hbody : RunsBody loop body parentPath frames iteration input reentry effects (.ok output))
      (hjudged : Judges env loop parentPath frames iteration input ⟨output, false⟩)
      (hrest : Visited env loop body parentPath frames remaining (iteration + 1) (passThrough output input) none
        rest rounds ending) :
      Visited env loop body parentPath frames (remaining + 1) iteration input reentry
        (iterationOpened loop parentPath iteration reentry ++ (effects ++ rest)) (⟨output, false⟩ :: rounds) ending

variable {remaining iteration : Nat} {input : Value} {reentry : Option Reentry} {effects : List Effect}
  {outcome : ExecOutcome} {rounds : List Round} {ending : LoopEnd}

theorem mapped_opening : (if reentry.isSome then [] else
      [RunEvent.loopIteration (appendLoopIteration parentPath loop.name iteration) iteration]).map Effect.recorded =
    iterationOpened loop parentPath iteration reentry := by
  unfold iterationOpened
  split_ifs
  · rfl
  · rfl

theorem invokeCallback_ok {description : String} {met : Bool} {result : Except String Bool}
    (h : invokeCallback description result = .ok met) : result = .ok met := by
  cases result with
  | error error => simp [invokeCallback] at h
  | ok value => simpa [invokeCallback] using h

theorem visited_of_iterate
    (h : Emits (iterate env loop body parentPath frames remaining iteration input reentry) effects outcome) :
    ∃ rounds ending, Visited env loop body parentPath frames remaining iteration input reentry effects rounds ending ∧
      outcome = ending.outcome loop parentPath := by
  induction remaining generalizing iteration input reentry effects with
  | zero =>
    obtain ⟨rfl, rfl⟩ := emits_conclude h
    exact ⟨[], .guarded, .guarded iteration input reentry, rfl⟩
  | succ remaining ih =>
    obtain ⟨memory, hm⟩ := emits_look h
    by_cases ha : memory.aborted = true
    · rw [if_pos ha] at hm
      obtain ⟨rfl, rfl⟩ := emits_conclude hm
      exact ⟨[], _, .aborted remaining iteration input reentry, rfl⟩
    · rw [if_neg ha] at hm
      obtain ⟨rest, rfl, hr⟩ := emits_emitAll hm
      rw [mapped_opening]
      obtain ⟨first, last, output, rfl, hbody, hl⟩ | ⟨hbody, hstop⟩ := emits_ifOk hr
      · obtain ⟨memory', hc⟩ := emits_look hl
        split at hc
        · obtain ⟨rfl, rfl⟩ := emits_conclude hc
          rw [List.append_nil]
          exact ⟨[], _, .unjudged hbody _, rfl⟩
        · rename_i met hmet
          have hcondition := invokeCallback_ok hmet
          split_ifs at hc with hstops
          · obtain ⟨u, rfl, hu⟩ := emits_emit hc
            obtain ⟨rfl, rfl⟩ := emits_conclude hu
            exact ⟨_, _, .stopped hbody ⟨memory', met, hcondition, hstops.symm⟩, rfl⟩
          · obtain ⟨rounds, ending, hrest, rfl⟩ := ih hc
            have hgoes : LoopMode.stops loop.mode met = false := by simpa using hstops
            exact ⟨_, ending, .again hbody ⟨memory', met, hcondition, hgoes.symm⟩ hrest, rfl⟩
      · cases outcome with
        | ok output => simp [ExecOutcome.output?] at hstop
        | blocked block => exact ⟨[], _, .blocked hbody, rfl⟩
        | crashed error path => exact ⟨[], _, .failed hbody hstop (by simp), rfl⟩
        | cancelled path source => exact ⟨[], _, .failed hbody hstop (by simp), rfl⟩

theorem visited_of_runLoopNode
    (h : Emits (runLoopNode env loop body input parentPath frames reentry) effects outcome) :
    ∃ rounds ending, outcome = ending.outcome loop parentPath ∧
      match reentry with
      | none => ∃ rest, effects = .recorded (.nodeStarted (appendSegment parentPath loop.name) .loop) :: rest ∧
          Visited env loop body parentPath frames loop.maxIterations 1 input none rest rounds ending
      | some active => ∃ kind iteration memory,
          active.path.head?.bind PathSegment.index = some (kind, iteration) ∧
          Visited env loop body parentPath frames (loop.maxIterations + 1 - iteration) iteration
            (reseededInput body loop.name parentPath iteration input memory) (some active.descend) effects rounds
            ending := by
  unfold runLoopNode at h
  cases reentry with
  | none =>
    obtain ⟨rest, rfl, hrest⟩ := emits_emit h
    obtain ⟨rounds, ending, hvisit, hoc⟩ := visited_of_iterate hrest
    exact ⟨rounds, ending, hoc, rest, rfl, hvisit⟩
  | some active =>
    dsimp only at h
    split at h
    · exact (emits_raise h).elim
    · rename_i kind iteration hindex
      obtain ⟨memory, hm⟩ := emits_look h
      obtain ⟨rounds, ending, hvisit, hoc⟩ := visited_of_iterate hm
      exact ⟨rounds, ending, hoc, kind, iteration, memory, hindex, hvisit⟩

end KimchiWorkflows.Engine
