import KimchiWorkflows.Engine.Settling

namespace KimchiWorkflows.Engine

open KimchiWorkflows.Flow

variable {env : RunEnv} {parentPath : NodePath} {frames : List ScopeFrame} {effects : List Effect}
  {outcome : ExecOutcome} {body : List Walked} {input : Value} {reentry : Option Reentry}

/-- Whatever a run of the node records, it settles in the scope the node is run in. -/
def RunnerSettles (env : RunEnv) (run : NodeRunner) : Prop :=
  ∀ input parentPath frames reentry effects outcome,
    Emits (run input parentPath frames reentry) effects outcome →
    Settles env reentry.isSome (staticPathOf parentPath) (recordedEvents effects) outcome

theorem quiet_singleton {event : RunEvent} (h : ∀ key, touchOf key event = none) : Quiet [event] := by
  intro key e he
  rw [List.mem_singleton.mp he]
  exact h key

theorem prefix_staticChildKey (parent : NodePath) (name : String) :
    staticPathOf parent <+: staticChildKey parent name := List.prefix_append _ _

theorem settles_opened {scope : NodePath} {event : RunEvent} {reentered : Bool}
    (h : Settles env reentered scope (recordedEvents effects) outcome)
    (hq : ∀ key, touchOf key event = none) (hi : Inside scope [event]) :
    Settles env reentered scope
      (recordedEvents ((if reentered then [] else [Effect.recorded event]) ++ effects)) outcome := by
  cases reentered with
  | true => exact h
  | false => exact h.after_quiet (quiet_singleton hq) hi

theorem settles_checkpoint {scope path : NodePath} {events : List RunEvent} {output output' value : Value}
    {reentered reentered' : Bool} (h : Settles env reentered scope events (.ok output))
    (hb : Below scope (staticKeyOf path)) :
    Settles env reentered' scope (events ++ [.nodeCompleted path value]) (.ok output') := by
  refine settles_closed ?_ ?_
  · exact inside_append.mpr ⟨h.inside, inside_singleton rfl rfl hb⟩
  · intro key
    exact closes_append (h.closes output rfl key) (closes_nodeCompleted path value)

theorem settles_runStepNode (step : StepDefinition) : RunnerSettles env (runStepNode env step) := by
  intro input parentPath frames reentry effects outcome h
  obtain ⟨events, rfl, hs⟩ := runsStep_runStepNode step input reentry _ _ h
  rw [recordedEvents_map]
  exact hs.settles (below_appendSegment parentPath step.name)

theorem settles_walkNodes {nodes : List Walked} (hn : ∀ node ∈ nodes, RunnerSettles env node.2)
    (h : Emits (walkNodes parentPath frames nodes input reentry) effects outcome) :
    Settles env reentry.isSome (staticPathOf parentPath) (recordedEvents effects) outcome := by
  induction nodes generalizing input reentry effects with
  | nil =>
    obtain ⟨rfl, rfl⟩ := emits_walkNodes_nil h
    exact settles_closed inside_nil (fun _ => closes_nil)
  | cons node rest ih =>
    obtain ⟨node, run⟩ := node
    rcases emits_walkNodes_cons h with ⟨rfl, rfl⟩ | ⟨hstop, -⟩ | ⟨first, last, result, rfl, hf, hl⟩
    · exact settles_stopped inside_nil rfl
    · exact hn (node, run) List.mem_cons_self _ _ _ _ _ _ hstop
    · have hfirst := hn (node, run) List.mem_cons_self _ _ _ _ _ _ hf
      have hlast := ih (fun w hw => hn w (List.mem_cons_of_mem _ hw)) hl
      rw [recordedEvents_append, recordedEvents_stored]
      exact hlast.after_closed (hfirst.closes result rfl) hfirst.inside

theorem settles_runNodeSequence {startIndex : Nat} (hn : ∀ node ∈ body, RunnerSettles env node.2)
    (h : Emits (runNodeSequence body input parentPath frames startIndex reentry) effects outcome) :
    Settles env reentry.isSome (staticPathOf parentPath) (recordedEvents effects) outcome := by
  rcases emits_runNodeSequence h with ⟨rfl, error, rfl⟩ | ⟨index, output, hw, -⟩
  · exact settles_stopped inside_nil rfl
  · exact settles_walkNodes (fun node hm => hn node (List.mem_of_mem_drop hm)) hw

section Loop

variable {loop : LoopDefinition}

theorem settles_iterate {remaining iteration : Nat} (hn : ∀ node ∈ body, RunnerSettles env node.2)
    (h : Emits (iterate env loop body parentPath frames remaining iteration input reentry) effects outcome) :
    Settles env reentry.isSome (staticPathOf parentPath) (recordedEvents effects) outcome := by
  induction remaining generalizing iteration input reentry effects with
  | zero =>
    obtain ⟨rfl, rfl⟩ := emits_conclude h
    exact settles_stopped inside_nil rfl
  | succ remaining ih =>
    rcases emits_iterate h with ⟨rfl, rfl⟩ | ⟨opening, rest, bodyFrames, -, rfl, rfl, hbody⟩
    · exact settles_stopped inside_nil rfl
    · refine settles_opened ?_ (fun _ => rfl)
        (inside_singleton rfl rfl (below_appendLoopIteration parentPath loop.name iteration))
      have hscope := prefix_staticChildKey parentPath loop.name
      rcases hbody with ⟨hstop, -⟩ | ⟨first, last, output, rfl, hf, hend⟩
      · have := settles_runNodeSequence hn hstop
        rw [staticPathOf_appendLoopIteration] at this
        exact this.widen hscope
      · have hfirst := settles_runNodeSequence hn hf
        rw [staticPathOf_appendLoopIteration] at hfirst
        replace hfirst := hfirst.widen hscope
        rw [recordedEvents_append]
        rcases hend with ⟨rfl, error, path, rfl⟩ | ⟨rfl, rfl⟩ | hnext
        · exact settles_stopped (by simpa using hfirst.inside) rfl
        · exact settles_checkpoint hfirst (below_appendSegment parentPath loop.name)
        · exact (ih hnext).after_closed (hfirst.closes output rfl) hfirst.inside

theorem settles_runLoopNode (hn : ∀ node ∈ body, RunnerSettles env node.2) :
    RunnerSettles env (runLoopNode env loop body) := by
  intro input parentPath frames reentry effects outcome h
  rcases emits_runLoopNode h with ⟨rfl, rest, rfl, hr⟩ | ⟨active, remaining, iteration, seeded, rfl, hr⟩
  · refine Settles.after_quiet (settles_iterate hn hr) (quiet_singleton (fun _ => rfl)) ?_
    exact inside_singleton rfl rfl (below_appendSegment parentPath loop.name)
  · have := settles_iterate hn hr
    exact this

end Loop

theorem settles_runNestedWorkflowNode {name : String} (hn : ∀ node ∈ body, RunnerSettles env node.2) :
    RunnerSettles env (runNestedWorkflowNode name body) := by
  intro input parentPath frames reentry effects outcome h
  obtain ⟨opening, rest, nestedFrames, rfl, rfl, hbody⟩ := emits_runNestedWorkflowNode h
  have hscope := prefix_staticChildKey parentPath name
  refine settles_opened ?_ (fun _ => rfl)
    (inside_singleton rfl rfl (below_appendSegment parentPath name))
  rcases hbody with ⟨hstop, -⟩ | ⟨first, output, rfl, rfl, hf⟩
  · have := settles_runNodeSequence hn hstop
    rw [staticPathOf_appendSegment, Option.isSome_map] at this
    exact this.widen hscope
  · have hfirst := settles_runNodeSequence hn hf
    rw [staticPathOf_appendSegment] at hfirst
    rw [recordedEvents_append]
    exact settles_checkpoint (hfirst.widen hscope) (below_appendSegment parentPath name)

end KimchiWorkflows.Engine
