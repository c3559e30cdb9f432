import KimchiWorkflows.Engine.LastWord
import KimchiWorkflows.Engine.TypedLogs
import KimchiWorkflows.Progress.Entries
import KimchiWorkflows.Progress.Tallies

/-!
The footer of a run: how many of its steps have settled, of how many.
-/

namespace KimchiWorkflows.Progress

open KimchiWorkflows.Flow KimchiWorkflows.Engine

variable {fold fold' : Fold} {key : NodePath} {event : RunEvent} {log more : List RunEvent}

/-- Every event holds up after the log before it. -/
def Along (holds : List RunEvent → RunEvent → Prop) : List RunEvent → List RunEvent → Prop
  | _, [] => True
  | log, event :: rest => holds log event ∧ Along holds (log ++ [event]) rest

/-- What does not take the settled back: an arm that stands skipped is not entered after all, and a step that
stands settled is not put to work again, unless an event of its own has settled it. -/
structure Steady (log : List RunEvent) (event : RunEvent) : Prop where
  skips : ∀ key touch, touchOf key event = some touch → (viewOf key log).state = some .skipped →
    touch = .put .skipped ∨ ∃ state, touch = .closeOpen state
  restarts : ∀ key state, touchOf key event = some (.put state) → state.isOpen = true →
    isSettled (viewOf key log).state = true → key ∈ (log.foldl Fold.next {}).settledOnce

def itemOf : RunEvent → Option ItemAddress
  | .foreachItemStarted path _ => splitItemPath path
  | .foreachItemCompleted path _ _ => splitItemPath path
  | _ => none

/-- What leaves the work that is known of: no fan-out is declared, and no item is begun beyond those declared. -/
structure WithinCounts (log : List RunEvent) (event : RunEvent) : Prop where
  declares : startsForeach event = none
  fits : ∀ item, itemOf event = some item → item.index ∈ (log.foldl Fold.next {}).seen item.foreachKey ∨
    ∃ count, Dict.get (log.foldl Fold.next {}).foreachCounts item.foreachKey = some count ∧
      ((log.foldl Fold.next {}).seen item.foreachKey).length < count

theorem foldl_concat : (log ++ [event]).foldl Fold.next {} = (log.foldl Fold.next {}).next event := by
  rw [List.foldl_append, List.foldl_cons, List.foldl_nil]

theorem isSettled_of_closed {state : StepState} (h : state.isOpen = false) : isSettled (some state) = true := by
  cases state <;> first | rfl | cases h

theorem settledOnce_next (h : key ∈ fold.settledOnce) : key ∈ (fold.next event).settledOnce := by
  cases event with
  | stepCompleted path output => exact List.mem_insert_of_mem h
  | stepFailed path error => exact List.mem_insert_of_mem h
  | stepCancelled path => exact List.mem_insert_of_mem h
  | foreachItemStarted path index =>
    cases hs : splitItemPath path with
    | none =>
      rw [Fold.next, hs]
      exact h
    | some item =>
      rw [Fold.next, hs]
      exact h
  | foreachItemCompleted path index output =>
    cases hs : splitItemPath path with
    | none =>
      rw [Fold.next, hs]
      exact h
    | some item =>
      rw [Fold.next, hs]
      exact h
  | _ => exact h

def CountedAt (log : List RunEvent) (key : NodePath) : Prop :=
  isSettled (viewOf key log).state = true ∨ key ∈ (log.foldl Fold.next {}).settledOnce

theorem counted_concat (hs : Steady log event) (ht : touchOf key event ≠ some .take) (h : CountedAt log key) :
    CountedAt (log ++ [event]) key := by
  rw [CountedAt, foldl_concat, viewOf_concat]
  obtain hnow | honce := h
  · cases htouch : touchOf key event with
    | none => exact .inl (by simpa [KeyView.next, htouch] using hnow)
    | some touch =>
      rw [KeyView.next, htouch, Option.elim_some]
      cases touch with
      | put state =>
        cases hopen : state.isOpen with
        | false => exact .inl (isSettled_of_closed hopen)
        | true => exact .inr (settledOnce_next (hs.restarts key state htouch hopen hnow))
      | take => exact absurd htouch ht
      | close =>
        refine .inl ?_
        rw [KeyView.touch]
        split
        · rfl
        · exact hnow
      | closeOpen state =>
        have hclosed : (viewOf key log).isOpen = false := by
          cases hstate : (viewOf key log).state with
          | none => simp [KeyView.isOpen, hstate]
          | some before =>
            rw [hstate] at hnow
            cases before <;> first | cases hnow; done | simp [KeyView.isOpen, hstate, StepState.isOpen]
        exact .inl (by simpa [KeyView.touch, hclosed] using hnow)
  · exact .inr (settledOnce_next honce)

theorem skipped_concat (hs : Steady log event) (h : (viewOf key log).state = some .skipped) :
    (viewOf key (log ++ [event])).state = some .skipped := by
  rw [viewOf_concat, KeyView.next]
  cases htouch : touchOf key event with
  | none => exact h
  | some touch =>
    obtain rfl | ⟨state, rfl⟩ := hs.skips key touch htouch h
    · rfl
    · simp [KeyView.touch, KeyView.isOpen, h, StepState.isOpen]

theorem counted_along (hs : Along Steady log more) (ht : ∀ event ∈ more, touchOf key event ≠ some .take)
    (h : CountedAt log key) : CountedAt (log ++ more) key := by
  induction more generalizing log with
  | nil => rwa [List.append_nil]
  | cons event rest ih =>
    have hnext := counted_concat hs.1 (ht event List.mem_cons_self) h
    have hlater := ih hs.2 (fun other ho => ht other (List.mem_cons_of_mem _ ho)) hnext
    rwa [List.append_assoc] at hlater

theorem skipped_along (hs : Along Steady log more) (h : (viewOf key log).state = some .skipped) :
    (viewOf key (log ++ more)).state = some .skipped := by
  induction more generalizing log with
  | nil => rwa [List.append_nil]
  | cons event rest ih =>
    have hlater := ih hs.2 (skipped_concat hs.1 h)
    rwa [List.append_assoc] at hlater

theorem later_along (hs : Along Steady log more) : Later (deriveStepStates log) (deriveStepStates (log ++ more))
    (log.foldl Fold.next {}) ((log ++ more).foldl Fold.next {}) where
  skips := by
    intro key h
    rw [get_deriveStepStates] at h ⊢
    exact skipped_along hs h
  items := by
    intro key index hi
    rw [List.foldl_append]
    exact (mem_seen_foldl _ _).mpr (.inl hi)
  once := fun key => nodup_seen_foldl {} List.nodup_nil _

section Produced

variable {workflow : WorkflowDefinition}

theorem not_taken (hc : Committed workflow) (ht : Typed workflow event) {node : WorkflowNode} {step : StepDefinition}
    (hm : node ∈ workflow.nodes) (hr : RunsAt [] node key step) : touchOf key event ≠ some .take := by
  intro htouch
  cases event with
  | branchArm path taken =>
    have hkey : staticKeyOf path = key := touchAt_key (by rw [touchOf] at htouch; rw [htouch]; exact Option.some_ne_none _)
    obtain ⟨other, door, hl, hsuits⟩ := ht path rfl
    obtain ⟨rest, hrest, hstep⟩ := located_runsAt hm hr
    rw [List.nil_append] at hrest
    subst hrest
    obtain ⟨rfl, rfl⟩ := Locates.unique hc.scopesUnique hl.static hstep (by rw [← hkey])
    cases hsuits with
    | step hkind => cases hkind
    | provided hkind => cases hkind
    | ofRun hsubject => cases hsubject
  | runCrashed path error =>
    cases path with
    | none => cases htouch
    | some path => by_cases hk : staticKeyOf path = key <;> simp [touchOf, touchAt, hk] at htouch
  | runCancelled path source =>
    cases path with
    | none => cases htouch
    | some path => by_cases hk : staticKeyOf path = key <;> simp [touchOf, touchAt, hk] at htouch
  | _ => simp [touchOf, touchAt] at htouch

theorem located_item {nodes : List WorkflowNode} {node : WorkflowNode} {index : Nat}
    (h : Locates nodes path node (.item index)) : ∃ parent name, path = appendForeachItem parent name index := by
  generalize hd : Door.item index = door at h
  induction h with
  | last hm ho =>
    subst hd
    cases ho with
    | item => exact ⟨[], _, rfl⟩
  | @inside _ _ _ _ segment _ _ _ _ _ _ ih =>
    obtain ⟨parent, name, rfl⟩ := ih hd
    exact ⟨segment :: parent, name, rfl⟩

theorem splitItemPath_item (parent : NodePath) (name : String) (index : Nat) :
    (splitItemPath (appendForeachItem parent name index)).isSome = true := by
  simp [splitItemPath]

theorem itemPathComplaint_typed (h : Typed workflow event) : itemPathComplaint event = none := by
  cases event with
  | foreachItemStarted path index =>
    obtain ⟨node, door, hl, hsuits⟩ := h path rfl
    cases hsuits with
    | itemStarted =>
      obtain ⟨parent, name, rfl⟩ := located_item hl
      rw [itemPathComplaint, if_pos (splitItemPath_item parent name index)]
    | step hkind => cases hkind
    | provided hkind => cases hkind
    | ofRun hsubject => cases hsubject
  | foreachItemCompleted path index output =>
    obtain ⟨node, door, hl, hsuits⟩ := h path rfl
    cases hsuits with
    | itemCompleted =>
      obtain ⟨parent, name, rfl⟩ := located_item hl
      rw [itemPathComplaint, if_pos (splitItemPath_item parent name index)]
    | step hkind => cases hkind
    | provided hkind => cases hkind
    | ofRun hsubject => cases hsubject
  | _ => rfl

theorem project_typed (h : ∀ event ∈ log, Typed workflow event) : ∃ view,
    project (buildOutline workflow) log = .ok view ∧
    view.stepsSettled = (tally (log.foldl Fold.next {}).settledOnce (projectedNodes (deriveStepStates log)
      (log.foldl Fold.next {}) false [] workflow.nodes)).settled ∧
    view.stepsTotal = (tally (log.foldl Fold.next {}).settledOnce (projectedNodes (deriveStepStates log)
      (log.foldl Fold.next {}) false [] workflow.nodes)).total := by
  have hnone : log.findSome? itemPathComplaint = none :=
    List.findSome?_eq_none_iff.mpr (fun event hm => itemPathComplaint_typed (h event hm))
  refine ⟨projectedView (buildOutline workflow) log (log.foldl Fold.next {}), ?_, ?_, ?_⟩
  · rw [project, foldEvents, hnone]
    rfl
  · rw [← projectNodes_outline]
    rfl
  · rw [← projectNodes_outline]
    rfl

/-- While a run goes on, the count of its settled steps does not go back, and does not pass the count of all. -/
theorem footer_advances (hc : Committed workflow) (hp : Produced workflow (log ++ more)) (hs : Along Steady log more) :
    ∃ before after, project (buildOutline workflow) log = .ok before ∧
      project (buildOutline workflow) (log ++ more) = .ok after ∧
      before.stepsSettled ≤ after.stepsSettled ∧ after.stepsSettled ≤ after.stepsTotal := by
  have htyped := typed_of_produced hp
  obtain ⟨before, hbefore, hsettled, -⟩ := project_typed (fun event hm => htyped event (List.mem_append_left _ hm))
  obtain ⟨after, hafter, hsettled', htotal⟩ := project_typed htyped
  refine ⟨before, after, hbefore, hafter, ?_, ?_⟩
  · rw [hsettled, hsettled']
    refine settled_le (later_along hs) (committed_filled hc) ?_ id workflow.nodes (List.Subset.refl _)
    intro node hm path step hr hcounted
    rw [get_deriveStepStates] at hcounted ⊢
    refine counted_along hs ?_ hcounted
    intro event he
    exact not_taken hc (htyped event (List.mem_append_right _ he)) hm hr
  · rw [hsettled', htotal]
    exact settled_le_total _

theorem foreachCounts_next (h : startsForeach event = none) : (fold.next event).foreachCounts = fold.foreachCounts := by
  cases event with
  | foreachStarted path count => cases h
  | foreachItemStarted path index =>
    cases hs : splitItemPath path with
    | none => rw [Fold.next, hs]
    | some item =>
      rw [Fold.next, hs]
      rfl
  | foreachItemCompleted path index output =>
    cases hs : splitItemPath path with
    | none => rw [Fold.next, hs]
    | some item =>
      rw [Fold.next, hs]
      rfl
  | _ => rfl

theorem itemOf_of_sees {index : Nat} (h : seesItem key event = some index) :
    ∃ item, itemOf event = some item ∧ item.foreachKey = key ∧ item.index = index := by
  have hbind : (itemOf event).bind (seesItem.at? key) = some index := by
    rw [← h]
    cases event <;> rfl
  obtain ⟨item, hitem, hat⟩ := Option.bind_eq_some_iff.mp hbind
  rw [seesItem.at?] at hat
  split_ifs at hat with hkey
  exact ⟨item, hitem, hkey, Option.some.inj hat⟩

theorem declared_concat (h : WithinCounts log event) (key : NodePath) :
    ((log ++ [event]).foldl Fold.next {}).declared key = (log.foldl Fold.next {}).declared key := by
  rw [foldl_concat, Fold.declared, Fold.declared, foreachCounts_next h.declares, seen_next]
  cases hi : seesItem key event with
  | none => rfl
  | some index =>
    obtain ⟨item, hitem, rfl, rfl⟩ := itemOf_of_sees hi
    rw [Option.elim_some, addSeen]
    split_ifs with hseen
    · rfl
    · obtain hm | ⟨count, hcount, hlt⟩ := h.fits item hitem
      · exact absurd hm hseen
      · rw [hcount]
        simp only [Option.map_some, Option.getD_some, List.length_append, List.length_cons, List.length_nil]
        omega

theorem declared_along (h : Along WithinCounts log more) (key : NodePath) :
    ((log ++ more).foldl Fold.next {}).declared key = (log.foldl Fold.next {}).declared key := by
  induction more generalizing log with
  | nil => rw [List.append_nil]
  | cons event rest ih =>
    have hlater := ih h.2
    rw [declared_concat h.1, List.append_assoc] at hlater
    exact hlater

mutual

theorem plannedUnder_congr (h : ∀ key, fold.declared key = fold'.declared key) (scope : NodePath) (node : WorkflowNode) :
    plannedUnder fold scope node = plannedUnder fold' scope node := by
  cases node with
  | step step => rfl
  | branch name arms => rw [plannedUnder, plannedUnder, plannedArms_congr h scope arms]
  | loop name mode body condition maxIterations => rw [plannedUnder, plannedUnder, planned_congr h _ body]
  | «foreach» name body selector concurrency feedback => rw [plannedUnder, plannedUnder, h]
  | parallel name arms => rfl
  | workflow name inner => rw [plannedUnder, plannedUnder, planned_congr h _ inner]

theorem planned_congr (h : ∀ key, fold.declared key = fold'.declared key) (scope : NodePath) (nodes : List WorkflowNode) :
    planned fold scope nodes = planned fold' scope nodes := by
  match nodes with
  | [] => rfl
  | node :: rest => rw [planned, planned, plannedUnder_congr h scope node, planned_congr h scope rest]

theorem plannedArms_congr (h : ∀ key, fold.declared key = fold'.declared key) (scope : NodePath) (arms : List BranchArm) :
    plannedArms fold scope arms = plannedArms fold' scope arms := by
  match arms with
  | [] => rfl
  | .mk name condition body :: rest =>
    rw [plannedArms, plannedArms, planned_congr h _ body, plannedArms_congr h scope rest]

end

/-- Between the declarations of fan-outs the count of all steps stands still. -/
theorem footer_total_stands (hc : Committed workflow) (hu : Unnested workflow.nodes)
    (hp : Produced workflow (log ++ more)) (hw : Along WithinCounts log more) :
    ∃ before after, project (buildOutline workflow) log = .ok before ∧
      project (buildOutline workflow) (log ++ more) = .ok after ∧ after.stepsTotal = before.stepsTotal := by
  have htyped := typed_of_produced hp
  have hf := committed_filled hc
  obtain ⟨before, hbefore, -, htotal⟩ := project_typed (fun event hm => htyped event (List.mem_append_left _ hm))
  obtain ⟨after, hafter, -, htotal'⟩ := project_typed htyped
  refine ⟨before, after, hbefore, hafter, ?_⟩
  rw [htotal, htotal', total_planned hf hu workflow.nodes (List.Subset.refl _),
    total_planned hf hu workflow.nodes (List.Subset.refl _)]
  exact planned_congr (declared_along hw) [] workflow.nodes

end Produced

section Examples

theorem steady_of_untouched
    (h : ∀ entry ∈ deriveStepStates log, isSettled (some entry.2) = true → touchOf entry.1 event = none) :
    Steady log event where
  skips := by
    intro key touch htouch hstate
    rw [h _ (mem_deriveStepStates.mpr hstate) rfl] at htouch
    cases htouch
  restarts := by
    intro key state htouch _ hsettled
    cases hstate : (viewOf key log).state with
    | none =>
      rw [hstate] at hsettled
      cases hsettled
    | some before =>
      rw [hstate] at hsettled
      rw [h _ (mem_deriveStepStates.mpr hstate) hsettled] at htouch
      cases htouch

def surveyOpening : List RunEvent := surveyAsked.take 2

def surveyGoingOn : List RunEvent := surveyFirstAnswered.drop 2

theorem steady_survey : Along Steady surveyOpening surveyGoingOn := by
  refine ⟨?_, ?_, ?_, ?_, ?_, ?_, ?_, ?_, ?_, ?_, ?_, ?_, trivial⟩
  all_goals exact steady_of_untouched (by decide)

/-- Two items, from the declaration of the fan-out to the first one answered. -/
theorem footer_advances_survey : ∃ before after, project (buildOutline survey) surveyOpening = .ok before ∧
    project (buildOutline survey) (surveyOpening ++ surveyGoingOn) = .ok after ∧
    before.stepsSettled ≤ after.stepsSettled ∧ after.stepsSettled ≤ after.stepsTotal :=
  footer_advances committed_survey produced_surveyFirstAnswered steady_survey

theorem unnested_survey : Unnested survey.nodes := by
  intro node body ho hforeach hb inner hi
  have hsteps : body = approval.nodes := by
    cases ho with
    | here hm =>
      obtain rfl := List.mem_singleton.mp hm
      exact List.mem_singleton.mp hb
    | within hm hbody hinner =>
      obtain rfl := List.mem_singleton.mp hm
      rw [List.mem_singleton.mp hbody] at hinner
      cases hinner with
      | here hm =>
        obtain rfl := List.mem_singleton.mp hm
        cases hforeach
      | within hm hbody =>
        obtain rfl := List.mem_singleton.mp hm
        cases hbody
  rw [hsteps] at hi
  cases hi with
  | here hm =>
    obtain rfl := List.mem_singleton.mp hm
    rfl
  | within hm hbody =>
    obtain rfl := List.mem_singleton.mp hm
    cases hbody

theorem within_survey : Along WithinCounts surveyOpening surveyGoingOn := by
  refine ⟨?_, ?_, ?_, ?_, ?_, ?_, ?_, ?_, ?_, ?_, ?_, ?_, trivial⟩
  all_goals
    refine ⟨rfl, ?_⟩
    intro item hitem
    cases hitem
  all_goals first | exact .inl (by decide) | exact .inr ⟨2, by decide, by decide⟩

theorem footer_total_stands_survey : ∃ before after, project (buildOutline survey) surveyOpening = .ok before ∧
    project (buildOutline survey) (surveyOpening ++ surveyGoingOn) = .ok after ∧
    after.stepsTotal = before.stepsTotal :=
  footer_total_stands committed_survey unnested_survey produced_surveyFirstAnswered within_survey

def mend : StepDefinition := .function { name := "mend" }

def mending : WorkflowDefinition := { name := "mending", nodes := [.step mend] }

def secondRound (ctx : RunContext) : Except String Bool :=
  .ok (((ctx.scope (some "until-clean")).bind ScopeFrame.iteration).any (2 ≤ ·))

def triage : WorkflowDefinition :=
  { name := "triage", nodes := [.branch "pick" [.mk "repair" secondRound mending.nodes]] }

def repairing : WorkflowDefinition :=
  { name := "repairing"
    nodes := [.loop "until-clean" .dountil triage.nodes (fun _ last => .ok (last ≠ .object [])) 3] }

theorem committed_repairing : Committed repairing := by
  have hmending : Committed mending := .flat (show mending.nodes.flatMap bodiesOf = [] from rfl) rfl
  have htriage : Committed triage :=
    .assembled [mending] (List.forall_mem_singleton.mpr hmending) (show triage.nodes.flatMap bodiesOf = _ from rfl) rfl
  exact .assembled [triage] (List.forall_mem_singleton.mpr htriage) (show repairing.nodes.flatMap bodiesOf = _ from rfl) rfl

def roundPath (iteration : Nat) : NodePath := [{ name := "until-clean", index := some (.loop, iteration) }]

def roundOf (iteration : Nat) (taken : Bool) : List RunEvent :=
  [.loopIteration (roundPath iteration) iteration, .nodeStarted (appendSegment (roundPath iteration) "pick") .branch,
    .branchArm (appendSegment (roundPath iteration) "repair") taken]

def repairingLog : List RunEvent :=
  [.runStarted "run-1" "repairing" .null, .nodeStarted [{ name := "until-clean" }] .loop] ++ roundOf 1 false ++
    [.nodeCompleted (appendSegment (roundPath 1) "pick") (.object [])] ++ roundOf 2 true ++
    [.stepStarted (appendSegment (appendSegment (roundPath 2) "repair") "mend") .undefined,
      .stepCompleted (appendSegment (appendSegment (roundPath 2) "repair") "mend") (.bool true),
      .nodeCompleted (appendSegment (roundPath 2) "repair") (.bool true),
      .nodeCompleted (appendSegment (roundPath 2) "pick") (.object [("repair", .bool true)]),
      .nodeCompleted [{ name := "until-clean" }] (.object [("repair", .bool true)]),
      .runCompleted (.object [("repair", .bool true)])]

theorem produced_repairingLog : Produced repairing repairingLog := by
  have hr : Returns repairing (.run "run-1" .null) [] repairingLog (.ok (.object [("repair", .bool true)])) :=
    returns_of_attempt [{ outcome := .ok (.bool true) }] 100 rfl
  exact Produced.start.returns hr

/-- An arm that one iteration skips and the next one takes does take the settled back. -/
theorem footer_falls_repairing : ∃ before after,
    project (buildOutline repairing) (repairingLog.take 8) = .ok before ∧
      project (buildOutline repairing) (repairingLog.take 9) = .ok after ∧ after.stepsSettled < before.stepsSettled := by
  have htyped := typed_of_produced produced_repairingLog
  obtain ⟨before, hbefore, hsettled, -⟩ :=
    project_typed (fun event hm => htyped event (List.mem_of_mem_take (i := 8) hm))
  obtain ⟨after, hafter, hsettled', -⟩ :=
    project_typed (fun event hm => htyped event (List.mem_of_mem_take (i := 9) hm))
  refine ⟨before, after, hbefore, hafter, ?_⟩
  rw [hsettled, hsettled']
  decide

end Examples

end KimchiWorkflows.Progress
