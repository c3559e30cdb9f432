import KimchiWorkflows.Engine.ItemReentry
import KimchiWorkflows.Engine.RecordedCalls
import KimchiWorkflows.Engine.ResolvedSteps

/-!
Every event of a log suits the node of the tree that its path stands for.
-/

namespace KimchiWorkflows.Engine

open KimchiWorkflows.Flow Process Process.Proc Scheduling

/-- The part of the node can have the event. -/
inductive Suits : WorkflowNode → Door → RunEvent → Prop where
  | step {step : StepDefinition} {event : RunEvent} : event.isStepEvent = true →
      (∀ path error, event = .stepFailed path error → mayFail step = true) → Suits (.step step) .own event
  | provided {step : StepDefinition} {event : RunEvent} : event.provides = true → Suits (.step step) .own event
  | opened {node : WorkflowNode} {path : NodePath} {kind : NodeKind} : announced node = some kind →
      Suits node .own (.nodeStarted path kind)
  | closed {node : WorkflowNode} {path : NodePath} {output : Value} : (∀ step, node ≠ .step step) →
      Suits node .own (.nodeCompleted path output)
  | armDecided {name : String} {arms : List BranchArm} {j : Nat} {path : NodePath} {taken : Bool} :
      Suits (.branch name arms) (.arm j) (.branchArm path taken)
  | armClosed {name : String} {arms : List BranchArm} {j : Nat} {path : NodePath} {output : Value} :
      Suits (.branch name arms) (.arm j) (.nodeCompleted path output)
  | iterated {name : String} {mode : LoopMode} {body : List WorkflowNode}
      {condition : RunContext → Value → Except String Bool} {maxIterations iteration : Nat} {path : NodePath} :
      Suits (.loop name mode body condition maxIterations) .own
        (.loopIteration (appendLoopIteration path name iteration) iteration)
  | selected {name : String} {body : List WorkflowNode} {selector : RunContext → Except String Value}
      {concurrency count : Nat} {feedback : Bool} {path : NodePath} :
      Suits (.foreach name body selector concurrency feedback) .own (.foreachStarted path count)
  | itemStarted {name : String} {body : List WorkflowNode} {selector : RunContext → Except String Value}
      {concurrency index : Nat} {feedback : Bool} {path : NodePath} :
      Suits (.foreach name body selector concurrency feedback) (.item index) (.foreachItemStarted path index)
  | itemCompleted {name : String} {body : List WorkflowNode} {selector : RunContext → Except String Value}
      {concurrency index : Nat} {feedback : Bool} {path : NodePath} {output : Value} :
      Suits (.foreach name body selector concurrency feedback) (.item index) (.foreachItemCompleted path index output)
  | ofRun {node : WorkflowNode} {door : Door} {event : RunEvent} : event.subject = none → Suits node door event

variable {workflow : WorkflowDefinition} {log : List RunEvent} {nodes body : List WorkflowNode} {node : WorkflowNode}
  {door : Door} {path key parentPath inner : NodePath} {event : RunEvent} {call : EngineCall} {launched : Launched}
  {step : StepDefinition}

/-- Below a path, the rest of it stands for a part of a node that can have the event. -/
def SuitsBelow (nodes : List WorkflowNode) (parentPath path : NodePath) (event : RunEvent) : Prop :=
  ∃ rest node door, path = parentPath ++ rest ∧ Locates nodes rest node door ∧ Suits node door event

theorem opens_own (node : WorkflowNode) : ∃ inner, Opens node { name := nodeName node } .own inner := by
  cases node with
  | step step => exact ⟨_, .step⟩
  | branch name arms => exact ⟨_, .branch⟩
  | loop name mode body condition maxIterations => exact ⟨_, .loop⟩
  | «foreach» name body selector concurrency feedback => exact ⟨_, .foreach⟩
  | parallel name arms => exact ⟨_, .parallel⟩
  | workflow name inner => exact ⟨_, .workflow⟩

theorem suits_own (hm : node ∈ nodes) (hs : Suits node .own event) :
    SuitsBelow nodes parentPath (appendSegment parentPath (nodeName node)) event := by
  obtain ⟨inner, ho⟩ := opens_own node
  exact ⟨_, node, .own, rfl, .last hm ho, hs⟩

theorem suits_opens {segment : PathSegment} {scope : List WorkflowNode} (hm : node ∈ nodes)
    (ho : Opens node segment door scope) (hs : Suits node door event) :
    SuitsBelow nodes parentPath (parentPath ++ [segment]) event :=
  ⟨_, node, door, rfl, .last hm ho, hs⟩

theorem suits_armStep {name : String} {arms : List StepDefinition} {arm : StepDefinition}
    (hm : .parallel name arms ∈ nodes) (harm : arm ∈ arms) (hs : Suits (.step arm) .own event) :
    SuitsBelow nodes parentPath (appendSegment (appendSegment parentPath name) arm.name) event :=
  ⟨_, _, _, by simp [appendSegment], located_armStep hm harm, hs⟩

theorem address_of_subject (h : event.subject = some path) : event.address = some path := by
  cases event <;> first | exact h | cases h

theorem StepEvent.suits {mayFail : Bool} (h : StepEvent key mayFail event) (hf : mayFail = Engine.mayFail step) :
    Suits (.step step) .own event := by
  refine .step h.kind ?_
  rintro failed error rfl
  have hkey : failed = key := Option.some.inj h.subject
  rw [← hf]
  exact h.failed error (by rw [hkey])

theorem LiveChild.opens (h : LiveChild parentPath node inner body) :
    ∃ segment door, inner = parentPath ++ [segment] ∧ Opens node segment door body := by
  cases h with
  | arm hm =>
    obtain ⟨j, hj⟩ := List.mem_iff_getElem?.mp hm
    exact ⟨_, _, rfl, .arm hj⟩
  | iteration iteration => exact ⟨_, _, rfl, .iteration iteration⟩
  | item index => exact ⟨_, _, rfl, .item index⟩
  | workflow => exact ⟨_, _, rfl, .workflow⟩

theorem suits_breaksAt (hm : node ∈ nodes) (h : BreaksAt parentPath node path) (hs : event.subject = none) :
    SuitsBelow nodes parentPath path event := by
  cases h with
  | node => exact suits_own hm (.ofRun hs)
  | arm harm => exact suits_armStep hm harm (.ofRun hs)
  | iteration iteration => exact suits_opens hm (.iteration iteration) (.ofRun hs)

theorem suits_emitted (h : Emitted parentPath node event) (hm : node ∈ nodes) (hp : event.address = some path) :
    SuitsBelow nodes parentPath path event := by
  induction h generalizing nodes with
  | step he =>
    obtain rfl := Option.some.inj (hp.symm.trans (address_of_subject he.subject))
    exact suits_own hm (he.suits rfl)
  | armStep harm he =>
    obtain rfl := Option.some.inj (hp.symm.trans (address_of_subject he.subject))
    exact suits_armStep hm harm (he.suits rfl)
  | opened ha =>
    cases hp
    exact suits_own hm (.opened ha)
  | closed output hn =>
    cases hp
    exact suits_own hm (.closed hn)
  | armDecided taken harm =>
    cases hp
    obtain ⟨j, hj⟩ := List.mem_iff_getElem?.mp harm
    exact suits_opens hm (.arm hj) .armDecided
  | armClosed output harm =>
    cases hp
    obtain ⟨j, hj⟩ := List.mem_iff_getElem?.mp harm
    exact suits_opens hm (.arm hj) .armClosed
  | iterated iteration =>
    cases hp
    exact suits_opens hm (.iteration iteration) .iterated
  | selected count =>
    cases hp
    exact suits_own hm .selected
  | itemStarted index =>
    cases hp
    exact suits_opens hm (.item index) .itemStarted
  | itemCompleted index output =>
    cases hp
    exact suits_opens hm (.item index) .itemCompleted
  | crashed error hb =>
    cases hp
    exact suits_breaksAt hm hb rfl
  | cancelled source hb =>
    cases hp
    exact suits_breaksAt hm hb rfl
  | inside hl hchild _ ih =>
    obtain ⟨segment, door, rfl, ho⟩ := hl.opens
    obtain ⟨rest, target, through, rfl, hlocated, hs⟩ := ih hchild hp
    exact ⟨segment :: rest, target, through, by simp, .inside hm ho hlocated, hs⟩

/-- An event of a log suits the part of the tree that its path stands for. -/
def Typed (workflow : WorkflowDefinition) (event : RunEvent) : Prop :=
  ∀ path, event.address = some path → ∃ node door, Locates workflow.nodes path node door ∧ Suits node door event

theorem Locates.static (h : Locates nodes path node door) : Locates nodes (staticKeyOf path) node door := by
  induction h with
  | last hm ho => exact .last hm ho.static
  | inside hm ho _ ih => exact .inside hm ho.static ih

theorem locates_takenOver (hlog : ∀ event ∈ log, Typed workflow event) (h : TakenOver workflow log path) :
    ∃ node door, Locates workflow.nodes path node door := by
  cases h with
  | @node node hm =>
    obtain ⟨inner, ho⟩ := opens_own node
    exact ⟨_, _, .last hm ho⟩
  | path hm hs =>
    obtain ⟨node, door, hl, -⟩ := hlog _ hm _ (address_of_subject hs)
    exact ⟨node, door, hl⟩
  | key hm hs =>
    obtain ⟨node, door, hl, -⟩ := hlog _ hm _ (address_of_subject hs)
    exact ⟨node, door, hl.static⟩

theorem stepEvent_of_asked {asked : Asked} (h : asked ∈ askedInputs log) :
    ∃ event ∈ log, event.subject = some asked.path ∧ event.isStepEvent = true ∧ event.block?.isSome = true := by
  obtain ⟨⟨event, index⟩, he, hasked⟩ := List.mem_filterMap.mp h
  have hm : event ∈ log := (List.mem_zipIdx' he).2 ▸ List.getElem_mem _
  refine ⟨event, hm, ?_⟩
  cases event with
  | questionnaireAsked path questionnaire conversation violation elapsedMs tokensUsed =>
    cases hasked
    exact ⟨rfl, rfl, rfl⟩
  | interactionRequested path request violation =>
    cases hasked
    exact ⟨rfl, rfl, rfl⟩
  | _ => cases hasked

theorem located_asked (hlog : ∀ event ∈ log, Typed workflow event) {asked : Asked} (h : asked ∈ askedInputs log) :
    ∃ step, Locates workflow.nodes asked.path (.step step) .own := by
  obtain ⟨event, hm, hs, hstep, -⟩ := stepEvent_of_asked h
  obtain ⟨node, door, hl, hsuits⟩ := hlog event hm _ (address_of_subject hs)
  cases hsuits with
  | @step step event _ _ => exact ⟨step, hl⟩
  | @provided step event _ => exact ⟨step, hl⟩
  | ofRun hnone =>
    rw [hs] at hnone
    cases hnone
  | _ => cases hstep

theorem typed_recordable (hlog : ∀ event ∈ log, Typed workflow event) (hr : Recordable workflow log call event)
    (ha : Answers log event) : Typed workflow event := by
  intro path hp
  by_cases hprovides : event.provides = true
  · have hs : event.subject = some path := by
      cases event <;> first | exact hp | cases hprovides
    obtain ⟨asked, hasked, rfl⟩ := ha hprovides path hs
    obtain ⟨step, hl⟩ := located_asked hlog hasked
    exact ⟨_, _, hl, .provided hprovides⟩
  · cases hr with
    | opening ho ht =>
      obtain ⟨node, door, hl⟩ := locates_takenOver hlog (ht path hp)
      refine ⟨node, door, hl, .ofRun ?_⟩
      cases call with
      | run runId input =>
        obtain ⟨_, _, _, rfl⟩ := ho
        rfl
      | resume =>
        obtain ⟨_, rfl⟩ := ho
        rfl
      | answer answers asked =>
        obtain ⟨_, rfl⟩ := ho
        exact absurd rfl hprovides
      | respond response asked =>
        obtain ⟨_, rfl⟩ := ho
        exact absurd rfl hprovides
    | ended he ht =>
      obtain ⟨node, door, hl⟩ := locates_takenOver hlog (ht path hp)
      refine ⟨node, door, hl, .ofRun ?_⟩
      cases event <;> first | rfl | cases he
    | emitted hm he =>
      obtain ⟨rest, node, door, rfl, hl, hs⟩ := suits_emitted he hm hp
      exact ⟨node, door, hl, hs⟩
    | abandoned hm =>
      cases hp
      obtain ⟨step, hl⟩ := located_asked hlog (mem_askedInputs_of_pending hm)
      exact ⟨_, _, hl, .step rfl (by simp)⟩

theorem typed_of_produced (h : Produced workflow log) : ∀ event ∈ log, Typed workflow event := by
  induction h with
  | start => simp
  | @host log event _ hh ih =>
    intro other hm
    obtain hm | hm := List.mem_append.mp hm
    · exact ih other hm
    · obtain rfl := List.mem_singleton.mp hm
      intro path hp
      cases other <;> first | cases hp; done | cases hh
  | @call log call launched t code memory _ hl hr hw ih =>
    intro event hm
    rw [log_replay hw] at hm
    obtain hm | hm := List.mem_append.mp hm
    · exact ih event hm
    · have he := mem_recordedEvents.mp hm
      exact typed_recordable ih (recordable_of_run hl hr he) ((only_run (records_answers hl) hr).1 _ he event rfl)

/-- What answers a request stands behind it. -/
def AnswersBefore (log : List RunEvent) : Prop :=
  ∀ before answer after, log = before ++ answer :: after → answer.provides = true →
    ∃ request ∈ before, request.block?.isSome = true ∧ request.subject = answer.subject

theorem subject_of_provides (h : event.provides = true) : ∃ path, event.subject = some path := by
  cases event <;> first | exact ⟨_, rfl⟩ | cases h

theorem request_of_answers (ha : Answers log event) (h : event.provides = true) :
    ∃ request ∈ log, request.block?.isSome = true ∧ request.subject = event.subject := by
  obtain ⟨path, hs⟩ := subject_of_provides h
  obtain ⟨asked, hasked, rfl⟩ := ha h path hs
  obtain ⟨request, hm, hpath, -, hblock⟩ := stepEvent_of_asked hasked
  exact ⟨request, hm, hblock, hpath.trans hs.symm⟩

theorem answersBefore_append {new : List RunEvent} (h : AnswersBefore log) (hn : ∀ event ∈ new, Answers log event) :
    AnswersBefore (log ++ new) := by
  intro before answer after hsplit hp
  obtain ⟨rest, rfl, hrest⟩ | ⟨rest, rfl, hrest⟩ := List.append_eq_append_iff.mp hsplit
  · have hm : answer ∈ new := hrest ▸ List.mem_append_right _ List.mem_cons_self
    obtain ⟨request, hin, hr⟩ := request_of_answers (hn answer hm) hp
    exact ⟨request, List.mem_append_left _ hin, hr⟩
  · cases rest with
    | nil =>
      have hnew : answer :: after = new := hrest
      have hm : answer ∈ new := hnew ▸ List.mem_cons_self
      obtain ⟨request, hin, hr⟩ := request_of_answers (hn answer hm) hp
      exact ⟨request, by simpa using hin, hr⟩
    | cons first rest =>
      obtain ⟨rfl, rfl⟩ := List.cons.inj hrest
      exact h before answer rest rfl hp

theorem answersBefore_of_produced (h : Produced workflow log) : AnswersBefore log := by
  induction h with
  | start =>
    intro before answer after hsplit
    simp at hsplit
  | @host log event _ hh ih =>
    refine answersBefore_append ih ?_
    intro other hm
    obtain rfl := List.mem_singleton.mp hm
    apply answers_of_not_provides
    cases other <;> first | rfl | cases hh
  | @call log call launched t code memory _ hl hr hw ih =>
    rw [log_replay hw]
    refine answersBefore_append ih ?_
    intro event hm
    exact (only_run (records_answers hl) hr).1 _ (mem_recordedEvents.mp hm) event rfl

/-- All that is recorded under one static key is recorded of one part of one node, and suits it; and an answer
or a response stands only behind a request of the same step. -/
theorem one_part_per_key (hc : Committed workflow) (h : Produced workflow log) :
    (∀ event ∈ log, ∀ path, event.address = some path →
      ∃ node door, Locates workflow.nodes path node door ∧ Suits node door event ∧
        ∀ other ∈ log, ∀ path', other.address = some path' → staticKeyOf path' = staticKeyOf path →
          Locates workflow.nodes path' node door ∧ Suits node door other) ∧
    AnswersBefore log := by
  refine ⟨?_, answersBefore_of_produced h⟩
  intro event hm path hp
  obtain ⟨node, door, hl, hs⟩ := typed_of_produced h event hm path hp
  refine ⟨node, door, hl, hs, ?_⟩
  intro other ho path' hp' hkey
  obtain ⟨node', door', hl', hs'⟩ := typed_of_produced h other ho path' hp'
  obtain ⟨rfl, rfl⟩ := hl'.unique hc.scopesUnique hl hkey
  exact ⟨hl', hs'⟩

theorem completed_of_standing (h : standing log key = true) :
    ∃ path output, .stepCompleted path output ∈ log ∧ staticKeyOf path = key := by
  unfold standing at h
  obtain ⟨opened, hlast⟩ : ∃ opened, (log.filterMap (RunEvent.standing key)).getLast? = some opened := by
    apply Option.isSome_iff_exists.mp
    by_contra hnone
    rw [Option.not_isSome_iff_eq_none.mp hnone] at h
    cases h
  rw [hlast, Option.getD_some] at h
  obtain ⟨event, hm, hevent⟩ := List.mem_filterMap.mp (List.mem_of_getLast? hlast)
  rw [h] at hevent
  cases event with
  | stepCompleted path output =>
    rw [RunEvent.standing, Option.ite_none_right_eq_some] at hevent
    exact ⟨path, output, hm, hevent.1⟩
  | _ => simp [RunEvent.standing] at hevent

theorem resolve_standing (hc : Committed workflow) (h : Produced workflow log) (hs : standing log key = true) :
    ∃ step, resolveStepAtStaticPath workflow.nodes (key.map PathSegment.name) = some step := by
  obtain ⟨path, output, hm, rfl⟩ := completed_of_standing hs
  obtain ⟨node, door, hl, hsuits⟩ := typed_of_produced h _ hm path rfl
  rw [names_staticKeyOf]
  cases hsuits with
  | @step step event hkind hf => exact ⟨step, resolve_located hc.scopesUnique hl⟩
  | provided hprovides => cases hprovides
  | ofRun hnone => cases hnone

/-- A log resumed under the workflow that recorded it misses no step, and drifts only where an output schema
refuses what is on record. -/
theorem drift_only_by_schema (hc : Committed workflow) (h : Produced workflow log) (runId : String) :
    (∀ key ∈ completedStepKeys log, ∃ step,
      resolveStepAtStaticPath workflow.nodes (key.map PathSegment.name) = some step) ∧
    (checkDrift workflow log (rebuildStepOutputs log) runId = none ↔ ∀ key ∈ completedStepKeys log, ∀ step,
      resolveStepAtStaticPath workflow.nodes (key.map PathSegment.name) = some step →
        violationOf step.outputSchema ((lastCompletion log key).getD .undefined) = none) := by
  refine ⟨fun key hk => resolve_standing hc h (mem_completedStepKeys.mp hk), ?_⟩
  rw [checkDrift_eq_none_iff]
  constructor
  · intro hfits key hk step hstep
    obtain ⟨other, hother, hnone⟩ := hfits key (mem_completedStepKeys.mp hk)
    rwa [Option.some.inj (hstep.symm.trans hother)]
  · intro hall key hs
    obtain ⟨step, hstep⟩ := resolve_standing hc h hs
    exact ⟨step, hstep, hall key (mem_completedStepKeys.mpr hs) step hstep⟩

theorem one_part_per_key_survey :
    (∀ event ∈ surveyFirstAnswered, ∀ path, event.address = some path →
      ∃ node door, Locates survey.nodes path node door ∧ Suits node door event ∧
        ∀ other ∈ surveyFirstAnswered, ∀ path', other.address = some path' → staticKeyOf path' = staticKeyOf path →
          Locates survey.nodes path' node door ∧ Suits node door other) ∧
    AnswersBefore surveyFirstAnswered :=
  one_part_per_key committed_survey produced_surveyFirstAnswered

theorem drift_only_by_schema_survey : completedStepKeys surveyFirstAnswered = [itemQuestion 0] ∧
    checkDrift survey surveyFirstAnswered (rebuildStepOutputs surveyFirstAnswered) "run-1" = none := by
  refine ⟨rfl, ?_⟩
  apply (drift_only_by_schema committed_survey produced_surveyFirstAnswered "run-1").2.mpr
  intro key hk step hstep
  obtain rfl : key = itemQuestion 0 := List.mem_singleton.mp hk
  obtain rfl := Option.some.inj hstep
  rfl

end KimchiWorkflows.Engine
