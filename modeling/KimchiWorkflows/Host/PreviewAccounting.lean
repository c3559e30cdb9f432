import Mathlib.Algebra.BigOperators.Group.Finset.Basic
import Mathlib.Algebra.Order.BigOperators.Group.Finset
import KimchiWorkflows.Host.ProgressSink
import KimchiWorkflows.Progress.UniqueRows

/-!
The live view counts the usage of the turns in flight once, except of the turns inside a loop.
-/

namespace KimchiWorkflows.Host.ProgressSink

open KimchiWorkflows.Flow KimchiWorkflows.Engine KimchiWorkflows.Progress

def tokensInFlight (inputs : List SinkInput) (path : NodePath) : Nat := (inFlight inputs path).getD 0

/-- The usage of the turns in flight of the steps under some static paths. -/
def inFlightOf (inputs : List SinkInput) (steps : List NodePath) : Nat :=
  (((turnsInFlight inputs).filter (fun path => staticKeyOf path ∈ steps)).map (tokensInFlight inputs)).sum

/-- What is shown of a view: the usage of every turn in flight, on its step and on what holds the step. -/
structure AccountedOnce (inputs : List SinkInput) (view shown : ProgressView) : Prop where
  total : shown.tokens = view.tokens + ((turnsInFlight inputs).map (tokensInFlight inputs)).sum
  nodes : shown.nodes = credited (inFlightOf inputs) view.nodes

def HasRow (workflow : WorkflowDefinition) (events : List RunEvent) (path : NodePath) : Prop :=
  (∃ node ∈ workflow.nodes, ∃ step, RunsAt [] node path step) ∧
    ∀ q name i, q ++ [({ name := name, index := some (.foreach, i) } : PathSegment)] <+: path →
      ∃ event ∈ events, seesItem (q ++ [{ name := name }]) event = some i

section Sums

variable {α : Type} {f : α → Nat} {keys rows : List α}

/-- Keys that carry nothing aside, a sum over rows is one over the keys that have a row. -/
theorem sum_rows_eq (hk : keys.Nodup) (hr : rows.Nodup) (hz : ∀ a, a ∉ keys → f a = 0) {p : α → Bool}
    (hp : ∀ a, p a = true ↔ a ∈ rows) : (rows.map f).sum = ((keys.filter p).map f).sum := by
  classical
  rw [← List.sum_toFinset f hr, ← List.sum_toFinset f (hk.filter _)]
  symm
  apply Finset.sum_subset
  · intro a ha
    simp only [List.mem_toFinset, List.mem_filter, hp] at ha ⊢
    exact ha.2
  · intro a ha hn
    simp only [List.mem_toFinset, List.mem_filter, hp] at ha hn
    exact hz a (fun hm => hn ⟨hm, ha⟩)

theorem sum_filter_le (p : α → Bool) (keys : List α) : ((keys.filter p).map f).sum ≤ (keys.map f).sum := by
  induction keys with
  | nil => exact le_refl _
  | cons a rest ih =>
    rw [List.filter_cons, List.map_cons, List.sum_cons]
    split_ifs
    · rw [List.map_cons, List.sum_cons]
      omega
    · omega

theorem sum_filter_eq_iff (p : α → Bool) (hp : ∀ a ∈ keys, 0 < f a) :
    ((keys.filter p).map f).sum = (keys.map f).sum ↔ ∀ a ∈ keys, p a := by
  induction keys with
  | nil => simp
  | cons a rest ih =>
    have hrest := ih (fun b hb => hp b (List.mem_cons_of_mem _ hb))
    have hle := sum_filter_le (f := f) p rest
    have hpos := hp a List.mem_cons_self
    rw [List.filter_cons, List.map_cons, List.sum_cons, List.forall_mem_cons, ← hrest]
    split_ifs with ha
    · simp only [List.map_cons, List.sum_cons, ha, true_and]
      omega
    · constructor
      · intro hsum
        omega
      · intro hall
        exact absurd hall.1 ha

end Sums

section Trees

variable {credit credit' : List NodePath → Nat}

mutual

theorem creditedNode_congr {node : ProgressNode}
    (h : ∀ paths, paths.Sublist (stepPathsUnder node) → credit paths = credit' paths) :
    creditedNode credit node = creditedNode credit' node := by
  obtain ⟨kind, path, state, children, tokens, counter, perItemSteps, pendingItems⟩ := node
  rw [stepPathsUnder] at h
  rw [creditedNode, creditedNode, h _ (List.Sublist.refl _), credited_congr]
  intro paths hsub
  apply h
  rw [rowPaths]
  split_ifs
  · exact hsub.cons _
  · exact hsub

theorem credited_congr {nodes : List ProgressNode}
    (h : ∀ paths, paths.Sublist (stepPaths nodes) → credit paths = credit' paths) :
    credited credit nodes = credited credit' nodes := by
  match nodes with
  | [] => rfl
  | node :: rest =>
    rw [stepPaths] at h
    rw [credited, credited, creditedNode_congr, credited_congr]
    · intro paths hsub
      exact h paths (hsub.trans (List.sublist_append_right _ _))
    · intro paths hsub
      exact h paths (hsub.trans (List.sublist_append_left _ _))

end

end Trees

variable {workflow : WorkflowDefinition} {inputs : List SinkInput} {view : ProgressView} {usageByPath : Usage}

theorem tokens_pos {path : NodePath} (h : path ∈ turnsInFlight inputs) : 0 < tokensInFlight inputs path := by
  obtain ⟨tokens, htokens⟩ := Option.isSome_iff_exists.mp (mem_turnsInFlight.mp h)
  rw [tokensInFlight, htokens]
  exact (told_of_inFlight htokens).1

theorem tokens_zero {path : NodePath} (h : path ∉ turnsInFlight inputs) : tokensInFlight inputs path = 0 := by
  rw [mem_turnsInFlight, Option.not_isSome_iff_eq_none] at h
  rw [tokensInFlight, h]
  rfl

theorem previewsAt_eq (hu : ∀ path, Dict.get usageByPath path = inFlight inputs path) {rows : List NodePath}
    (hr : rows.Nodup) : previewsAt usageByPath rows =
      (((turnsInFlight inputs).filter (· ∈ rows)).map (tokensInFlight inputs)).sum := by
  simp only [previewsAt, hu]
  exact sum_rows_eq (nodup_turnsInFlight inputs) hr (fun path => tokens_zero) (fun path => decide_eq_true_iff)

/-- With each static path naming one step row, all is accounted exactly where every turn has its row. -/
theorem accountedOnce_iff (hu : ∀ path, Dict.get usageByPath path = inFlight inputs path)
    (hr : (stepPaths view.nodes).Nodup) (hs : ∀ path ∈ stepPaths view.nodes, staticKeyOf path = path) :
    AccountedOnce inputs view (withUsagePreviews view usageByPath) ↔
      ∀ path ∈ turnsInFlight inputs, path ∈ stepPaths view.nodes := by
  rw [withUsagePreviews_eq]
  have htotal : view.tokens + previewsAt usageByPath (stepPaths view.nodes) =
      view.tokens + ((turnsInFlight inputs).map (tokensInFlight inputs)).sum ↔
        ∀ path ∈ turnsInFlight inputs, path ∈ stepPaths view.nodes := by
    rw [Nat.add_left_cancel_iff, previewsAt_eq hu hr, sum_filter_eq_iff _ (fun path => tokens_pos)]
    simp only [decide_eq_true_eq]
  constructor
  · intro h
    exact htotal.mp h.total
  · intro h
    refine ⟨htotal.mpr h, credited_congr ?_⟩
    intro paths hsub
    rw [previewsAt_eq hu (hr.sublist hsub), inFlightOf]
    congr 2
    apply List.filter_congr
    intro path hp
    rw [hs path (h path hp)]

theorem staticKeyOf_runsAt {scope path : NodePath} {node : WorkflowNode} {step : StepDefinition}
    (h : RunsAt scope node path step) (hs : staticKeyOf scope = scope) : staticKeyOf path = path := by
  induction h with
  | step => simpa [staticKeyOf, staticPathOf, staticSegmentOf] using hs
  | arm => simpa [staticKeyOf, staticPathOf, staticSegmentOf] using hs
  | inside hc _ _ ih =>
    apply ih
    cases hc <;> simpa [staticKeyOf, staticPathOf, staticSegmentOf] using hs

theorem hasRow_iff {events : List RunEvent} {fold : Fold} (hf : foldEvents events = .ok fold) {path : NodePath} :
    path ∈ stepPaths (projectedNodes (deriveStepStates events) fold false [] workflow.nodes) ↔
      HasRow workflow events path := by
  have hfold : fold = events.foldl Fold.next {} := by
    unfold foldEvents at hf
    split at hf
    · cases hf
    · exact (Except.ok.inj hf).symm
  rw [mem_stepPaths, hfold]
  refine and_congr_right fun _ => ?_
  simp only [Mentioned, mem_seen_foldl]
  simp [Fold.seen]

theorem nodup_rows {events : List RunEvent} {fold : Fold} (hc : Committed workflow) (hf : foldEvents events = .ok fold) :
    (stepPaths (projectedNodes (deriveStepStates events) fold false [] workflow.nodes)).Nodup := by
  apply nodup_stepPaths _ _ _ _ hc.scopesUnique
  intro key
  rw [foldEvents] at hf
  split at hf
  · cases hf
  · rw [← Except.ok.inj hf]
    exact nodup_seen_foldl {} (List.nodup_nil : (Fold.seen {} key).Nodup) events

theorem project_ok {events : List RunEvent} (h : project (buildOutline workflow) events = .ok view) :
    ∃ fold, foldEvents events = .ok fold ∧
      view.nodes = projectedNodes (deriveStepStates events) fold false [] workflow.nodes := by
  obtain ⟨fold, hf, rfl⟩ := of_map_ok h
  exact ⟨fold, hf, projectNodes_outline _ _ _ _ _⟩

theorem accounted_iff_rows (hc : Committed workflow) {shown : ProgressView}
    (h : liveView (buildOutline workflow) (sinkAfter (buildOutline workflow) inputs) = some shown) :
    (∃ view, project (buildOutline workflow) (durable inputs) = .ok view ∧ AccountedOnce inputs view shown) ↔
      ∀ path ∈ turnsInFlight inputs, HasRow workflow (durable inputs) path := by
  obtain ⟨view, usageByPath, hview, rfl, hu⟩ := liveView_eq h
  obtain ⟨fold, hf, hnodes⟩ := project_ok hview
  have hrows : ∀ path, path ∈ stepPaths view.nodes ↔ HasRow workflow (durable inputs) path := by
    intro path
    rw [hnodes]
    exact hasRow_iff hf
  have hiff := accountedOnce_iff hu (hnodes ▸ nodup_rows hc hf) (fun path hp => by
    obtain ⟨⟨node, -, step, hr⟩, -⟩ := (hrows path).mp hp
    exact staticKeyOf_runsAt hr rfl)
  simp only [hrows] at hiff
  rw [← hiff]
  constructor
  · rintro ⟨other, hother, haccounted⟩
    rw [hview] at hother
    cases hother
    exact haccounted
  · intro haccounted
    exact ⟨view, hview, haccounted⟩

/-- Every preview is accounted once exactly where no turn in flight is of a step inside a loop. -/
theorem previews_accounted_iff (hc : Committed workflow) {shown : ProgressView}
    (h : liveView (buildOutline workflow) (sinkAfter (buildOutline workflow) inputs) = some shown) :
    (∃ view, project (buildOutline workflow) (durable inputs) = .ok view ∧ AccountedOnce inputs view shown) ↔
      ∀ path ∈ turnsInFlight inputs,
        staticKeyOf path = path ∧ HasRow workflow (durable inputs) (staticKeyOf path) := by
  rw [accounted_iff_rows hc h]
  refine forall_congr' fun path => imp_congr_right fun _ => ?_
  constructor
  · intro hrow
    obtain ⟨⟨node, -, step, hr⟩, -⟩ := id hrow
    have hstatic := staticKeyOf_runsAt hr rfl
    rw [hstatic]
    exact ⟨rfl, hrow⟩
  · rintro ⟨hstatic, hrow⟩
    rwa [hstatic] at hrow

section Examples

def draftStep : StepDefinition := .agent { name := "draft" }

def draftPath : NodePath := [{ name := "draft" }]

def writing : WorkflowDefinition := { name := "writing", nodes := [.step draftStep] }

def revising : WorkflowDefinition :=
  { name := "revising", nodes := [.loop "until-good" .dountil writing.nodes (fun _ _ => .ok true) 3] }

def revisedPath : NodePath := [{ name := "until-good", index := some (.loop, 1) }, { name := "draft" }]

def drafting (opening : List RunEvent) (path : NodePath) : List SinkInput :=
  (opening ++ [RunEvent.stepStarted path .null]).map .accept ++ [.update (.agentUsagePreview path 100)]

def started : List RunEvent := [.runStarted "run-1" "wf" .null]

def iterating : List RunEvent :=
  started ++ [.nodeStarted [{ name := "until-good" }] .loop,
    .loopIteration [{ name := "until-good", index := some (.loop, 1) }] 1]

theorem committed_writing : Committed writing :=
  .flat (show writing.nodes.flatMap bodiesOf = [] from rfl) rfl

theorem committed_revising : Committed revising :=
  .assembled [writing] (List.forall_mem_singleton.mpr committed_writing)
    (show revising.nodes.flatMap bodiesOf = _ from rfl) rfl

theorem previews_accounted_writing : ∃ shown,
    liveView (buildOutline writing) (sinkAfter (buildOutline writing) (drafting started draftPath)) = some shown ∧
      ∃ view, project (buildOutline writing) (durable (drafting started draftPath)) = .ok view ∧
        AccountedOnce (drafting started draftPath) view shown := by
  refine ⟨_, rfl, (previews_accounted_iff committed_writing rfl).mpr ?_⟩
  intro path hp
  have hturns : turnsInFlight (drafting started draftPath) = [draftPath] := rfl
  rw [hturns, List.mem_singleton] at hp
  subst hp
  refine ⟨rfl, ⟨.step draftStep, List.mem_singleton_self _, draftStep, .step⟩, ?_⟩
  rintro q name i ⟨rest, hrest⟩
  cases q with
  | nil => cases hrest
  | cons head tail => simp [draftPath, staticKeyOf, staticPathOf] at hrest

/-- The tokens of a turn inside a loop are shown nowhere until it ends. -/
theorem loop_preview_unaccounted : Committed revising ∧ ∃ shown,
    liveView (buildOutline revising) (sinkAfter (buildOutline revising) (drafting iterating revisedPath)) = some shown ∧
      ¬ ∃ view, project (buildOutline revising) (durable (drafting iterating revisedPath)) = .ok view ∧
        AccountedOnce (drafting iterating revisedPath) view shown := by
  refine ⟨committed_revising, _, rfl, ?_⟩
  rw [accounted_iff_rows committed_revising rfl]
  intro h
  obtain ⟨⟨node, -, step, hr⟩, -⟩ := h revisedPath (mem_turnsInFlight.mpr rfl)
  exact absurd (staticKeyOf_runsAt hr rfl) (by decide)

end Examples

end KimchiWorkflows.Host.ProgressSink
