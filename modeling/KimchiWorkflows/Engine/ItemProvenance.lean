import KimchiWorkflows.Lib.Provenance
import KimchiWorkflows.Flow.Scopes
import KimchiWorkflows.Engine.FanOutConfinement

/-!
Where the checkpoint of a foreach item comes from: the run of the foreach that has run its body on the item.
-/

namespace KimchiWorkflows.Engine

open KimchiWorkflows.Flow Process Process.Proc

def CompletesItem : Action → Prop
  | .emit (.foreachItemCompleted _ _ _) => True
  | _ => False

/-- The body of the foreach has run on the item of the checkpoint, to the output it records. -/
def BodyRan (env : RunEnv) (each : ForeachDefinition) (nodes : List WorkflowNode) (parentPath : NodePath)
    (frames : List ScopeFrame) (items : List Value) (t : Trace) : Action → Prop
  | .emit (.foreachItemCompleted path index output) => path = appendForeachItem parentPath each.name index ∧
      ∃ (input : Value) (reentry : Option Reentry) (u : Trace),
        (each.feedback = false → input = items.getD index .undefined) ∧
        Traces (runNodeSequence (walked env nodes) input path (frames ++ [foreachFrame each.name index items]) 0
          reentry) u (.ok (.ok output)) ∧ u.Sublist t
  | _ => False

/-- The code is a foreach of the tree, and in its run its body has run on the item its selector yielded at the
index, to the output: what the selector read is what the run saw first. -/
def RanItem (root : List WorkflowNode) (code : Code) (t : Trace) (path : NodePath) (index : Nat)
    (item output : Value) : Prop :=
  ∃ (env : RunEnv) (each : ForeachDefinition) (nodes : List WorkflowNode) (input : Value) (parentPath : NodePath)
    (frames : List ScopeFrame) (reentry : Option Reentry) (seen : RunMemory) (rest : Trace) (items : List Value),
    OccursIn (.foreach each.name nodes each.selector each.concurrency each.feedback) root ∧
    code = runForeachNode env each (walked env nodes) input parentPath frames reentry ∧ t = .saw seen :: rest ∧
    each.selector (createRunContext env seen parentPath frames (foreachPath each parentPath)) = .ok (.array items) ∧
    items.getD index .undefined = item ∧
    BodyRan env each nodes parentPath frames items rest (.emit (.foreachItemCompleted path index output))

/-- A checkpoint of an item is made by a foreach that has run its body on it. -/
def AnswersFor (root : List WorkflowNode) (code : Code) (t : Trace) : Action → Prop
  | .emit (.foreachItemCompleted path index output) =>
    EndsPlain path ∨ ∃ item, RanItem root code t path index item output
  | _ => False

def Accounts (root : List WorkflowNode) (own : Trace → Action → Prop) (code : Code) : Prop :=
  Supplies CompletesItem (AnswersFor root) own code

variable {root : List WorkflowNode} {own : Trace → Action → Prop} {env : RunEnv} {code : Code} {parentPath : NodePath}
  {frames : List ScopeFrame} {name : String} {input : Value} {reentry : Option Reentry} {body : List Walked}

theorem recorded_sublist {t u : Trace} (h : t.Sublist u) :
    (recordedEvents (effectsOf t)).Sublist (recordedEvents (effectsOf u)) :=
  (h.filterMap effectOf).filterMap _

theorem BodyRan.widen {each : ForeachDefinition} {nodes : List WorkflowNode} {items : List Value} {t u : Trace}
    {action : Action} (h : BodyRan env each nodes parentPath frames items t action) (hs : t.Sublist u) :
    BodyRan env each nodes parentPath frames items u action := by
  cases action with
  | emit event =>
    cases event with
    | foreachItemCompleted path index output =>
      obtain ⟨hpath, input, reentry, v, hin, hv, hsub⟩ := h
      exact ⟨hpath, input, reentry, v, hin, hv, hsub.trans hs⟩
    | _ => exact h
  | _ => exact h

def RunEvent.isItemCompleted : RunEvent → Bool
  | .foreachItemCompleted _ _ _ => true
  | _ => false

theorem not_completesItem {event : RunEvent} (h : event.isItemCompleted = false) :
    ¬ CompletesItem (.emit event) := by
  cases event with
  | foreachItemCompleted path index output => cases h
  | _ => exact id

section Rules

theorem accounts_conclude (outcome : ExecOutcome) : Accounts root own (conclude outcome) := supplies_done _

theorem accounts_raise (error : String) : Accounts root own (raise error) := supplies_done _

theorem accounts_act {action : Action} (ha : ¬ CompletesItem action) (h : Accounts root own code) :
    Accounts root own (.act action code) := supplies_act (fun hc => absurd hc ha) h

theorem accounts_emit {event : RunEvent} (he : event.isItemCompleted = false) (h : Accounts root own code) :
    Accounts root own (emit event code) := accounts_act (not_completesItem he) h

theorem accounts_emitAll {events : List RunEvent} (he : ∀ event ∈ events, event.isItemCompleted = false)
    (h : Accounts root own code) : Accounts root own (emitAll events code) := by
  induction events with
  | nil => exact h
  | cons event rest ih =>
    exact accounts_emit (he event List.mem_cons_self) (ih (fun e hm => he e (List.mem_cons_of_mem _ hm)))

theorem accounts_opening {event : RunEvent} {reentered : Bool} (he : event.isItemCompleted = false)
    (h : Accounts root own code) : Accounts root own (emitAll (if reentered then [] else [event]) code) := by
  cases reentered with
  | true => exact h
  | false => exact accounts_emit he h

theorem accounts_look {next : RunMemory → Code} (h : ∀ memory, Accounts root own (next memory)) :
    Accounts root own (.look next) := supplies_look h

theorem accounts_andThen {next : ExecOutcome → Code} (h : Accounts root own code)
    (hn : ∀ t outcome, Traces code t (.ok outcome) → Accounts root (fun u => own (t ++ u)) (next outcome)) :
    Accounts root own (andThen code next) := by
  refine supplies_bind h ?_
  intro t result ht
  cases result with
  | ok outcome => exact hn t outcome ht
  | error error => exact supplies_done _

theorem accounts_ifOk {next : Value → Code} (h : Accounts root own code)
    (hn : ∀ own output, Accounts root own (next output)) : Accounts root own (ifOk code next) := by
  refine accounts_andThen h ?_
  intro t outcome _
  cases outcome with
  | ok output => exact hn _ output
  | _ => exact accounts_conclude _

theorem accounts_settleConcurrent {outcomes : List ExecOutcome} {stillBlocked : List PendingBlock}
    (h : Accounts root own code) : Accounts root own (settleConcurrent outcomes stillBlocked code) := by
  unfold settleConcurrent
  dsimp only
  split
  · exact accounts_conclude _
  · refine accounts_emitAll ?_ (accounts_conclude _)
    intro event he
    obtain ⟨block, -, rfl⟩ := List.mem_map.mp he
    rfl
  · exact accounts_conclude _
  · exact h

theorem accounts_pool {tasks : List Code} {localLimit : Nat} {onOk : List (Option Settlement) → Code}
    (ht : ∀ task ∈ tasks, Accounts root own task) (h : ∀ results, Accounts root own (onOk results)) :
    Accounts root own (runConcurrent tasks localLimit (fun results => settleAll results (onOk results))) := by
  have hjoin : ∀ results, Accounts root own (settleAll results (onOk results)) := by
    intro results
    unfold settleAll
    split
    · exact accounts_raise _
    · exact accounts_settleConcurrent (h results)
  cases tasks with
  | nil => exact hjoin []
  | cons first rest =>
    refine supplies_fork ?_ hjoin
    intro i hi
    have hget : (first :: rest)[i]? = some ((first :: rest).getD i first) := by
      rw [List.getD_eq_getElem?_getD, List.getElem?_eq_getElem hi, Option.getD_some]
    exact ht _ (List.mem_of_getElem? hget)

theorem accounts_runStepNode (step : StepDefinition) :
    Accounts root own (runStepNode env step input parentPath frames reentry) := by
  refine supplies_own ?_
  intro t code hr action ha hc
  have hconfined : Confined (fun path => path = appendSegment parentPath step.name)
      (runStepNode env step input parentPath frames reentry) := confined_runStepNode step input reentry
  have hacts := (only_run hconfined hr).1 action ha
  cases action with
  | emit event =>
    cases event with
    | foreachItemCompleted path index output =>
      obtain ⟨-, other, hs, rfl, -⟩ := hacts
      cases hs
      exact .inl ⟨parentPath, step.name, rfl⟩
    | _ => exact hc
  | _ => exact hc

end Rules

/-- In whichever scope it is run, the code of a node checkpoints only items whose body has run. -/
def AccountsIn (root : List WorkflowNode) (run : NodeRunner) : Prop :=
  ∀ own input parentPath frames reentry, Accounts root own (run input parentPath frames reentry)

theorem accounts_runNodeSequence {startIndex : Nat} (hn : ∀ node ∈ body, AccountsIn root node.2) :
    Accounts root own (runNodeSequence body input parentPath frames startIndex reentry) := by
  have hwalk : ∀ nodes : List Walked, (∀ node ∈ nodes, AccountsIn root node.2) → ∀ own input reentry,
      Accounts root own (walkNodes parentPath frames nodes input reentry) := by
    intro nodes
    induction nodes with
    | nil => exact fun _ _ _ _ => accounts_conclude _
    | cons node rest ih =>
      intro hnodes own input reentry
      refine accounts_look ?_
      intro memory
      split
      · exact accounts_conclude _
      · refine accounts_ifOk (hnodes node List.mem_cons_self own input parentPath frames reentry) ?_
        intro own output
        exact accounts_act id (ih (fun other ho => hnodes other (List.mem_cons_of_mem _ ho)) _ _ _)
  cases reentry with
  | none => exact hwalk _ (fun node hm => hn node (List.mem_of_mem_drop hm)) _ _ _
  | some active =>
    simp only [runNodeSequence]
    split
    · exact accounts_raise _
    · split
      · exact accounts_conclude _
      · exact accounts_look (fun memory => hwalk _ (fun node hm => hn node (List.mem_of_mem_drop hm)) _ _ _)

theorem accountsIn_runLoopNode {loop : LoopDefinition} (hn : ∀ node ∈ body, AccountsIn root node.2) :
    AccountsIn root (runLoopNode env loop body) := by
  intro own input parentPath frames reentry
  have hiterate : ∀ remaining own iteration input reentry,
      Accounts root own (iterate env loop body parentPath frames remaining iteration input reentry) := by
    intro remaining
    induction remaining with
    | zero => exact fun _ _ _ _ => accounts_conclude _
    | succ remaining ih =>
      intro own iteration input reentry
      refine accounts_look ?_
      intro memory
      split
      · exact accounts_conclude _
      · refine accounts_opening rfl (accounts_ifOk (accounts_runNodeSequence hn) ?_)
        intro own output
        refine accounts_look ?_
        intro memory
        split
        · exact accounts_conclude _
        · split
          · exact accounts_emit rfl (accounts_conclude _)
          · exact ih _ _ _ _
  cases reentry with
  | none => exact accounts_emit rfl (hiterate _ _ _ _ _)
  | some active =>
    simp only [runLoopNode]
    split
    · exact accounts_raise _
    · exact accounts_look (fun memory => hiterate _ _ _ _ _)

theorem accountsIn_runNestedWorkflowNode (hn : ∀ node ∈ body, AccountsIn root node.2) :
    AccountsIn root (runNestedWorkflowNode name body) := by
  intro own input parentPath frames reentry
  refine accounts_opening rfl (accounts_ifOk (accounts_runNodeSequence hn) ?_)
  exact fun own output => accounts_emit rfl (accounts_conclude _)

theorem accountsIn_runBranchNode {arms : List WalkedArm} (hn : ∀ arm ∈ arms, ∀ node ∈ arm.2, AccountsIn root node.2) :
    AccountsIn root (runBranchNode env name arms) := by
  intro own input parentPath frames reentry
  have htaken : ∀ decisions : List DecidedArm, (∀ decision ∈ decisions, decision.1 ∈ arms) →
      ∀ own result reentry, Accounts root own (runTakenArms input parentPath frames
        (fun result => emitNodeCompleted (appendSegment parentPath name) (.object result)
          (conclude (.ok (.object result)))) decisions result reentry) := by
    intro decisions
    induction decisions with
    | nil => exact fun _ _ _ _ => accounts_emit rfl (accounts_conclude _)
    | cons decision rest ih =>
      intro hmem own result reentry
      obtain ⟨⟨arm, nodes⟩, taken⟩ := decision
      have hrest := ih (fun other ho => hmem other (List.mem_cons_of_mem _ ho))
      have hrun : ∀ own armReentry, Accounts root own (runArm nodes input parentPath frames arm.name armReentry
          (fun output => runTakenArms input parentPath frames
            (fun result => emitNodeCompleted (appendSegment parentPath name) (.object result)
              (conclude (.ok (.object result)))) rest (assign result arm.name output) none)) := by
        intro own armReentry
        refine accounts_look ?_
        intro memory
        split
        · exact accounts_conclude _
        · refine accounts_ifOk (accounts_runNodeSequence (hn _ (hmem _ List.mem_cons_self))) ?_
          exact fun own output => accounts_emit rfl (hrest _ _ _)
      cases taken with
      | false => exact hrest _ _ _
      | true =>
        simp only [runTakenArms, if_true]
        cases reentry with
        | none => exact hrun _ none
        | some active =>
          dsimp only
          split
          · exact accounts_raise _
          · split
            · exact hrun _ _
            · exact accounts_look (fun memory => hrest _ _ _)
  refine accounts_opening rfl (accounts_look ?_)
  intro memory
  split
  · exact accounts_conclude _
  · rename_i decisions hd
    refine accounts_emitAll ?_ (htaken decisions (mem_of_decideArms hd) _ _ _)
    intro event he
    split at he
    · cases he
    · obtain ⟨decision, -, rfl⟩ := List.mem_map.mp he
      rfl

end KimchiWorkflows.Engine
