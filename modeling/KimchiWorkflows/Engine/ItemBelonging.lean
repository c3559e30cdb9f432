import KimchiWorkflows.Engine.Executions
import KimchiWorkflows.Engine.ItemPlacement
import KimchiWorkflows.Engine.ItemProvenance
import KimchiWorkflows.Engine.PlainAsks
import KimchiWorkflows.Engine.StatusAgreement

/-!
What a foreach recovers instead of running: outputs of its body on the items of the attempt that recorded them.
-/

namespace KimchiWorkflows.Engine

open KimchiWorkflows.Flow Process Process.Proc Scheduling

variable {root : List WorkflowNode} {own : Trace → Action → Prop} {env : RunEnv} {parentPath : NodePath}
  {frames : List ScopeFrame} {name : String} {input : Value} {reentry : Option Reentry}

section Foreach

variable {each : ForeachDefinition} {nodes : List WorkflowNode} {items : List Value} {history : ItemHistory}
  {index : Nat} {before t : Trace} {code : Code}

/-- A checkpoint that this part of a foreach makes itself follows a run of the body, in the trace that led here. -/
def AccountsItems (root : List WorkflowNode) (env : RunEnv) (each : ForeachDefinition) (nodes : List WorkflowNode)
    (parentPath : NodePath) (frames : List ScopeFrame) (items : List Value) (before : Trace) (code : Code) : Prop :=
  Accounts root (fun u => BodyRan env each nodes parentPath frames items (before ++ u)) code

theorem accountsItems_after (h : AccountsItems root env each nodes parentPath frames items (before ++ t) code) :
    Accounts root (fun u => BodyRan env each nodes parentPath frames items (before ++ (t ++ u))) code := by
  simpa only [AccountsItems, List.append_assoc] using h

variable (hn : ∀ node ∈ walked env nodes, AccountsIn root node.2)

include hn

theorem accounts_runItem {next : ExecOutcome → Code} (hin : each.feedback = false → input = items.getD index .undefined)
    (h : ∀ before outcome, AccountsItems root env each nodes parentPath frames items before (next outcome)) :
    AccountsItems root env each nodes parentPath frames items before
      (runItem each (walked env nodes) parentPath frames items index input reentry next) := by
  refine accounts_opening rfl (accounts_andThen (accounts_runNodeSequence hn) ?_)
  intro t outcome ht
  refine accountsItems_after ?_
  cases outcome with
  | ok output =>
    -- the body has just run, and what it recorded is behind the checkpoint
    refine supplies_act (fun _ => ⟨rfl, input, reentry, t, hin, ht, ?_⟩) (h _ _)
    exact (List.sublist_append_right before t).trans (List.sublist_append_left _ _)
  | _ => exact h _ _

theorem accounts_runItemsFrom {remaining : Nat} {results : List Value} {fed : Value} :
    AccountsItems root env each nodes parentPath frames items before
      (runItemsFrom each (walked env nodes) parentPath frames items remaining index results fed reentry) := by
  induction remaining generalizing before index results fed reentry with
  | zero => exact accounts_emit rfl (accounts_conclude _)
  | succ remaining ih =>
    refine accounts_look ?_
    intro memory
    split
    · exact accounts_conclude _
    · refine accounts_runItem hn ?_ ?_
      · intro hf
        rw [hf]
        rfl
      · intro before outcome
        cases outcome with
        | ok output => exact ih
        | _ => exact accounts_conclude _

theorem accounts_runForeachSequential :
    AccountsItems root env each nodes parentPath frames items before
      (runForeachSequential each (walked env nodes) parentPath frames items input history reentry) := by
  cases reentry with
  | none => exact accounts_runItemsFrom hn
  | some active =>
    simp only [runForeachSequential]
    split
    · exact accounts_raise _
    · exact accounts_runItemsFrom hn

theorem accounts_runForeachConcurrentFresh :
    AccountsItems root env each nodes parentPath frames items before
      (runForeachConcurrentFresh each (walked env nodes) parentPath frames items history) := by
  unfold runForeachConcurrentFresh
  refine accounts_pool ?_ (fun results => accounts_emit rfl (accounts_conclude _))
  intro task ht
  obtain ⟨index, -, rfl⟩ := List.mem_map.mp ht
  exact accounts_runItem hn (fun _ => rfl) (fun before outcome => accounts_conclude outcome)

theorem accounts_runForeachConcurrentReentry {active : Reentry} :
    AccountsItems root env each nodes parentPath frames items before
      (runForeachConcurrentReentry each (walked env nodes) parentPath frames items env history active) := by
  have hextra : ∀ (finish : List (Nat × ExecOutcome) → Code),
      (∀ before settled, AccountsItems root env each nodes parentPath frames items before (finish settled)) →
      ∀ toRun before settled, AccountsItems root env each nodes parentPath frames items before
        (runExtraItems each (walked env nodes) parentPath frames items finish toRun settled) := by
    intro finish hf toRun
    induction toRun with
    | nil => exact hf
    | cons index rest ih =>
      intro before settled
      refine accounts_look ?_
      intro memory
      split
      · exact hf _ _
      · exact accounts_runItem hn (fun _ => rfl) (fun before outcome => ih _ _)
  unfold runForeachConcurrentReentry
  split
  · exact accounts_raise _
  · refine accounts_runItem hn (fun _ => rfl) ?_
    intro before outcome
    refine hextra _ ?_ _ _ _
    exact fun before settled => accounts_settleConcurrent (accounts_emit rfl (accounts_conclude _))

end Foreach

theorem ok_of_invokeCallback {α : Type} {label : String} {result : Except String α} {value : α}
    (h : invokeCallback label result = .ok value) : result = .ok value := by
  cases result with
  | ok other => exact h
  | error error => cases h

theorem accountsIn_runForeachNode {each : ForeachDefinition} {nodes : List WorkflowNode}
    (hocc : OccursIn (.foreach each.name nodes each.selector each.concurrency each.feedback) root)
    (hn : ∀ node ∈ walked env nodes, AccountsIn root node.2) :
    AccountsIn root (runForeachNode env each (walked env nodes)) := by
  intro own input parentPath frames reentry
  -- what the foreach answers for itself, by the memory it has seen
  refine supplies_opened (T := fun seen u action => ∃ items,
    each.selector (createRunContext env seen parentPath frames (foreachPath each parentPath)) = .ok (.array items) ∧
      BodyRan env each nodes parentPath frames items u action) ?_ ?_
  · intro memory
    dsimp only
    split
    · exact accounts_conclude _
    · rename_i items hitems
      have hsel := ok_of_invokeCallback hitems
      have hitemsRun : ∀ {code : Code}, AccountsItems root env each nodes parentPath frames items [] code →
          Accounts root (fun u action => ∃ items, each.selector (createRunContext env memory parentPath frames
            (foreachPath each parentPath)) = .ok (.array items) ∧
              BodyRan env each nodes parentPath frames items u action) code :=
        fun h => h.mono (fun u action hran => ⟨items, hsel, hran⟩)
      refine accounts_opening rfl ?_
      split
      · exact hitemsRun (accounts_runForeachSequential hn)
      · split
        · exact hitemsRun (accounts_runForeachConcurrentReentry hn)
        · exact hitemsRun (accounts_runForeachConcurrentFresh hn)
    · exact accounts_conclude _
  · rintro seen t u action hsub ⟨items, hsel, hran⟩
    cases action with
    | emit event =>
      cases event with
      | foreachItemCompleted path index output =>
        exact .inr ⟨_, env, each, nodes, input, parentPath, frames, reentry, seen, t, items, hocc, rfl, rfl, hsel, rfl,
          hran.widen hsub⟩
      | _ => exact hran
    | _ => exact hran

theorem accountsIn_runParallelNode {arms : List StepDefinition} : AccountsIn root (runParallelNode env name arms) := by
  intro own input parentPath frames reentry
  cases reentry with
  | none =>
    refine accounts_emit rfl (accounts_pool ?_ (fun results => accounts_emit rfl (accounts_conclude _)))
    intro task ht
    obtain ⟨arm, -, rfl⟩ := List.mem_map.mp ht
    exact accounts_runStepNode arm
  | some active =>
    have hreenter : ∀ (arms : List StepDefinition) (targetName : String) own (gathered : Gathered),
        Accounts root own (reenterArms env input (appendSegment parentPath name)
          (frames ++ [parallelFrame name input]) active.descend targetName
          (settleReentry name targetName (appendSegment parentPath name)) arms gathered) := by
      intro arms targetName
      induction arms with
      | nil =>
        intro own gathered
        simp only [reenterArms, settleReentry]
        split
        · exact accounts_raise _
        · exact accounts_settleConcurrent (accounts_emit rfl (accounts_conclude _))
      | cons arm rest ih =>
        intro own gathered
        simp only [reenterArms]
        split
        · exact accounts_andThen (accounts_runStepNode arm) (fun _ _ _ => ih _ _)
        · refine accounts_look ?_
          intro memory
          split
          · exact ih _ _
          · split
            · exact ih _ _
            · split
              · exact ih _ _
              · exact accounts_andThen (accounts_runStepNode arm) (fun _ _ _ => ih _ _)
    simp only [runParallelNode, runParallelReentry]
    split
    · exact accounts_raise _
    · exact hreenter _ _ _ _

theorem occursIn_body {node inner : WorkflowNode} {body : List WorkflowNode} (h : OccursIn node root)
    (hb : body ∈ bodiesOf node) (hm : inner ∈ body) : OccursIn inner root := by
  induction h with
  | here hn => exact .within hn hb (.here hm)
  | within hn hb' _ ih => exact .within hn hb' ih

mutual

theorem accountsIn_runNode (env : RunEnv) (node : WorkflowNode) (h : OccursIn node root) :
    AccountsIn root (runNode env node) := by
  cases node with
  | step step => exact fun _ _ _ _ _ => accounts_runStepNode step
  | branch name arms =>
    exact accountsIn_runBranchNode (accountsIn_walkedArms env arms
      (fun arm ha inner hm => occursIn_body h (List.mem_map_of_mem ha) hm))
  | loop name mode body condition maxIterations =>
    exact accountsIn_runLoopNode (accountsIn_walked env body
      (fun inner hm => occursIn_body h (List.mem_singleton_self body) hm))
  | foreach name body selector concurrency feedback =>
    have hbody := accountsIn_walked env body (fun inner hm => occursIn_body h (List.mem_singleton_self body) hm)
    have hrun := @accountsIn_runForeachNode root env ⟨name, selector, concurrency, feedback⟩ body h hbody
    exact hrun
  | parallel name arms => exact accountsIn_runParallelNode
  | workflow name nodes =>
    exact accountsIn_runNestedWorkflowNode (accountsIn_walked env nodes
      (fun inner hm => occursIn_body h (List.mem_singleton_self nodes) hm))

theorem accountsIn_walked (env : RunEnv) (nodes : List WorkflowNode) (h : ∀ node ∈ nodes, OccursIn node root) :
    ∀ node ∈ walked env nodes, AccountsIn root node.2 := by
  cases nodes with
  | nil => simp [walked]
  | cons node rest =>
    intro other ho
    rcases List.mem_cons.mp ho with rfl | ho
    · exact accountsIn_runNode env node (h node List.mem_cons_self)
    · exact accountsIn_walked env rest (fun inner hm => h inner (List.mem_cons_of_mem _ hm)) other ho

theorem accountsIn_walkedArms (env : RunEnv) (arms : List BranchArm)
    (h : ∀ arm ∈ arms, ∀ node ∈ arm.body, OccursIn node root) :
    ∀ arm ∈ walkedArms env arms, ∀ node ∈ arm.2, AccountsIn root node.2 := by
  match arms with
  | [] => simp [walkedArms]
  | .mk name condition body :: rest =>
    intro arm ha
    rcases List.mem_cons.mp ha with rfl | ha
    · exact accountsIn_walked env body (h _ List.mem_cons_self)
    · exact accountsIn_walkedArms env rest (fun other ho => h other (List.mem_cons_of_mem _ ho)) arm ha

end

section Runs

variable {workflow : WorkflowDefinition} {log : List RunEvent} {call : EngineCall} {launched : Launched}

theorem accounts_launched (hl : launch workflow log call = .ok launched) :
    Accounts workflow.nodes (fun _ _ => False) launched.code := by
  obtain ⟨error, path, hcode⟩ | ⟨opening, cursor, rfl, ho, -⟩ := launch_cases hl
  · rw [hcode]
    exact accounts_emit rfl (accounts_conclude _)
  · have hopening : opening.isItemCompleted = false :=
      forall_opening (P := fun event => event.isItemCompleted = false) ho (fun _ _ _ => rfl) (fun _ => rfl)
        (fun _ _ => rfl) (fun _ _ => rfl)
    refine accounts_emit hopening (accounts_andThen (accounts_runNodeSequence ?_) ?_)
    · exact accountsIn_walked _ _ (fun node hm => .here hm)
    · intro t outcome _
      cases outcome with
      | blocked block => exact accounts_conclude _
      | _ => exact accounts_emit rfl (accounts_conclude _)

/-- An attempt of the run: a call on the log so far, and what it has recorded by now or until it was cut off. -/
structure Attempt (workflow : WorkflowDefinition) (log : List RunEvent) where
  earlier : List RunEvent
  call : EngineCall
  launched : Launched
  trace : Trace
  code : Code
  memory : RunMemory
  produced : Produced workflow earlier
  launches : launch workflow earlier call = .ok launched
  runs : Run launched.code trace code
  replays : Replay (engineWorld workflow) (launched.memory earlier) trace memory
  held : memory.log <+: log

/-- An attempt of the run has made the checkpoint, in a run of a foreach whose selector yielded it the item. -/
def RecordedOf (workflow : WorkflowDefinition) (log : List RunEvent) (path : NodePath) (index : Nat)
    (item output : Value) : Prop :=
  ∃ (attempt : Attempt workflow log) (code : Code) (u : Trace), Part attempt.launched.code attempt.trace code u ∧
    .did (.emit (.foreachItemCompleted path index output)) ∈ u ∧ RanItem workflow.nodes code u path index item output

theorem RecordedOf.later {path : NodePath} {index : Nat} {item output : Value} {log' : List RunEvent}
    (h : RecordedOf workflow log path index item output) (hl : log <+: log') :
    RecordedOf workflow log' path index item output := by
  obtain ⟨attempt, code, u, hpart, hm, hran⟩ := h
  exact ⟨{ attempt with held := attempt.held.trans hl }, code, u, hpart, hm, hran⟩

theorem RecordedOf.ran {path : NodePath} {index : Nat} {item output : Value}
    (h : RecordedOf workflow log path index item output) :
    ∃ (env : RunEnv) (each : ForeachDefinition) (nodes : List WorkflowNode) (parentPath : NodePath)
      (frames : List ScopeFrame) (input : Value) (reentry : Option Reentry) (effects : List Effect),
      OccursIn (.foreach each.name nodes each.selector each.concurrency each.feedback) workflow.nodes ∧
      path = appendForeachItem parentPath each.name index ∧ (each.feedback = false → input = item) ∧
      Emits (runNodeSequence (walked env nodes) input path frames 0 reentry) effects (.ok output) ∧
      ∀ event ∈ recordedEvents effects, event ∈ log := by
  obtain ⟨attempt, code, u, hpart, -, env, each, nodes, -, parentPath, frames, -, seen, rest, items, hocc, -, rfl, -, rfl,
    hpath, input, reentry, v, hin, hv, hsub⟩ := h
  refine ⟨env, each, nodes, parentPath, _, input, reentry, effectsOf v, hocc, hpath, hin, ⟨v, hv, rfl⟩, ?_⟩
  intro event hm
  have hall : v.Sublist attempt.trace := (hsub.trans (List.sublist_cons_self _ _)).trans hpart.sublist
  refine attempt.held.subset ?_
  rw [log_replay attempt.replays]
  exact List.mem_append_right _ ((recorded_sublist hall).subset hm)

/-- In every log the engine can produce, the checkpoint of an item is one of an attempt that ran its body. -/
theorem Produced.recordedOf (h : Produced workflow log) {path : NodePath} {index : Nat} {output : Value}
    (hm : RunEvent.foreachItemCompleted path index output ∈ log) :
    EndsPlain path ∨ ∃ item, RecordedOf workflow log path index item output := by
  induction h with
  | start => cases hm
  | @host log event hp hhost ih =>
    obtain hm | hm := List.mem_append.mp hm
    · refine (ih hm).imp_right ?_
      rintro ⟨item, hrec⟩
      exact ⟨item, hrec.later (List.prefix_append _ _)⟩
    · rw [← List.mem_singleton.mp hm] at hhost
      cases hhost
  | @call log call launched t code memory hp hl hrun hreplay ih =>
    have hlog : memory.log = log ++ recordedEvents (effectsOf t) := log_replay hreplay
    have hnow := hm
    rw [hlog] at hm
    obtain hm | hm := List.mem_append.mp hm
    · refine (ih hm).imp_right ?_
      rintro ⟨item, hrec⟩
      exact ⟨item, hrec.later (hlog ▸ List.prefix_append _ _)⟩
    · obtain ⟨u, -, hnone⟩ | ⟨part, u, hpart, hin, hplain | ⟨item, hran⟩⟩ :=
        accounts_launched hl t code hrun _ (mem_effectsOf hm) trivial
      · exact absurd hnone id
      · exact .inl hplain
      · refine .inr ⟨item, ⟨log, call, launched, t, code, memory, hp, hl, hrun, hreplay, ?_⟩, part, u, hpart, hin, hran⟩
        exact List.prefix_refl _

end Runs

def recordItemOf (history : ForeachItemHistory) : RunEvent → ForeachItemHistory
  | .foreachItemCompleted path index output => recordItem history path index output
  | _ => history

theorem recorded_of_recordItemOf {history : ForeachItemHistory} {event : RunEvent} {parentPath : NodePath}
    {name : String} {index : Nat} {output : Value}
    (h : Dict.get ((Dict.get (recordItemOf history event) (appendSegment parentPath name)).getD []) index =
      some output) :
    (∃ place, event = .foreachItemCompleted (parentPath ++ [{ name := name, index := some place }]) index output) ∨
      Dict.get ((Dict.get history (appendSegment parentPath name)).getD []) index = some output := by
  cases event with
  | foreachItemCompleted path at' value =>
    dsimp only [recordItemOf, recordItem] at h
    split at h
    · rename_i segmentName place hlast
      rw [Dict.get_set] at h
      split_ifs at h with hkey
      · rw [Option.getD_some, Dict.get_set] at h
        have hsplit := List.append_inj' hkey rfl
        split_ifs at h with hindex
        · refine .inl ⟨place, ?_⟩
          have hpath : path = parentPath ++ [{ name := name, index := some place }] := by
            obtain ⟨init, rfl⟩ := List.getLast?_eq_some_iff.mp hlast
            rw [List.dropLast_concat] at hsplit
            have hname : name = segmentName := by simpa using hsplit.2
            rw [hname, hsplit.1]
          rw [hpath, hindex, Option.some.inj h]
        · right
          rwa [hkey]
      · exact .inr h
    · exact .inr h
  | _ => exact .inr h

theorem recorded_of_history {log : List RunEvent} {parentPath : NodePath} {name : String} {index : Nat} {output : Value}
    (h : Dict.get ((Dict.get (buildForeachItemHistory log) (appendSegment parentPath name)).getD []) index = some output) :
    ∃ place, RunEvent.foreachItemCompleted (parentPath ++ [{ name := name, index := some place }]) index output ∈ log := by
  have hfold : ∀ history : ForeachItemHistory,
      Dict.get ((Dict.get (log.foldl recordItemOf history) (appendSegment parentPath name)).getD []) index =
        some output →
      (∃ place, RunEvent.foreachItemCompleted (parentPath ++ [{ name := name, index := some place }]) index output ∈ log) ∨
        Dict.get ((Dict.get history (appendSegment parentPath name)).getD []) index = some output := by
    clear h
    induction log with
    | nil => exact fun history h => .inr h
    | cons event rest ih =>
      intro history h
      obtain ⟨place, hm⟩ | hbefore := ih _ h
      · exact .inl ⟨place, List.mem_cons_of_mem _ hm⟩
      · refine (recorded_of_recordItemOf hbefore).imp_left ?_
        rintro ⟨place, rfl⟩
        exact ⟨place, List.mem_cons_self⟩
  obtain hfound | hnone := hfold [] h
  · exact hfound
  · cases hnone

theorem recovered_recordedOf {workflow : WorkflowDefinition} {log : List RunEvent} (hp : Produced workflow log)
    {name : String} {index : Nat} {output : Value}
    (h : Dict.get ((Dict.get (buildForeachItemHistory log) (appendSegment parentPath name)).getD []) index = some output) :
    ∃ item, RecordedOf workflow log (appendForeachItem parentPath name index) index item output := by
  obtain ⟨place, hm⟩ := recorded_of_history h
  obtain ⟨parent, other, hplain⟩ | ⟨item, hrec⟩ := hp.recordedOf hm
  · have hlast := (List.append_inj' hplain rfl).2
    cases hlast
  · obtain ⟨-, other, -, parent, -, -, -, -, -, hpath, -⟩ := hrec.ran
    have hlast := List.cons.inj (List.append_inj' hpath rfl).2
    have hplace : place = (.foreach, index) := by
      simp only [PathSegment.mk.injEq, Option.some.injEq] at hlast
      exact hlast.1.2
    rw [hplace] at hrec
    exact ⟨item, hrec⟩

/-- Where the record holds an output for an item, its selector yields the item it yielded in the attempt that
recorded the output. -/
def YieldsAsRecorded (workflow : WorkflowDefinition) (log : List RunEvent) (parentPath : NodePath) (name : String)
    (items : List Value) : Prop :=
  ∀ index item output, RecordedOf workflow log (appendForeachItem parentPath name index) index item output →
    items.getD index .undefined = item

/-- Of the output of a foreach over a log of the run, each element is checkpointed in this run of it; or nothing is
on record and it is nothing; or it is on record from an attempt that ran the body on the item it found at the index:
the item the selector yields there now, where the selector yields what it yielded then. -/
theorem placed_recordedOf {workflow : WorkflowDefinition} {log : List RunEvent} (hp : Produced workflow log)
    (henv : env.foreachItemHistory = buildForeachItemHistory log) {each : ForeachDefinition} {body : List Walked}
    {t : Trace} {output : Value}
    (h : Traces (runForeachNode env each body input parentPath frames reentry) t (.ok (.ok output))) :
    ∃ seen rest items results, t = .saw seen :: rest ∧
      each.selector (createRunContext env seen parentPath frames (foreachPath each parentPath)) = .ok (.array items) ∧
      output = .array results ∧ (YieldsAsRecorded workflow log parentPath each.name items →
        ∀ index value, results[index]? = some value →
          itemDone parentPath each.name index value ∈ recordedEvents (effectsOf t) ∨
          (value = .undefined ∧
            Dict.get ((Dict.get (buildForeachItemHistory log) (foreachPath each parentPath)).getD []) index = none) ∨
          RecordedOf workflow log (appendForeachItem parentPath each.name index) index
            (items.getD index .undefined) value) := by
  obtain ⟨results, ho, hplaced⟩ := placed_runForeachNode ⟨t, h, rfl⟩
  obtain ⟨seen, rest, rfl, hrest⟩ := traces_look h
  obtain ⟨items, hsel⟩ : ∃ items, each.selector (createRunContext env seen parentPath frames
      (foreachPath each parentPath)) = .ok (.array items) := by
    dsimp only at hrest
    split at hrest
    · have he := (traces_done hrest).2
      cases he
    · rename_i items hitems
      exact ⟨items, ok_of_invokeCallback hitems⟩
    · have he := (traces_done hrest).2
      cases he
  refine ⟨seen, rest, items, results, rfl, hsel, ho, ?_⟩
  intro hyields index value hv
  rw [henv] at hplaced
  obtain hdone | hheld := hplaced index value hv
  · exact .inl hdone
  · right
    rw [itemOutput] at hheld
    cases hg : Dict.get ((Dict.get (buildForeachItemHistory log) (foreachPath each parentPath)).getD []) index with
    | none =>
      rw [hg] at hheld
      exact .inl ⟨hheld, rfl⟩
    | some found =>
      rw [hg] at hheld
      obtain rfl : value = found := hheld
      obtain ⟨item, hrec⟩ := recovered_recordedOf hp hg
      rw [hyields index item value hrec]
      exact .inr hrec

section Sample

def workStep : StepDefinition := .function { name := "work", inputSchema := some anySchema }

def eachItem : ForeachDefinition := ⟨"each", fun ctx => ctx.getStepResult "list", 1, false⟩

def workBody : WorkflowDefinition := { name := "item", nodes := [.step workStep] }

def batch : WorkflowDefinition :=
  { name := "batch"
    nodes := [.step (.function { name := "list" }), .foreach "each" workBody.nodes (fun ctx => ctx.getStepResult "list") 1 false] }

def intake : WorkflowDefinition := { name := "intake", nodes := [.workflow "outer" batch.nodes] }

def outerPath : NodePath := [{ name := "outer" }]

def itemAt (index : Nat) : NodePath := outerPath ++ [{ name := "each", index := some (.foreach, index) }]

def listed (items : Value) : List RunEvent :=
  [.nodeStarted outerPath .workflow, .stepStarted (outerPath ++ [{ name := "list" }]) .undefined,
    .stepCompleted (outerPath ++ [{ name := "list" }]) items, .foreachStarted (outerPath ++ [{ name := "each" }]) 2]

def workStarted (index : Nat) (item : Value) : List RunEvent :=
  [.foreachItemStarted (itemAt index) index, .stepStarted (itemAt index ++ [{ name := "work" }]) item]

def workDone (index : Nat) (output : Value) : List RunEvent :=
  [.stepCompleted (itemAt index ++ [{ name := "work" }]) output, .foreachItemCompleted (itemAt index) index output]

def intakeCrashed : List RunEvent :=
  [.runStarted "run-1" "intake" .null] ++ listed (.array [.string "a", .string "b"]) ++
    workStarted 0 (.string "a") ++ workDone 0 (.string "A") ++ workStarted 1 (.string "b") ++
    [.runCrashed (some (itemAt 1 ++ [{ name := "work" }])) "down"]

def intakeOutput : Value := .array [.string "A", .string "D"]

def intakeResumed : List RunEvent :=
  intakeCrashed ++ [.runResumed (some outerPath)] ++ listed (.array [.string "c", .string "d"]) ++
    workStarted 1 (.string "d") ++ workDone 1 (.string "D") ++
    [.nodeCompleted (outerPath ++ [{ name := "each" }]) intakeOutput, .nodeCompleted outerPath intakeOutput,
      .runCompleted intakeOutput]

theorem intake_runs : Returns intake (.run "run-1" .null) [] intakeCrashed
    (.crashed "down" (some (itemAt 1 ++ [{ name := "work" }]))) ∧
    Returns intake .resume intakeCrashed intakeResumed (.ok intakeOutput) :=
  ⟨returns_of_attempt [{ outcome := .ok (.array [.string "a", .string "b"]) }, { outcome := .ok (.string "A") },
      { outcome := .crashed "down" }] 100 rfl,
    returns_of_attempt [{ outcome := .ok (.array [.string "c", .string "d"]) }, { outcome := .ok (.string "D") }] 100 rfl⟩

theorem committed_intake : Committed intake := by
  have hwork : Committed workBody := .flat (show workBody.nodes.flatMap bodiesOf = [] from rfl) rfl
  have hbatch : Committed batch :=
    .assembled [workBody] (List.forall_mem_singleton.mpr hwork) (show batch.nodes.flatMap bodiesOf = _ from rfl) rfl
  exact .assembled [batch] (List.forall_mem_singleton.mpr hbatch) (show intake.nodes.flatMap bodiesOf = _ from rfl) rfl

theorem started_of_workBody {path : NodePath} {effects : List Effect} {output : Value}
    (h : Emits (runNodeSequence (walked env workBody.nodes) input path frames 0 reentry) effects (.ok output)) :
    RunEvent.stepStarted (appendSegment path "work") input ∈ recordedEvents effects := by
  have hwalk : Emits (walkNodes path frames (walked env workBody.nodes) input reentry) effects (.ok output) := by
    cases reentry with
    | none => exact h
    | some active =>
      simp only [runNodeSequence] at h
      split at h
      · exact absurd h (fun h => emits_raise h)
      · split at h
        · have ho := (emits_conclude h).2
          cases ho
        · rename_i index hindex
          obtain ⟨memory, hm⟩ := emits_look h
          have hlt := (List.findIdx?_eq_some_iff_getElem.mp hindex).1
          obtain rfl : index = 0 := Nat.lt_one_iff.mp hlt
          exact hm
  obtain ⟨-, ho⟩ | ⟨-, ho⟩ | ⟨first, last, result, rfl, hstep, -⟩ := emits_walkNodes_cons hwalk
  · cases ho
  · cases ho
  · have hbody := emits_silent rfl (emits_silent rfl (emits_silent rfl hstep))
    obtain ⟨inside, after, settled, rfl, ⟨t, ht, rfl⟩, hafter⟩ := emits_bind hbody
    have hend := emits_silent rfl (emits_silent rfl hafter)
    cases settled with
    | error error => exact absurd hend (fun h => emits_raise h)
    | ok outcome =>
      have hsame := (emits_conclude hend).2
      have hrun : Emits (runStepBody env workStep input path frames (appendSegment path "work")
          (reentry.bind Reentry.answer) (reentry.bind Reentry.interaction)) (effectsOf t) (.ok result) :=
        ⟨t, by rw [hsame]; exact ht, rfl⟩
      have hfresh : Emits (runStepFresh env workStep input path frames (appendSegment path "work")) (effectsOf t)
          (.ok result) := by
        cases hi : reentry.bind Reentry.interaction with
        | none =>
          rw [hi] at hrun
          cases ha : reentry.bind Reentry.answer <;> rw [ha] at hrun <;> exact hrun
        | some resume =>
          rw [hi] at hrun
          have hdrift : (effectsOf t = [] ∧ ∃ error, ExecOutcome.ok result = .crashed error (some (appendSegment path "work"))) := by
            cases ha : reentry.bind Reentry.answer <;> rw [ha] at hrun <;>
              exact ⟨(emits_conclude hrun).1, _, (emits_conclude hrun).2⟩
          obtain ⟨-, error, ho⟩ := hdrift
          cases ho
      obtain ⟨rest, hrest, -⟩ := emits_emit hfresh
      rw [hrest, List.append_assoc, List.cons_append]
      show RunEvent.stepStarted (appendSegment path "work") input ∈ RunEvent.stepStarted (appendSegment path "work") input :: _
      exact List.mem_cons_self

def intakeEnv : RunEnv := envOf intake (resumeCursor intake intakeCrashed "run-1" .null)

def listedMemory (items : Value) : RunMemory :=
  { stepOutputs := [(outerPath ++ [{ name := "list" }], items)] }

theorem body_of_intake {each : ForeachDefinition} {nodes : List WorkflowNode}
    (h : OccursIn (.foreach each.name nodes each.selector each.concurrency each.feedback) intake.nodes) :
    nodes = workBody.nodes ∧ each.feedback = false := by
  cases h with
  | here hm => cases List.mem_singleton.mp hm
  | within hm hb hocc =>
    obtain rfl := List.mem_singleton.mp hm
    obtain rfl := List.mem_singleton.mp hb
    cases hocc with
    | here hm =>
      rcases List.mem_cons.mp hm with hm | hm
      · cases hm
      · have hsame := List.mem_singleton.mp hm
        rw [WorkflowNode.foreach.injEq] at hsame
        exact ⟨hsame.2.1, hsame.2.2.2.2⟩
    | within hm hb hocc =>
      rcases List.mem_cons.mp hm with rfl | hm
      · cases hb
      · obtain rfl := List.mem_singleton.mp hm
        obtain rfl := List.mem_singleton.mp hb
        cases hocc with
        | here hm => cases List.mem_singleton.mp hm
        | within hm hb _ =>
          obtain rfl := List.mem_singleton.mp hm
          cases hb

/-- The step of the body records the item it is run on. -/
theorem started_of_recordedOf {log : List RunEvent} {path : NodePath} {index : Nat} {item output : Value}
    (h : RecordedOf intake log path index item output) :
    RunEvent.stepStarted (appendSegment path "work") item ∈ log := by
  obtain ⟨env, each, nodes, parentPath, frames, input, reentry, effects, hocc, -, hin, hemits, hlog⟩ := h.ran
  obtain ⟨rfl, hfeedback⟩ := body_of_intake hocc
  obtain rfl := hin hfeedback
  exact hlog _ (started_of_workBody hemits)

theorem yieldsAsRecorded_intake :
    YieldsAsRecorded intake intakeCrashed outerPath "each" [.string "a", .string "b"] := by
  intro index item output hrec
  have hstarted := started_of_recordedOf hrec
  have hcases : (index = 0 ∧ item = .string "a") ∨ (index = 1 ∧ item = .string "b") := by
    simpa [intakeCrashed, listed, workStarted, workDone, itemAt, outerPath, appendSegment, appendForeachItem]
      using hstarted
  rcases hcases with ⟨rfl, rfl⟩ | ⟨rfl, rfl⟩ <;> rfl

/-- A resumed foreach whose selector yields the same array takes over what the run before the crash made of the
same item. -/
theorem recordedOf_intake : RecordedOf intake intakeCrashed (itemAt 0) 0 (.string "a") (.string "A") := by
  have hdrive : drive (engineWorld intake) 100
      (runForeachNode intakeEnv eachItem (walked intakeEnv workBody.nodes) .undefined outerPath [] none)
      [{ outcome := .ok (.string "B") }] (listedMemory (.array [.string "a", .string "b"])) =
      some (.ok (.ok (.array [.string "A", .string "B"])), [],
        { stepOutputs := (listedMemory (.array [.string "a", .string "b"])).stepOutputs ++
            [(itemAt 1 ++ [{ name := "work" }], .string "B")]
          log := [.foreachStarted (outerPath ++ [{ name := "each" }]) 2] ++ workStarted 1 (.string "b") ++
            workDone 1 (.string "B") ++
            [.nodeCompleted (outerPath ++ [{ name := "each" }]) (.array [.string "A", .string "B"])] }) := rfl
  obtain ⟨t, ht⟩ := drive_sound hdrive
  obtain ⟨later, u, hlater, ho, hf, -⟩ := executes_look ht
  obtain ⟨seen, rest, items, results, hseen, hsel, hout, hplaced⟩ :=
    placed_recordedOf (Produced.start.returns intake_runs.1) rfl ht.1
  obtain rfl : later = seen := by
    rw [hlater] at hseen
    exact (Label.saw.inj (List.cons.inj hseen).1)
  rw [createRunContext_congr ⟨ho, hf⟩] at hsel
  obtain rfl : [.string "a", .string "b"] = items := Value.array.inj (Except.ok.inj hsel)
  obtain rfl : [.string "A", .string "B"] = results := Value.array.inj hout
  obtain hdone | ⟨hnone, -⟩ | hrec := hplaced yieldsAsRecorded_intake 0 (.string "A") rfl
  · have hlog := log_replay ht.2
    rw [show (listedMemory _).log ++ recordedEvents (effectsOf t) = recordedEvents (effectsOf t) from rfl] at hlog
    rw [← hlog] at hdone
    simp [itemDone, workStarted, workDone] at hdone
  · cases hnone
  · exact hrec

/-- The resumed foreach takes over the output of an item its selector no longer yields. -/
theorem intake_keeps_discarded : Committed intake ∧
    Returns intake (.run "run-1" .null) [] intakeCrashed (.crashed "down" (some (itemAt 1 ++ [{ name := "work" }]))) ∧
    Returns intake .resume intakeCrashed intakeResumed (.ok (.array [.string "A", .string "D"])) ∧
    (∀ frames, eachItem.selector (createRunContext intakeEnv (listedMemory (.array [.string "c", .string "d"]))
      outerPath frames (foreachPath eachItem outerPath)) = .ok (.array [.string "c", .string "d"])) ∧
    ¬ RecordedOf intake intakeResumed (itemAt 0) 0 (.string "c") (.string "A") := by
  refine ⟨committed_intake, intake_runs.1, intake_runs.2, fun _ => rfl, ?_⟩
  intro hrec
  have hstarted := started_of_recordedOf hrec
  simp [intakeResumed, intakeCrashed, listed, workStarted, workDone, itemAt, outerPath, appendSegment] at hstarted

end Sample

end KimchiWorkflows.Engine
