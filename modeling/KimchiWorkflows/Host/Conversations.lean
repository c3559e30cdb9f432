import KimchiWorkflows.Engine.OverlapIsolation
import KimchiWorkflows.Host.Naming

namespace KimchiWorkflows.Host

open KimchiWorkflows.Flow KimchiWorkflows.Engine Process Process.Proc Scheduling

def invalidResumeKey (stepName : String) : String :=
  "agent step \"" ++ stepName ++ "\": resumable() returned a value which is not a valid resume key — " ++
    "it becomes a session filename on the host (src/host/pi-agent.ts), so it may not be empty or contain " ++
    "\"/\", \"#\", or \"@\""

def resolveResumeKey (step : AgentStep) (ctx : RunContext) : Except String (Option String) :=
  match step.resumable with
  | .computed key =>
    match key ctx with
    | .error error => .error error
    | .ok (.string name) => if isValidNodeName name then .ok (some name) else .error (invalidResumeKey step.name)
    | .ok _ => .error (invalidResumeKey step.name)
  | .key name => .ok (some name)
  | .on => .ok (some step.name)
  | .off => .ok none

/-- The place of a step in the tree: its key without the items of the foreaches around it. -/
def occurrenceOf (key : NodePath) : List String := key.map PathSegment.name

/-- The step names the conversation, as a string or as the result of its function. -/
def DeclaresKey (agent : AgentStep) (ctx : RunContext) (name : String) : Prop :=
  agent.resumable = .key name ∨
    ∃ key, agent.resumable = .computed key ∧ key ctx = .ok (.string name) ∧ isValidNodeName name = true

variable (hashOf : List Char → Nat → List Char)

/-- The execution of an agent step, at its key and with the context it sees, continues the conversation. -/
def Resumes (workflow : WorkflowDefinition) (key : NodePath) (agent : AgentStep) (ctx : RunContext)
    (file : List Char) : Prop :=
  RunsIn workflow.nodes key (.agent agent) ∧
    ∃ name, resolveResumeKey agent ctx = .ok (some name) ∧ file = resumeSessionFile hashOf workflow.name name

def MeantToShare (key : NodePath) (agent : AgentStep) (ctx : RunContext) (key' : NodePath) (agent' : AgentStep)
    (ctx' : RunContext) : Prop :=
  (agent.resumable = .on ∧ agent'.resumable = .on ∧ occurrenceOf key = occurrenceOf key') ∨
    ∃ name, DeclaresKey agent ctx name ∧ DeclaresKey agent' ctx' name

/-- Executions share a conversation if and only if they are meant to. -/
def IdentifiesConversations (workflow : WorkflowDefinition) : Prop :=
  ∀ key agent ctx file key' agent' ctx' file', Resumes hashOf workflow key agent ctx file →
    Resumes hashOf workflow key' agent' ctx' file' → (file = file' ↔ MeantToShare key agent ctx key' agent' ctx')

structure DistinctFiles (workflow : WorkflowDefinition) : Prop where
  steps : ∀ key agent key' agent', RunsIn workflow.nodes key (.agent agent) →
    RunsIn workflow.nodes key' (.agent agent') → agent.resumable = .on → agent'.resumable = .on →
    occurrenceOf key ≠ occurrenceOf key' → sanitizeNodePath hashOf agent.name ≠ sanitizeNodePath hashOf agent'.name
  declared : ∀ key agent key' agent' ctx name, RunsIn workflow.nodes key (.agent agent) →
    RunsIn workflow.nodes key' (.agent agent') → agent.resumable = .on → DeclaresKey agent' ctx name →
    sanitizeNodePath hashOf agent.name ≠ sanitizeNodePath hashOf name
  keys : ∀ key agent ctx name key' agent' ctx' name', RunsIn workflow.nodes key (.agent agent) →
    RunsIn workflow.nodes key' (.agent agent') → DeclaresKey agent ctx name → DeclaresKey agent' ctx' name' →
    name ≠ name' → sanitizeNodePath hashOf name ≠ sanitizeNodePath hashOf name'

inductive InConcurrentItems (step : StepDefinition) : WorkflowNode → Prop where
  | here {name : String} {body : List WorkflowNode} {selector : RunContext → Except String Value} {concurrency : Nat}
      {feedback : Bool} {node : WorkflowNode} {scope key : NodePath} : 1 < concurrency → node ∈ body →
      RunsAt scope node key step → InConcurrentItems step (.foreach name body selector concurrency feedback)
  | within {node child : WorkflowNode} {body : List WorkflowNode} : body ∈ bodiesOf node → child ∈ body →
      InConcurrentItems step child → InConcurrentItems step node

/-- No step that continues itself runs for several items at a time. -/
def OneItemAtATime (workflow : WorkflowDefinition) : Prop :=
  ∀ node ∈ workflow.nodes, ∀ agent : AgentStep, agent.resumable = .on → ¬ InConcurrentItems (.agent agent) node

def AloneInFlight (workflow : WorkflowDefinition) (memory : RunMemory) : Prop :=
  ∀ key agent key' agent', key ∈ memory.inFlight → key' ∈ memory.inFlight → key ≠ key' →
    RunsIn workflow.nodes key (.agent agent) → RunsIn workflow.nodes key' (.agent agent') →
    agent.resumable = .on → agent'.resumable = .on → occurrenceOf key ≠ occurrenceOf key'

/-- A state that some call of the workflow reaches, under some schedule. -/
inductive Reached (workflow : WorkflowDefinition) (memory : RunMemory) : Prop where
  | call {log : List RunEvent} {call : EngineCall} {launched : Launched} {start code : Code} {t : Trace} :
      launch workflow log call = .ok launched → Throws launched.code start → Proc.Run start t code →
      Replay (engineWorld workflow) (launched.memory log) t memory → Reached workflow memory

def IsStatic (agent : AgentStep) : Prop := ∀ key, agent.resumable ≠ .computed key

/-- No two executions in flight continue one conversation, where neither computes its key. -/
def SingleWriter (workflow : WorkflowDefinition) (memory : RunMemory) : Prop :=
  ∀ key agent ctx key' agent' ctx' file, key ∈ memory.inFlight → key' ∈ memory.inFlight → key ≠ key' →
    IsStatic agent → IsStatic agent' → Resumes hashOf workflow key agent ctx file →
    ¬ Resumes hashOf workflow key' agent' ctx' file

variable {hashOf} {workflow : WorkflowDefinition} {memory : RunMemory} {agent agent' : AgentStep} {ctx ctx' : RunContext}
  {name name' : String} {key key' : NodePath} {step step' : StepDefinition} {scope : NodePath} {node : WorkflowNode}

theorem resolveResumeKey_eq_some :
    resolveResumeKey agent ctx = .ok (some name) ↔
      (agent.resumable = .on ∧ name = agent.name) ∨ DeclaresKey agent ctx name := by
  constructor
  · intro h
    unfold resolveResumeKey at h
    split at h
    · rename_i key hr
      split at h
      · cases h
      · rename_i other hk
        split_ifs at h with hv
        cases h
        exact .inr (.inr ⟨key, hr, hk, hv⟩)
      · cases h
    · rename_i other hr
      cases h
      exact .inr (.inl hr)
    · rename_i hr
      cases h
      exact .inl ⟨hr, rfl⟩
    · cases h
  · rintro (⟨hr, rfl⟩ | hr | ⟨key, hr, hk, hv⟩)
    · simp only [resolveResumeKey, hr]
    · simp only [resolveResumeKey, hr]
    · simp only [resolveResumeKey, hr, hk, hv, if_true]

theorem not_declares_of_on (h : agent.resumable = .on) : ¬ DeclaresKey agent ctx name := by
  rintro (hk | ⟨_, hk, -⟩) <;> rw [h] at hk <;> cases hk

theorem declares_unique (h : DeclaresKey agent ctx name) (h' : DeclaresKey agent ctx name') : name = name' := by
  have hk := resolveResumeKey_eq_some.mpr (.inr h)
  rw [resolveResumeKey_eq_some.mpr (.inr h')] at hk
  cases hk
  rfl

theorem occurrence_of_runsAt (h : RunsAt scope node key step) : (occurrenceOf key).getLast? = some step.name := by
  induction h with
  | step => simp [occurrenceOf]
  | arm _ => simp [occurrenceOf]
  | inside _ _ _ ih => exact ih

theorem name_eq_of_occurrence (h : RunsIn workflow.nodes key (.agent agent))
    (h' : RunsIn workflow.nodes key' (.agent agent')) (he : occurrenceOf key = occurrenceOf key') :
    agent.name = agent'.name := by
  obtain ⟨node, -, hr⟩ := h
  obtain ⟨other, -, hr'⟩ := h'
  have hlast := occurrence_of_runsAt hr
  rw [he, occurrence_of_runsAt hr'] at hlast
  exact (Option.some.inj hlast).symm

theorem resumes_iff {file : List Char} : Resumes hashOf workflow key agent ctx file ↔
    RunsIn workflow.nodes key (.agent agent) ∧ ∃ name, file = resumeSessionFile hashOf workflow.name name ∧
      ((agent.resumable = .on ∧ name = agent.name) ∨ DeclaresKey agent ctx name) := by
  simp only [Resumes, resolveResumeKey_eq_some]
  constructor
  · rintro ⟨hrun, name, hname, hfile⟩
    exact ⟨hrun, name, hfile, hname⟩
  · rintro ⟨hrun, name, hfile, hname⟩
    exact ⟨hrun, name, hname, hfile⟩

theorem identifies_iff : IdentifiesConversations hashOf workflow ↔ DistinctFiles hashOf workflow := by
  constructor
  · intro h
    have hfile : ∀ {key agent} (ctx) {name key' agent'} (ctx') {name'}, RunsIn workflow.nodes key (.agent agent) →
        RunsIn workflow.nodes key' (.agent agent') →
        ((agent.resumable = .on ∧ name = agent.name) ∨ DeclaresKey agent ctx name) →
        ((agent'.resumable = .on ∧ name' = agent'.name) ∨ DeclaresKey agent' ctx' name') →
        sanitizeNodePath hashOf name = sanitizeNodePath hashOf name' → MeantToShare key agent ctx key' agent' ctx' := by
      intro key agent ctx name key' agent' ctx' name' hrun hrun' hn hn' he
      exact (h _ _ _ _ _ _ _ _ (resumes_iff.mpr ⟨hrun, name, rfl, hn⟩) (resumes_iff.mpr ⟨hrun', name', rfl, hn'⟩)).mp
        ((resumeSessionFile_inj hashOf).mpr he)
    refine ⟨?_, ?_, ?_⟩
    · intro key agent key' agent' hrun hrun' hon hon' hne he
      have ctx : RunContext := ⟨"", "", "", fun _ => none, fun _ => .ok .undefined, .undefined⟩
      obtain ⟨-, -, hsame⟩ | ⟨name, hd, -⟩ := hfile ctx ctx hrun hrun' (.inl ⟨hon, rfl⟩)
        (.inl ⟨hon', rfl⟩) he
      · exact hne hsame
      · exact not_declares_of_on hon hd
    · intro key agent key' agent' ctx name hrun hrun' hon hd he
      obtain ⟨-, hon', -⟩ | ⟨name', hd', -⟩ := hfile ctx _ hrun hrun' (.inl ⟨hon, rfl⟩) (.inr hd) he
      · exact not_declares_of_on hon' hd
      · exact not_declares_of_on hon hd'
    · intro key agent ctx name key' agent' ctx' name' hrun hrun' hd hd' hne he
      obtain ⟨hon, -⟩ | ⟨shared, hs, hs'⟩ := hfile ctx ctx' hrun hrun' (.inr hd) (.inr hd') he
      · exact not_declares_of_on hon hd
      · exact hne ((declares_unique hd hs).trans (declares_unique hs' hd'))
  · intro h key agent ctx file key' agent' ctx' file' hc hc'
    obtain ⟨hrun, name, rfl, hn⟩ := resumes_iff.mp hc
    obtain ⟨hrun', name', rfl, hn'⟩ := resumes_iff.mp hc'
    rw [resumeSessionFile_inj]
    constructor
    · intro he
      obtain ⟨hon, rfl⟩ | hd := hn
      · obtain ⟨hon', rfl⟩ | hd' := hn'
        · exact .inl ⟨hon, hon', by_contra (fun hne => h.steps _ _ _ _ hrun hrun' hon hon' hne he)⟩
        · exact absurd he (h.declared _ _ _ _ _ _ hrun hrun' hon hd')
      · obtain ⟨hon', rfl⟩ | hd' := hn'
        · exact absurd he.symm (h.declared _ _ _ _ _ _ hrun' hrun hon' hd)
        · obtain rfl : name = name' := by_contra (fun hne => h.keys _ _ _ _ _ _ _ _ hrun hrun' hd hd' hne he)
          exact .inr ⟨name, hd, hd'⟩
    · rintro (⟨hon, hon', hsame⟩ | ⟨shared, hs, hs'⟩)
      · obtain ⟨-, rfl⟩ | hd := hn
        · obtain ⟨-, rfl⟩ | hd' := hn'
          · rw [name_eq_of_occurrence hrun hrun' hsame]
          · exact absurd hd' (not_declares_of_on hon')
        · exact absurd hd (not_declares_of_on hon)
      · obtain ⟨hon, -⟩ | hd := hn
        · exact absurd hs (not_declares_of_on hon)
        · obtain ⟨hon', -⟩ | hd' := hn'
          · exact absurd hs' (not_declares_of_on hon')
          · rw [declares_unique hd hs, declares_unique hd' hs']

theorem inConcurrentItems_of_overlap (h : Overlap scope node key step key' step')
    (he : occurrenceOf key = occurrenceOf key') : InConcurrentItems step node := by
  induction h with
  | arms _ _ hne =>
    exact absurd (by simpa [occurrenceOf] using he) hne
  | items hc _ hm _ hr _ => exact .here hc hm hr
  | inside hc hm _ ih => exact .within hc.mem_bodiesOf hm (ih he)

theorem aloneInFlight_of_reached (hc : Committed workflow) (ho : OneItemAtATime workflow)
    (hr : Reached workflow memory) : AloneInFlight workflow memory := by
  obtain ⟨hl, ht, hrun, hw⟩ := hr
  obtain ⟨phases, -, hapart, hhome, hflight⟩ := phases_of_run hc hl ht hrun hw
  intro key agent key' agent' hk hk' hne hrun hrun' hon hon' hsame
  obtain ⟨node, hm, hover⟩ | ⟨node, hm, hover⟩ := overlap_of_inFlight hc hapart hhome hflight hne hk hk' hrun hrun'
  · exact ho node hm agent hon (inConcurrentItems_of_overlap hover hsame)
  · exact ho node hm agent' hon' (inConcurrentItems_of_overlap hover hsame.symm)

/-- What overlaps declares no string key, so the writers of one file are executions of one step. -/
theorem singleWriter_iff (hc : Committed workflow) (hd : DistinctFiles hashOf workflow) (hr : Reached workflow memory) :
    SingleWriter hashOf workflow memory ↔ AloneInFlight workflow memory := by
  obtain ⟨hl, ht, hrun, hw⟩ := hr
  have hapart := overlap_isolated hc hl ht hrun hw
  constructor
  · intro h key agent key' agent' hk hk' hne hrun hrun' hon hon' hsame
    have ctx : RunContext := ⟨"", "", "", fun _ => none, fun _ => .ok .undefined, .undefined⟩
    have hstatic : ∀ {agent : AgentStep}, agent.resumable = .on → IsStatic agent := by
      intro agent hon key hk
      rw [hon] at hk
      cases hk
    refine h key agent ctx key' agent' ctx _ hk hk' hne (hstatic hon) (hstatic hon')
      (resumes_iff.mpr ⟨hrun, _, rfl, .inl ⟨hon, rfl⟩⟩) (resumes_iff.mpr ⟨hrun', _, rfl, .inl ⟨hon', ?_⟩⟩)
    exact name_eq_of_occurrence hrun hrun' hsame
  · intro h key agent ctx key' agent' ctx' file hk hk' hne hstatic hstatic' hres hres'
    obtain ⟨hrun, name, rfl, hn⟩ := resumes_iff.mp hres
    obtain ⟨hrun', name', hfile, hn'⟩ := resumes_iff.mp hres'
    rw [resumeSessionFile_inj] at hfile
    have hon : ∀ {agent ctx name}, Guarded agent → IsStatic agent →
        (agent.resumable = .on ∧ name = agent.name) ∨ DeclaresKey agent ctx name →
        agent.resumable = .on ∧ name = agent.name := by
      rintro agent ctx name hg hs (h | hkey | ⟨key, hkey, -⟩)
      · exact h
      · exact absurd hkey (hg.shares _)
      · exact absurd hkey (hs _)
    obtain ⟨hg, hg'⟩ := hapart.guarded _ _ _ _ hne hk hk' hrun hrun'
    obtain ⟨hon₁, rfl⟩ := hon hg hstatic hn
    obtain ⟨hon₂, rfl⟩ := hon hg' hstatic' hn'
    exact hd.steps _ _ _ _ hrun hrun' hon₁ hon₂ (h _ _ _ _ hk hk' hne hrun hrun' hon₁ hon₂) hfile

/-- Conversations have the identity their steps declare exactly where the names stay distinct; each then has one
writer at a time as long as no step that continues itself is in flight for two items. -/
theorem conversations_kept (hashOf : List Char → Nat → List Char) (hc : Committed workflow) :
    (IdentifiesConversations hashOf workflow ↔ DistinctFiles hashOf workflow) ∧
      (DistinctFiles hashOf workflow → ∀ memory, Reached workflow memory →
        (SingleWriter hashOf workflow memory ↔ AloneInFlight workflow memory)) ∧
      (OneItemAtATime workflow → ∀ memory, Reached workflow memory → AloneInFlight workflow memory) :=
  ⟨identifies_iff, fun hd _ hr => singleWriter_iff hc hd hr, fun ho _ hr => aloneInFlight_of_reached hc ho hr⟩

section Sample

def draft : AgentStep := { name := "draft", resumable := .on }

def edit : AgentStep := { name := "edit", resumable := .on }

def threaded (name : String) : AgentStep := { name := name, resumable := .key "thread" }

/-- Two steps continue themselves, and two more continue the one thread between them. -/
def letters : WorkflowDefinition :=
  { name := "letters", nodes := [draft, edit, threaded "ask", threaded "reply"].map (fun agent => .step (.agent agent)) }

theorem committed_letters : Committed letters := .flat (show letters.nodes.flatMap bodiesOf = [] from rfl) rfl

theorem runsIn_letters (h : RunsIn letters.nodes key (.agent agent)) :
    (agent = draft ∧ key = [{ name := "draft" }]) ∨ (agent = edit ∧ key = [{ name := "edit" }]) ∨
      agent.resumable = .key "thread" := by
  obtain ⟨node, hm, hr⟩ := h
  obtain ⟨written, hwritten, rfl⟩ := List.mem_map.mp hm
  cases hr with
  | step =>
    simp only [List.mem_cons, List.not_mem_nil, or_false] at hwritten
    obtain rfl | rfl | rfl | rfl := hwritten
    · exact .inl ⟨rfl, rfl⟩
    · exact .inr (.inl ⟨rfl, rfl⟩)
    · exact .inr (.inr rfl)
    · exact .inr (.inr rfl)
  | inside hc => cases hc

theorem declares_letters (h : RunsIn letters.nodes key (.agent agent)) (hd : DeclaresKey agent ctx name) :
    name = "thread" := by
  obtain ⟨rfl, -⟩ | ⟨rfl, -⟩ | hkey := runsIn_letters h
  · exact absurd hd (not_declares_of_on rfl)
  · exact absurd hd (not_declares_of_on rfl)
  · obtain hname | ⟨_, hname, -⟩ := hd
    · rw [hkey] at hname
      cases hname
      rfl
    · rw [hkey] at hname
      cases hname

theorem on_letters (h : RunsIn letters.nodes key (.agent agent)) (hon : agent.resumable = .on) :
    (agent = draft ∧ key = [{ name := "draft" }]) ∨ (agent = edit ∧ key = [{ name := "edit" }]) := by
  obtain hdraft | hedit | hkey := runsIn_letters h
  · exact .inl hdraft
  · exact .inr hedit
  · rw [hon] at hkey
    cases hkey

def takeHash (raw : List Char) (length : Nat) : List Char := raw.take length

theorem distinctFiles_letters : DistinctFiles takeHash letters := by
  refine ⟨?_, ?_, ?_⟩
  · intro key agent key' agent' hr hr' hon hon' hne
    obtain ⟨rfl, rfl⟩ | ⟨rfl, rfl⟩ := on_letters hr hon
    · obtain ⟨rfl, rfl⟩ | ⟨rfl, rfl⟩ := on_letters hr' hon'
      · exact absurd rfl hne
      · decide
    · obtain ⟨rfl, rfl⟩ | ⟨rfl, rfl⟩ := on_letters hr' hon'
      · decide
      · exact absurd rfl hne
  · intro key agent key' agent' ctx name hr hr' hon hd
    rw [declares_letters hr' hd]
    obtain ⟨rfl, -⟩ | ⟨rfl, -⟩ := on_letters hr hon
    · decide
    · decide
  · intro key agent ctx name key' agent' ctx' name' hr hr' hd hd' hne
    rw [declares_letters hr hd, declares_letters hr' hd'] at hne
    exact absurd rfl hne

theorem letters_conversations_kept : IdentifiesConversations takeHash letters ∧
    ∀ memory, Reached letters memory → SingleWriter takeHash letters memory := by
  obtain ⟨hidentifies, hsingle, halone⟩ := conversations_kept takeHash committed_letters
  refine ⟨hidentifies.mpr distinctFiles_letters, ?_⟩
  intro memory hr
  refine (hsingle distinctFiles_letters memory hr).mpr (halone ?_ memory hr)
  intro node hm agent _ hitems
  obtain ⟨written, -, rfl⟩ := List.mem_map.mp hm
  cases hitems with
  | within hb => cases hb

def workOf (isolated : Bool) : StepDefinition := .agent { name := "work", resumable := .on, isolated := isolated }

def worker : WorkflowDefinition := { name := "worker", nodes := [.step (workOf false)] }

theorem committed_worker : Committed worker := .flat (show worker.nodes.flatMap bodiesOf = [] from rfl) rfl

def staged : WorkflowDefinition :=
  { name := "staged", nodes := [.workflow "plan" worker.nodes, .workflow "apply" worker.nodes] }

theorem committed_staged : Committed staged := by
  refine .assembled [worker, worker] ?_ (show staged.nodes.flatMap bodiesOf = _ from rfl) rfl
  exact List.forall_mem_cons.mpr ⟨committed_worker, List.forall_mem_singleton.mpr committed_worker⟩

def swarmOf (isolated : Bool) : WorkflowDefinition :=
  { name := "swarm", nodes := [.foreach "each" [.step (workOf isolated)] (fun _ => .ok (.array [.null, .null])) 2 false] }

theorem committed_swarm : Committed (swarmOf true) :=
  .assembled [worker] (List.forall_mem_singleton.mpr committed_worker)
    (show (swarmOf false).nodes.flatMap bodiesOf = _ from rfl) rfl

def swarmKey (item : Nat) : NodePath := [{ name := "each", index := some (.foreach, item) }, { name := "work" }]

/-- Two places share one conversation, and two items write to one at the same time. -/
theorem conversations_clash :
    (Committed staged ∧ ∀ hashOf, ¬ IdentifiesConversations hashOf staged) ∧
    (Committed (swarmOf true) ∧ ∃ memory, Reached (swarmOf true) memory ∧
      ∀ hashOf, ¬ SingleWriter hashOf (swarmOf true) memory) := by
  have ctx : RunContext := ⟨"", "", "", fun _ => none, fun _ => .ok .undefined, .undefined⟩
  refine ⟨⟨committed_staged, ?_⟩, committed_swarm, ?_⟩
  · intro hashOf h
    have hrun : ∀ stage, (WorkflowNode.workflow stage worker.nodes) ∈ staged.nodes →
        Resumes hashOf staged [{ name := stage }, { name := "work" }] { name := "work", resumable := .on } ctx
          (resumeSessionFile hashOf "staged" "work") := by
      intro stage hm
      refine resumes_iff.mpr ⟨⟨_, hm, .inside .workflow (List.mem_singleton.mpr rfl) .step⟩, "work", rfl, .inl ⟨rfl, rfl⟩⟩
    have hshare := (h _ _ _ _ _ _ _ _ (hrun "plan" (by simp [staged])) (hrun "apply" (by simp [staged]))).mp rfl
    obtain ⟨-, -, hsame⟩ | ⟨name, hd, -⟩ := hshare
    · exact absurd hsame (by decide)
    · exact not_declares_of_on rfl hd
  · obtain ⟨launched, hl⟩ : ∃ launched, launch (swarmOf true) [] (.run "run-1" .null) = .ok launched := ⟨_, rfl⟩
    obtain ⟨t, hr, hw⟩ := pursue_sound (engineWorld (swarmOf true)) 40 launched.code [] (launched.memory [])
    have hreached := Reached.call hl (.same _) hr hw
    cases hl
    refine ⟨_, hreached, ?_⟩
    intro hashOf h
    have hres : ∀ item, Resumes hashOf (swarmOf true) (swarmKey item)
        { name := "work", resumable := .on, isolated := true } ctx (resumeSessionFile hashOf "swarm" "work") := by
      intro item
      refine resumes_iff.mpr ⟨⟨_, List.mem_singleton.mpr rfl, .inside (.item item) (List.mem_singleton.mpr rfl) .step⟩,
        "work", rfl, .inl ⟨rfl, rfl⟩⟩
    refine h (swarmKey 1) _ ctx (swarmKey 0) _ ctx _ ?_ ?_ (by decide) (fun _ hk => by cases hk) (fun _ hk => by cases hk)
      (hres 1) (hres 0)
    · exact List.mem_cons_self
    · exact List.mem_cons_of_mem _ List.mem_cons_self

end Sample

end KimchiWorkflows.Host
