import KimchiWorkflows.Engine.Checkpoints
import KimchiWorkflows.Engine.LiveStatus
import KimchiWorkflows.Engine.TopLevel
import KimchiWorkflows.Host.Commands

/-!
A call of the engine goes on from the log as it stood when its lease was granted.
-/

namespace KimchiWorkflows.Host

open KimchiWorkflows.Flow KimchiWorkflows.Engine Process Scheduling Stepping

structure Continues (workflow : WorkflowDefinition) (c : Call) : Prop where
  contains : c.atGrant <+: c.given
  routed : actionFor c.given = some c.route.action
  fresh : ∀ launched t code, launch workflow c.given c.route.call = .ok launched →
    Proc.Run launched.code t code → ∀ event ∈ recordedEvents (effectsOf t), ∀ path,
      event.executes = some path → ∀ node ∈ workflow.nodes, everCompleted c.atGrant node = true →
        ¬ Under [] (scopeNames node) path
  applied : c.route.action = .answer →
    deriveRunStatus c.openedOn ≠ some .cancelled ∧ deriveRunStatus c.openedOn ≠ some .completed

namespace RunFile

variable {workflow : WorkflowDefinition} {s s' : RunFile} {i : Nat} {route : Route}
  {events atGrant given log : List RunEvent}

/-- A rerun is granted its lease on the log it was decided on, an answer is handed the log of a run that is
still blocked, no cold cancellation is recorded between that and the answer, and no top-level node from
the one the call starts with on is completed. -/
def Coherent (workflow : WorkflowDefinition) (s : RunFile) : Move → Prop
  | .acquire i => s.lease = none → ∀ events, s.commands i = .rerun events → s.log = events
  | .call i => ∀ route events atGrant, s.commands i = .started route events atGrant →
      route.action = .answer → deriveRunStatus s.log = some .blocked
  | .record _ => ∀ j route atGrant given, s.commands j = .called route atGrant given →
      route.action = .rerun
  | .opens i _ => ∀ route atGrant given, s.commands i = .called route atGrant given →
      ∀ node ∈ workflow.nodes.drop (route.call.startsAt workflow given), everCompleted given node = false
  | _ => True

theorem everCompleted_mono {node : WorkflowNode} (h : atGrant <+: given)
    (hc : everCompleted atGrant node = true) : everCompleted given node = true := by
  obtain ⟨event, he, hs⟩ := List.any_eq_true.mp hc
  exact List.any_eq_true.mpr ⟨event, h.subset he, hs⟩

/-- A call that starts behind every completed node executes none of them again. -/
theorem fresh_of_ahead {launched : Launched} {t : Trace} {code : Code} {call : EngineCall}
    (hu : scopesUnique workflow.nodes = true) (h : atGrant <+: given)
    (hahead : ∀ node ∈ workflow.nodes.drop (call.startsAt workflow given), everCompleted given node = false)
    (hl : launch workflow given call = .ok launched) (ht : Proc.Run launched.code t code) :
    ∀ event ∈ recordedEvents (effectsOf t), ∀ path, event.executes = some path →
      ∀ node ∈ workflow.nodes, everCompleted atGrant node = true → ¬ Under [] (scopeNames node) path := by
  intro event he path hx node hm hc
  have hrun := (Proc.only_run (executesAhead_launch hl) ht).1 _ (mem_effectsOf he) event path rfl hx
  apply not_executed_of_ahead hu hm ?_ hrun
  intro hd
  have := hahead node hd
  rw [everCompleted_mono h hc] at this
  cases this

theorem status_crashed (log : List RunEvent) (error : String) :
    deriveRunStatus (log ++ [.runCrashed none error]) ≠ some .cancelled ∧
      deriveRunStatus (log ++ [.runCrashed none error]) ≠ some .completed := by
  simp only [deriveRunStatus, lastTerminal_concat, RunEvent.terminal, Option.some_or]
  split_ifs <;> simp

/-- A blocked run that processes may have declared crashed, but that nothing cancelled or completed. -/
def Waits (given log : List RunEvent) : Prop :=
  deriveRunStatus given = some .blocked ∧
    (log = given ∨ ∃ before error, log = before ++ [.runCrashed none error])

theorem status_of_waits (h : Waits given log) :
    deriveRunStatus log ≠ some .cancelled ∧ deriveRunStatus log ≠ some .completed := by
  obtain ⟨hb, rfl | ⟨before, error, rfl⟩⟩ := h
  · simp [hb]
  · exact status_crashed before error

/-- What a command under its lease knows about the log. -/
def Knows (log : List RunEvent) : Command → Prop
  | .granted route events atGrant => (route = .rerun → events = atGrant ∧ actionFor atGrant = some .rerun) ∧
      (route.action = .rerun → route = .rerun) ∧ atGrant <+: log
  | .started route events atGrant => (route = .rerun → events = atGrant ∧ actionFor atGrant = some .rerun) ∧
      (route.action = .rerun → route = .rerun) ∧ atGrant <+: log
  | .called route atGrant given => atGrant <+: given ∧ actionFor given = some route.action ∧
      (route.action = .answer → Waits given log)
  | .rerun events => actionFor events = some .rerun
  | .answer route => route ≠ .rerun
  | _ => True

structure Orderly (workflow : WorkflowDefinition) (s : RunFile) : Prop where
  owner : ∀ i, holds (s.commands i) = true → s.lease = some i
  knows : ∀ i, Knows s.log (s.commands i)
  calls : ∀ c ∈ s.calls, Continues workflow c

theorem knows_of_not_holds {command : Command} {log' : List RunEvent} (hn : holds command = false)
    (h : Knows log command) : Knows log' command := by
  cases command <;> first | exact h | cases hn

theorem Knows.append {command : Command} {event : RunEvent} (h : Knows log command)
    (hw : ∀ route atGrant given, command = .called route atGrant given → route.action = .answer →
      ∃ error, event = .runCrashed none error) : Knows (log ++ [event]) command := by
  cases command with
  | granted route events atGrant => exact ⟨h.1, h.2.1, h.2.2.trans (List.prefix_append _ _)⟩
  | started route events atGrant => exact ⟨h.1, h.2.1, h.2.2.trans (List.prefix_append _ _)⟩
  | called route atGrant given =>
    refine ⟨h.1, h.2.1, fun ha => ⟨(h.2.2 ha).1, ?_⟩⟩
    obtain ⟨error, rfl⟩ := hw route atGrant given rfl ha
    exact .inr ⟨log, error, rfl⟩
  | _ => exact h

theorem orderly_put {command : Command} (h : Orderly workflow s)
    (hown : holds command = true → s.lease = some i) (hk : Knows s.log command) :
    Orderly workflow (s.put i command) := by
  refine ⟨?_, ?_, h.calls⟩
  · intro j hj
    simp only [put, Function.update_apply] at hj ⊢
    split_ifs at hj with hji
    · rw [hji]
      exact hown hj
    · exact h.owner j hj
  · intro j
    simp only [put, Function.update_apply]
    split_ifs
    · exact hk
    · exact h.knows j

theorem not_holds_of_ne {j : Nat} (h : Orderly workflow s) (hi : s.lease = some i) (hj : j ≠ i) :
    holds (s.commands j) = false := by
  by_contra hn
  have := h.owner j (by simpa using hn)
  rw [hi] at this
  exact hj (Option.some.inj this).symm

theorem orderly_owned {command : Command} {event : RunEvent} {calls : List Call} (h : Orderly workflow s)
    (hi : holds (s.commands i) = true) (hk : Knows (s.log ++ [event]) command)
    (hcalls : ∀ c ∈ calls, Continues workflow c) :
    Orderly workflow { (s.append event).put i command with calls := calls } := by
  have hlease := h.owner i hi
  refine ⟨?_, ?_, hcalls⟩
  · intro j hj
    simp only [put, append, Function.update_apply] at hj ⊢
    split_ifs at hj with hji
    · rw [hji]
      exact hlease
    · exact h.owner j hj
  · intro j
    simp only [put, append, Function.update_apply]
    split_ifs with hji
    · exact hk
    · exact knows_of_not_holds (not_holds_of_ne h hlease hji) (h.knows j)

theorem orderly_free (h : Orderly workflow s) (hn : ∀ j, holds (s'.commands j) = false)
    (hk : ∀ j, Knows s'.log (s'.commands j)) (hcalls : s'.calls = s.calls) : Orderly workflow s' :=
  ⟨fun j hj => Bool.noConfusion (hj.symm.trans (hn j)), hk, hcalls ▸ h.calls⟩

theorem orderly_inspect (h : Orderly workflow s) (hs : s.step workflow (.inspect i) = some s') :
    Orderly workflow s' := by
  simp only [step] at hs
  split at hs
  · rename_i events hc
    obtain rfl := Option.some.inj hs
    unfold routed
    split_ifs
    · exact orderly_put h (by simp [holds]) trivial
    · split
      · rename_i ha
        exact orderly_put h (by simp [holds]) ha
      · split
        · exact orderly_put h (by simp [holds]) trivial
        · exact orderly_put h (by simp [holds]) trivial
      · exact orderly_put h (by simp [holds]) trivial
  · split_ifs at hs <;> obtain rfl := Option.some.inj hs <;> exact orderly_put h (by simp [holds]) trivial
  · cases hs

theorem orderly_acquire {events : List RunEvent} (h : Orderly workflow s)
    (hk : s.lease = none → Knows s.log (.granted route events s.log)) :
    Orderly workflow (s.acquire i route events) := by
  unfold acquire
  split
  · exact orderly_put h (by simp [holds]) trivial
  · rename_i hl
    have hnone : ∀ j, holds (s.commands j) = false := by
      intro j
      by_contra hn
      have := h.owner j (by simpa using hn)
      rw [hl] at this
      cases this
    refine ⟨?_, ?_, h.calls⟩
    · intro j hj
      simp only [put, Function.update_apply] at hj ⊢
      split_ifs at hj with hji
      · rw [hji]
      · rw [hnone j] at hj
        cases hj
    · intro j
      simp only [put, Function.update_apply]
      split_ifs
      · exact hk hl
      · exact h.knows j

theorem orderly_respond {route : Option Route} (h : Orderly workflow s)
    (hs : s.step workflow (.respond i route) = some s') : Orderly workflow s' := by
  simp only [step] at hs
  split at hs
  · split_ifs at hs with ht
    cases hs
    refine orderly_put h (by simp [holds]) ?_
    rintro rfl
    cases ht
  · cases hs
    exact orderly_put h (by simp [holds]) trivial
  · cases hs

theorem orderly_granted (h : Orderly workflow s) (hm : Coherent workflow s (.acquire i))
    (hs : s.step workflow (.acquire i) = some s') : Orderly workflow s' := by
  have hknows := h.knows i
  simp only [step] at hs
  split at hs
  · rename_i events hc
    cases hs
    rw [hc] at hknows
    refine orderly_acquire h (fun hl => ?_)
    have hlog : s.log = events := hm hl events hc
    subst hlog
    exact ⟨fun _ => ⟨rfl, hknows⟩, fun _ => rfl, List.prefix_rfl⟩
  · rename_i route hc
    cases hs
    rw [hc] at hknows
    refine orderly_acquire h (fun _ => ⟨fun hr => absurd hr hknows, fun hr => ?_, List.prefix_rfl⟩)
    cases route <;> first | rfl | cases hr
  · cases hs

theorem orderly_call (h : Orderly workflow s) (hm : Coherent workflow s (.call i))
    (hs : s.step workflow (.call i) = some s') : Orderly workflow s' := by
  have hknows := h.knows i
  simp only [step] at hs
  split at hs
  · rename_i route events atGrant hc
    cases hs
    rw [hc] at hknows
    refine orderly_put h (fun _ => h.owner i (by rw [hc]; rfl)) ?_
    cases hr : route.action with
    | rerun =>
      obtain rfl := hknows.2.1 hr
      obtain ⟨rfl, ha⟩ := hknows.1 rfl
      exact ⟨List.prefix_rfl, ha, nofun⟩
    | answer =>
      have hb := hm route events atGrant hc hr
      have hgiven : handed route events s.log = s.log := by cases route <;> first | rfl | cases hr
      rw [hgiven]
      exact ⟨hknows.2.2, by rw [actionFor, hb, hr]; rfl, fun _ => ⟨hb, .inl rfl⟩⟩
    | error reason => cases route <;> cases hr
  · cases hs

theorem orderly_opens {event : RunEvent} (hu : scopesUnique workflow.nodes = true) (h : Orderly workflow s)
    (hm : Coherent workflow s (.opens i event)) (hs : s.step workflow (.opens i event) = some s') :
    Orderly workflow s' := by
  have hknows := h.knows i
  simp only [step] at hs
  split at hs
  · rename_i route atGrant given hc
    split at hs
    · cases hs
    · rename_i launched hl
      cases hs
      rw [hc] at hknows
      refine orderly_owned h (by rw [hc]; rfl) trivial ?_
      intro c hm'
      rcases List.mem_append.mp hm' with hm' | hm'
      · exact h.calls c hm'
      · obtain rfl := List.mem_singleton.mp hm'
        refine ⟨hknows.1, hknows.2.1, ?_, fun ha => status_of_waits (hknows.2.2 ha)⟩
        intro launched t code hl ht
        exact fresh_of_ahead hu hknows.1 (hm route atGrant given hc) hl ht
  · cases hs

theorem orderly_finish {blocked : Option NodePath} (h : Orderly workflow s)
    (hs : s.step workflow (.finish i blocked) = some s') : Orderly workflow s' := by
  simp only [step] at hs
  split_ifs at hs with hh
  cases hs
  have hlease := h.owner i hh
  refine orderly_free h ?_ ?_ rfl
  · intro j
    simp only [put, Function.update_apply]
    split_ifs with hji
    · cases blocked <;> rfl
    · have hother : holds (s.commands j) = false := not_holds_of_ne h hlease hji
      exact hother
  · intro j
    simp only [put, Function.update_apply]
    split_ifs
    · cases blocked <;> trivial
    · exact h.knows j

theorem orderly_record (h : Orderly workflow s) (hm : Coherent workflow s (.record i))
    (hs : s.step workflow (.record i) = some s') : Orderly workflow s' := by
  simp only [step] at hs
  split at hs
  · rename_i hc
    cases hs
    have happend : Orderly workflow (s.append (.runCancelled none (some .command))) := by
      refine ⟨h.owner, fun j => (h.knows j).append ?_, h.calls⟩
      intro route atGrant given hcalled ha
      rw [hm j route atGrant given hcalled] at ha
      cases ha
    exact orderly_put happend (by simp [holds]) trivial
  · cases hs

theorem orderly_reclaim {error : String} (h : Orderly workflow s)
    (hs : s.step workflow (.reclaim i error) = some s') : Orderly workflow s' := by
  simp only [step] at hs
  split at hs
  · rename_i hc
    split_ifs at hs with hl
    cases hs
    have hnone : ∀ j, holds (s.commands j) = false := by
      intro j
      by_cases hji : j = i
      · rw [hji, hc]
        rfl
      · exact not_holds_of_ne h hl hji
    exact orderly_free h hnone (fun j => knows_of_not_holds (hnone j) (h.knows j)) rfl
  · cases hs

theorem orderly_step {move : Move} (hu : scopesUnique workflow.nodes = true) (h : Orderly workflow s)
    (hm : Coherent workflow s move) (hs : s.step workflow move = some s') : Orderly workflow s' := by
  cases move with
  | resume i =>
    simp only [step] at hs
    split at hs <;> cases hs
    exact orderly_put h (by simp [holds]) trivial
  | cancel i =>
    simp only [step] at hs
    split at hs <;> cases hs
    exact orderly_put h (by simp [holds]) trivial
  | load i =>
    simp only [step] at hs
    split at hs <;> cases hs <;> exact orderly_put h (by simp [holds]) trivial
  | inspect i => exact orderly_inspect h hs
  | respond i route => exact orderly_respond h hs
  | acquire i => exact orderly_granted h hm hs
  | begin i executionId =>
    have hknows := h.knows i
    simp only [step] at hs
    split at hs
    · rename_i route events atGrant hc
      cases hs
      rw [hc] at hknows
      refine orderly_owned h (by rw [hc]; rfl) ?_ h.calls
      exact ⟨hknows.1, hknows.2.1, hknows.2.2.trans (List.prefix_append _ _)⟩
    · cases hs
  | call i => exact orderly_call h hm hs
  | opens i event => exact orderly_opens hu h hm hs
  | emit i event =>
    simp only [step] at hs
    split at hs
    · rename_i hc
      cases hs
      have hlease := h.owner i (by rw [hc]; rfl)
      refine ⟨h.owner, ?_, h.calls⟩
      intro j
      by_cases hji : j = i
      · rw [hji, show (s.append event).commands i = .running from hc]
        trivial
      · have hother : holds (s.commands j) = false := not_holds_of_ne h hlease hji
        exact knows_of_not_holds hother (h.knows j)
    · cases hs
  | cancelActive i path =>
    simp only [step] at hs
    split_ifs at hs with hh
    cases hs
    exact orderly_owned h hh trivial h.calls
  | finish i blocked => exact orderly_finish h hs
  | record i => exact orderly_record h hm hs
  | die i =>
    simp only [step] at hs
    cases hs
    exact orderly_put h (by simp [holds]) trivial
  | reclaim i error => exact orderly_reclaim h hs
  | crash error =>
    simp only [step] at hs
    cases hs
    refine ⟨h.owner, ?_, h.calls⟩
    exact fun j => (h.knows j).append (fun _ _ _ _ _ => ⟨error, rfl⟩)

/-- In every run of the commands whose moves all find the log as they expect it, every call of the engine
goes on from the log its lease was granted on. -/
theorem continues_of_coherent {log : List RunEvent} {moves : List Move} (hc : Committed workflow)
    (h : Run (step workflow) (Coherent workflow) { log := log } moves s) :
    ∀ c ∈ s.calls, Continues workflow c := by
  have hstart : Orderly workflow { log := log } := ⟨nofun, fun _ => trivial, nofun⟩
  exact (h.keeps hstart (fun _ _ _ hi hm hs => orderly_step hc.scopesUnique hi hm hs)).calls

def resumedOnce (i : Nat) : List Move := [.acquire i, .begin i "e2", .call i, .opens i (.runResumed (some workPath))]

/-- Another process loads the log of the crashed run first, and goes on when the run has been completed. -/
def resumedTwice : List Move :=
  [.resume 0, .load 0, .inspect 0, .resume 1, .load 1, .inspect 1] ++ resumedOnce 1 ++
    fragileResumed.tail.map (.emit 1) ++ [.finish 1 none] ++ resumedOnce 0

def fragileFile : RunFile := { log := fragileCrashed }

theorem continues_resumedOnce : ∃ s,
    Run (step fragile) (Coherent fragile) fragileFile ([.resume 0, .load 0, .inspect 0] ++ resumedOnce 0) s ∧
      s.calls ≠ [] ∧ ∀ c ∈ s.calls, Continues fragile c := by
  have hrun : ∃ s, Run (step fragile) (Coherent fragile) fragileFile
      ([.resume 0, .load 0, .inspect 0] ++ resumedOnce 0) s ∧ s.calls ≠ [] := by
    refine ⟨_, .snoc (.snoc (.snoc (.snoc (.snoc (.snoc (.snoc .nil rfl trivial) rfl trivial) rfl trivial)
      rfl ?_) rfl trivial) rfl ?_) rfl ?_, nofun⟩
    · intro _ events he
      cases he
      rfl
    · intro route events atGrant he ha
      cases he
      cases ha
    · intro route atGrant given he
      cases he
      decide
  obtain ⟨s, hs, hcalls⟩ := hrun
  exact ⟨s, hs, hcalls, continues_of_coherent committed_fragile hs⟩

theorem stale_resume_repeats : Committed fragile ∧ ¬ ∀ moves s,
    Run (step fragile) Unconditional fragileFile moves s → ∀ c ∈ s.calls, Continues fragile c := by
  refine ⟨committed_fragile, fun h => ?_⟩
  obtain ⟨s, hs, hlast⟩ : ∃ s, steps (step fragile) fragileFile resumedTwice = some s ∧
      s.calls.getLast? = some ⟨.rerun, fragileCrashed ++ [.runExecutionStarted "e2"] ++ fragileResumed,
        fragileCrashed, fragileCrashed ++ [.runExecutionStarted "e2"] ++ fragileResumed ++
          [.runExecutionStarted "e2"]⟩ := ⟨_, rfl, rfl⟩
  have hcontains := (h resumedTwice s (run_of_steps hs) _ (List.mem_of_getLast? hlast)).contains.length_le
  revert hcontains
  decide

end RunFile

end KimchiWorkflows.Host
