import KimchiWorkflows.Engine.Calls
import KimchiWorkflows.Engine.PendingHistory
import KimchiWorkflows.Engine.FanOutConfinement

/-!
Whatever the engine asks, it asks at a step.
-/

namespace KimchiWorkflows.Engine

open KimchiWorkflows.Flow Process Process.Proc Scheduling

variable {workflow : WorkflowDefinition} {log : List RunEvent} {event : RunEvent} {key target : NodePath}

def AsksPlain (event : RunEvent) : Prop := ∀ block, event.block? = some block → EndsPlain block.path

theorem KeepsTo.asksPlain {region : NodePath → Prop} (h : KeepsTo region event) : AsksPlain event := by
  intro block hb
  obtain ⟨-, path, hs, -, hp⟩ := h
  have hpath := hs.symm.trans (subject_of_block hb).2.1
  rw [← Option.some.inj hpath]
  exact hp (by simp [hb])

theorem asksPlain_of_block_eq_none (h : event.block? = none) : AsksPlain event := by
  intro block hb
  rw [h] at hb
  cases hb

theorem block_opening {call : EngineCall} (h : call.opens event) : event.block? = none := by
  cases call with
  | run runId input =>
    obtain ⟨_, _, _, rfl⟩ := h
    rfl
  | resume =>
    obtain ⟨_, rfl⟩ := h
    rfl
  | answer answers path =>
    obtain ⟨_, rfl⟩ := h
    rfl
  | respond response path =>
    obtain ⟨_, rfl⟩ := h
    rfl

theorem pendingByKey_of_launch {cursor : ExecutionCursor}
    (h : cursor.pendingBlocks = [] ∨ ∃ target, cursor.pendingBlocks = pendingBlocksExcept log target) :
    PendingByKey (envOf workflow cursor) := by
  intro key block hg
  rcases h with hnil | ⟨target, hp⟩
  · rw [envOf, hnil] at hg
    cases hg
  · rw [envOf, hp] at hg
    obtain ⟨asked, -, -, rfl, rfl⟩ := get_pendingBlocksExcept hg
    rw [path_pendingBlockFromEvent]

def AsksPlainly (code : Code) : Prop :=
  code.Only (fun action => ∀ event, action = .emit event → AsksPlain event) (fun _ => True)

theorem asksPlainly_emit {code : Code} (he : event.block? = none) (h : AsksPlainly code) :
    AsksPlainly (emit event code) := by
  refine ⟨?_, h⟩
  intro other ho
  cases ho
  exact asksPlain_of_block_eq_none he

theorem asksPlainly_conclude (outcome : ExecOutcome) : AsksPlainly (conclude outcome) := trivial

theorem asksPlainly_execute {cursor : ExecutionCursor} (henv : PendingByKey (envOf workflow cursor)) :
    AsksPlainly (execute workflow cursor) := by
  have hwalk : Confined (fun _ => True) (runNodeSequence (walked (envOf workflow cursor) workflow.nodes)
      cursor.previousOutput [] [] cursor.startIndex cursor.reentry) :=
    confined_runNodeSequence (stays_walked henv workflow.nodes) (fun _ _ => trivial)
  refine only_bind (only_mono hwalk ?_ (fun _ => id)) ?_
  · rintro action ha event rfl
    exact ha.asksPlain
  · intro result _
    cases result with
    | error error => exact trivial
    | ok outcome =>
      cases outcome with
      | blocked block => exact asksPlainly_conclude _
      | _ => exact asksPlainly_emit rfl (asksPlainly_conclude _)

theorem asksPlainly_launch {call : EngineCall} {launched : Launched}
    (h : launch workflow log call = .ok launched) : AsksPlainly launched.code := by
  rcases launch_cases h with ⟨error, path, hcode⟩ | ⟨opening, cursor, rfl, ho, hp⟩
  · rw [hcode]
    exact asksPlainly_emit rfl (asksPlainly_conclude _)
  · exact asksPlainly_emit (block_opening ho) (asksPlainly_execute (pendingByKey_of_launch hp))

theorem mem_effectsOf {t : Trace} (h : event ∈ recordedEvents (effectsOf t)) :
    Label.did (Action.emit event) ∈ t := by
  obtain ⟨effect, he, hevent⟩ := List.mem_filterMap.mp h
  obtain ⟨label, hl, heffect⟩ := List.mem_filterMap.mp he
  cases effect with
  | stored key output => cases hevent
  | recorded other =>
    cases hevent
    unfold effectOf at heffect
    split at heffect
    · cases heffect
      exact hl
    · cases heffect
    · cases heffect

theorem Produced.asksPlain (h : Produced workflow log) : ∀ event ∈ log, AsksPlain event := by
  induction h with
  | start => simp
  | @host log event _ he ih =>
    intro other ho
    rcases List.mem_append.mp ho with ho | ho
    · exact ih other ho
    · rw [List.mem_singleton.mp ho]
      apply asksPlain_of_block_eq_none
      cases event <;> first | rfl | cases he
  | call _ hl ht hreplay ih =>
    intro event he
    rw [log_replay hreplay] at he
    rcases List.mem_append.mp he with he | he
    · exact ih event he
    · exact (only_run (asksPlainly_launch hl) ht).1 _ (mem_effectsOf he) event rfl

theorem block_of_asked {index : Nat} {asked : Asked} (h : askedBy event index = some asked) :
    ∃ block, event.block? = some block ∧ block.path = asked.path := by
  unfold askedBy at h
  split at h <;> cases h <;> exact ⟨_, rfl, rfl⟩

theorem Produced.pendingBlocks_item (h : Produced workflow log) (parentPath : NodePath) (name : String)
    (index : Nat) : Dict.get (pendingBlocksExcept log target) (itemKey parentPath name index) = none := by
  by_contra hne
  obtain ⟨block, hg⟩ := Option.ne_none_iff_exists'.mp hne
  obtain ⟨asked, ha, -, hkey, -⟩ := get_pendingBlocksExcept hg
  obtain ⟨hm, -⟩ := get_latestByKey (mem_pendingHumanInputs ha).2
  obtain ⟨⟨event, place⟩, hentry, hasked⟩ := List.mem_filterMap.mp hm
  obtain ⟨block', hb, hpath⟩ := block_of_asked hasked
  have hevent : event ∈ log := by
    have := (List.mem_zipIdx hentry).2.2
    rw [this]
    exact List.getElem_mem _
  obtain ⟨parent, leaf, hplain⟩ := h.asksPlain event hevent block' hb
  rw [← hpath, hplain, staticKeyOf_appendSegment, itemKey, staticPathOf_appendForeachItem,
    staticChildKey] at hkey
  have hlast := List.append_inj_right' hkey rfl
  simp at hlast

end KimchiWorkflows.Engine
