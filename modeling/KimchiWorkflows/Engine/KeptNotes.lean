import KimchiWorkflows.Engine.FanOutMarks

/-!
What is stored under a key agrees with what is recorded of it, wherever no arm has the key.
-/

namespace KimchiWorkflows.Engine

open KimchiWorkflows.Flow Process Process.Proc

/-- Nothing yet, or as the last settlement of the key left it. -/
def Note.Balanced (note : Note) : Prop :=
  match note.mark with
  | none => note.recorded = none ∧ note.stored = none
  | some .completed => ∃ output, note.recorded = some output ∧ note.stored = some output
  | some .failed => note.stored = some .undefined

/-- The key of an arm is never stored; any other is stored as it settles. -/
def Note.Kept (isArm : Bool) (note : Note) : Prop :=
  match isArm with
  | true => note.stored = none
  | false => note.Balanced

def Carries (isArm : Bool) (key : NodePath) (code : Code) : Prop :=
  ∀ note, note.Kept isArm → code.Tracks (noteGhost key) note (fun note' _ => note'.Kept isArm)

variable {isArm : Bool} {key : NodePath} {note note' : Note} {code : Code} {region : NodePath → Prop}
  {event : RunEvent} {output : Value}

theorem stored_hear (note : Note) (event : RunEvent) : (note.hear key event).stored = note.stored := by
  unfold Note.hear
  split
  · rfl
  · split_ifs <;> rfl

theorem kept_hear_arm (h : note.Kept true) (event : RunEvent) : (note.hear key event).Kept true := by
  show (note.hear key event).stored = none
  rw [stored_hear]
  exact h

theorem kept_fresh_arm (h : note.Kept true) (hf : Fresh note output note') : note'.Kept true := by
  obtain rfl | ⟨rfl, -⟩ := hf
  · exact h
  · exact h

theorem kept_store (hf : Fresh note output note') :
    (note'.next key (.setStepOutput key output)).Kept false := by
  show Note.Balanced (if key = key then { note' with stored := some output } else note')
  rw [if_pos rfl]
  obtain rfl | ⟨rfl, rfl⟩ := hf
  · exact ⟨output, rfl, rfl⟩
  · exact rfl

theorem carries_conclude (outcome : ExecOutcome) : Carries isArm key (conclude outcome) := fun _ h => h

theorem carries_raise (error : String) : Carries isArm key (raise error) := fun _ h => h

theorem carries_act {action : Action} (ha : (noteGhost key).Silent action) (h : Carries isArm key code) :
    Carries isArm key (.act action code) := by
  intro note hn
  show code.Tracks (noteGhost key) ((noteGhost key).next note action) _
  rw [ha note]
  exact h note hn

theorem carries_look {next : RunMemory → Code} (h : ∀ memory, Carries isArm key (next memory)) :
    Carries isArm key (.look next) :=
  fun note hn memory _ => h memory note hn

theorem carries_emit (he : isArm = false → ∀ note : Note, note.hear key event = note)
    (h : Carries isArm key code) : Carries isArm key (emit event code) := by
  intro note hn
  refine h (note.hear key event) ?_
  cases isArm with
  | true => exact kept_hear_arm hn event
  | false =>
    rw [he rfl note]
    exact hn

theorem carries_emitAll {events : List RunEvent}
    (he : ∀ event ∈ events, isArm = false → ∀ note : Note, note.hear key event = note)
    (h : Carries isArm key code) : Carries isArm key (emitAll events code) := by
  induction events with
  | nil => exact h
  | cons event rest ih =>
    exact carries_emit (he event List.mem_cons_self) (ih (fun e hm => he e (List.mem_cons_of_mem _ hm)))

theorem carries_silent (h : Confined region code) (hr : ∀ path, region path → staticKeyOf path ≠ key) :
    Carries isArm key code := by
  intro note hn
  refine tracks_mono (tracks_silent (h.silent hr) note) ?_
  rintro note' result ⟨rfl, -⟩
  exact hn

theorem carries_marks (h : ∀ note, Marks key note code) : Carries true key code := by
  intro note hn
  refine tracks_mono (h note) ?_
  intro note' result hm
  cases result with
  | error error =>
    rw [show note' = note from hm]
    exact hn
  | ok outcome =>
    cases outcome with
    | ok output => exact kept_fresh_arm hn hm
    | _ =>
      rw [show note' = note from hm]
      exact hn

theorem carries_andThen {next : ExecOutcome → Code} (h : Carries isArm key code)
    (hn : ∀ outcome, Carries isArm key (next outcome)) : Carries isArm key (andThen code next) := by
  intro note hk
  refine tracks_bind (h note hk) ?_
  intro note' result hk'
  cases result with
  | ok outcome => exact hn outcome note' hk'
  | error error => exact hk'

theorem carries_ifOk {next : Value → Code} (h : Carries isArm key code)
    (hn : ∀ output, Carries isArm key (next output)) : Carries isArm key (ifOk code next) := by
  refine carries_andThen h ?_
  intro outcome
  cases outcome with
  | ok output => exact hn output
  | _ => exact carries_conclude _

theorem carries_settleConcurrent {outcomes : List ExecOutcome} {stillBlocked : List PendingBlock}
    (h : Carries isArm key code) : Carries isArm key (settleConcurrent outcomes stillBlocked code) := by
  unfold settleConcurrent
  dsimp only
  split
  · exact carries_conclude _
  · refine carries_emitAll ?_ (carries_conclude _)
    intro event he _ note
    obtain ⟨block, -, rfl⟩ := List.mem_map.mp he
    rfl
  · exact carries_conclude _
  · exact h

theorem carries_settleAll {results : List (Option Settlement)} (h : Carries isArm key code) :
    Carries isArm key (settleAll results code) := by
  unfold settleAll
  split
  · exact carries_raise _
  · exact carries_settleConcurrent h

theorem hear_other {path : NodePath} (hs : event.subject = some path) (hk : staticKeyOf path ≠ key) (note : Note) :
    note.hear key event = note := by
  refine hear_of_subject ?_
  intro other ho
  rw [hs] at ho
  cases ho
  exact hk

end KimchiWorkflows.Engine
