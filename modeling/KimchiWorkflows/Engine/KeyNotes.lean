import KimchiWorkflows.Lib.Tracking
import KimchiWorkflows.Engine.NodeConfinement
import KimchiWorkflows.Engine.Recovery

/-!
What one key is recorded with and what is stored under it, carried along the code of the engine.
-/

namespace KimchiWorkflows.Engine

open KimchiWorkflows.Flow Process Process.Proc

inductive Mark where
  | completed | failed
  deriving DecidableEq

structure Note where
  recorded : Option Value := none
  stored : Option Value := none
  mark : Option Mark := none

def RunEvent.fails (key : NodePath) : RunEvent → Bool
  | .stepFailed path _ => staticKeyOf path = key
  | _ => false

def Note.hear (key : NodePath) (note : Note) (event : RunEvent) : Note :=
  match event.completes key with
  | some output => { note with recorded := some output, mark := some .completed }
  | none => if event.fails key then { note with mark := some .failed } else note

def Note.next (key : NodePath) (note : Note) : Action → Note
  | .emit event => note.hear key event
  | .setStepOutput stored output => if stored = key then { note with stored := some output } else note
  | _ => note

def noteGhost (key : NodePath) : Ghost Note RunMemory Action := ⟨Note.next key, fun _ _ => True⟩

/-- What running a node that settles with `output` adds to the note of its own key. -/
def Fresh (note : Note) (output : Value) (note' : Note) : Prop :=
  note' = { note with recorded := some output, mark := some .completed } ∨
    (note' = { note with mark := some .failed } ∧ output = .undefined)

/-- The code adds to the note of a key what a node that settles with an output adds to its own. -/
def Marks (key : NodePath) (note : Note) (code : Code) : Prop :=
  code.Tracks (noteGhost key) note (fun note' result =>
    match result with
    | .ok (.ok output) => Fresh note output note'
    | _ => note' = note)

variable {key : NodePath} {note : Note} {code : Code} {region : NodePath → Prop} {event : RunEvent}

theorem hear_of_subject (h : ∀ path, event.subject = some path → staticKeyOf path ≠ key) :
    note.hear key event = note := by
  have hc : event.completes key = none := by
    by_contra hne
    obtain ⟨output, ho⟩ := Option.ne_none_iff_exists'.mp hne
    obtain ⟨path, hp, hk⟩ := completes_iff.mp ho
    refine h path ?_ hk
    cases event <;> simp_all [RunEvent.completion, RunEvent.subject]
  have hf : event.fails key = false := by
    cases event with
    | stepFailed path error => simpa [RunEvent.fails] using h path rfl
    | _ => rfl
  simp [Note.hear, hc, hf]

theorem silent_of_actsIn {action : Action} (h : ActsIn region action)
    (hr : ∀ path, region path → staticKeyOf path ≠ key) : (noteGhost key).Silent action := by
  intro note
  cases action with
  | emit event =>
    obtain ⟨-, path, hs, hp, -⟩ := h
    refine hear_of_subject ?_
    intro path' hs'
    cases hs.symm.trans hs'
    exact hr path hp
  | setStepOutput stored output =>
    obtain ⟨path, hp, hk⟩ := h
    exact if_neg (hk ▸ hr path hp)
  | _ => rfl

theorem Confined.silent (h : Confined region code) (hr : ∀ path, region path → staticKeyOf path ≠ key) :
    code.Only (noteGhost key).Silent (fun _ => True) :=
  only_mono h (fun _ ha => silent_of_actsIn ha hr) (fun _ _ => trivial)

theorem recorded_hear (note : Note) (event : RunEvent) :
    (note.hear key event).recorded = (event.completes key).or note.recorded := by
  unfold Note.hear
  cases event.completes key with
  | some output => rfl
  | none => split_ifs <;> rfl

theorem read_after {α : Type} {read : Note → Option α} {pick : RunEvent → Option α}
    (hhear : ∀ note event, read (note.hear key event) = (pick event).or (read note))
    (hstore : ∀ note stored output, read (note.next key (.setStepOutput stored output)) = read note)
    (note : Note) (t : Trace) : read ((noteGhost key).after note t) =
      ((recordedEvents (effectsOf t)).filterMap pick).getLast?.or (read note) := by
  induction t generalizing note with
  | nil => rfl
  | cons label t ih =>
    cases label with
    | did action =>
      rw [Ghost.after, ih]
      cases action with
      | emit event =>
        show Option.or _ (read (note.hear key event)) = _
        rw [hhear, ← Option.or_assoc]
        congr 1
        have hsplit : recordedEvents (effectsOf (.did (.emit event) :: t)) =
            [event] ++ recordedEvents (effectsOf t) := rfl
        rw [hsplit, List.filterMap_append, List.getLast?_append]
        congr 1
        cases h : pick event <;> simp [h]
      | setStepOutput stored output =>
        show Option.or _ (read (note.next key (.setStepOutput stored output))) = _
        rw [hstore]
        rfl
      | _ => rfl
    | saw memory =>
      rw [Ghost.after, ih]
      rfl
    | heard call reply =>
      rw [Ghost.after, ih]
      rfl

theorem recorded_after (note : Note) (t : Trace) : ((noteGhost key).after note t).recorded =
    (lastCompletion (recordedEvents (effectsOf t)) key).or note.recorded := by
  refine @read_after key _ Note.recorded (RunEvent.completes key) recorded_hear ?_ note t
  intro note stored output
  unfold Note.next
  dsimp only
  split_ifs <;> rfl

theorem seen_noteGhost (note : Note) (t : Trace) : (noteGhost key).Seen note t := by
  induction t generalizing note with
  | nil => trivial
  | cons label t ih =>
    cases label with
    | did action => exact ih _
    | saw memory => exact ⟨trivial, ih _⟩
    | heard call reply => exact ih _

theorem marks_conclude {outcome : ExecOutcome} (h : outcome.output? = none) :
    Marks key note (conclude outcome) := by
  cases outcome with
  | ok output => cases h
  | _ => exact rfl

theorem marks_raise (error : String) : Marks key note (raise error) := rfl

theorem marks_emit (he : note.hear key event = note) (h : Marks key note code) :
    Marks key note (emit event code) := by
  show Tracks (noteGhost key) code (note.hear key event) _
  rw [he]
  exact h

theorem marks_emitAll {events : List RunEvent} (he : ∀ event ∈ events, note.hear key event = note)
    (h : Marks key note code) : Marks key note (emitAll events code) := by
  induction events with
  | nil => exact h
  | cons event rest ih =>
    exact marks_emit (he event List.mem_cons_self) (ih (fun e hm => he e (List.mem_cons_of_mem _ hm)))

theorem marks_checkpoint {path : NodePath} (hk : staticKeyOf path = key) (output : Value) :
    Marks key note (emitNodeCompleted path output (conclude (.ok output))) := by
  refine .inl ?_
  have hc : (RunEvent.nodeCompleted path output).completes key = some output :=
    completes_iff.mpr ⟨path, rfl, hk⟩
  show note.hear key (.nodeCompleted path output) = _
  rw [Note.hear, hc]

theorem marks_andThen {next : ExecOutcome → Code} (h : Confined region code)
    (hr : ∀ path, region path → staticKeyOf path ≠ key) (hn : ∀ outcome, Marks key note (next outcome)) :
    Marks key note (andThen code next) := by
  refine tracks_bind (tracks_silent (h.silent hr) note) ?_
  rintro note' result ⟨rfl, -⟩
  cases result with
  | ok outcome => exact hn outcome
  | error error => exact marks_raise error

theorem marks_ifOk {next : Value → Code} (h : Confined region code)
    (hr : ∀ path, region path → staticKeyOf path ≠ key) (hn : ∀ output, Marks key note (next output)) :
    Marks key note (ifOk code next) := by
  refine marks_andThen h hr ?_
  intro outcome
  cases outcome with
  | ok output => exact hn output
  | _ => exact marks_conclude rfl

theorem marks_settleConcurrent {outcomes : List ExecOutcome} {stillBlocked : List PendingBlock}
    (h : Marks key note code) : Marks key note (settleConcurrent outcomes stillBlocked code) := by
  unfold settleConcurrent
  dsimp only
  split
  · rename_i hc
    obtain ⟨path, source, rfl⟩ := firstCancelled_some hc
    exact marks_conclude rfl
  · rename_i hc
    obtain ⟨error, path, rfl⟩ := firstCrashed_some (by assumption)
    refine marks_emitAll ?_ (marks_conclude rfl)
    intro event he
    obtain ⟨block, -, rfl⟩ := List.mem_map.mp he
    rfl
  · exact marks_conclude rfl
  · exact h

theorem marks_pool {tasks : List Code} {localLimit : Nat} {onOk : List (Option Settlement) → Code}
    (ht : ∀ task ∈ tasks, Confined region task) (hr : ∀ path, region path → staticKeyOf path ≠ key)
    (h : ∀ results, Marks key note (onOk results)) :
    Marks key note (runConcurrent tasks localLimit (fun results => settleAll results (onOk results))) := by
  have hjoin : ∀ results, Marks key note (settleAll results (onOk results)) := by
    intro results
    unfold settleAll
    split
    · exact marks_raise _
    · exact marks_settleConcurrent (h results)
  have htask : ∀ task ∈ tasks, task.Only (noteGhost key).Silent (fun _ => True) :=
    fun task hm => (ht task hm).silent hr
  cases tasks with
  | nil => exact hjoin []
  | cons first rest =>
    have hlane : ∀ i, Only (noteGhost key).Silent ((first :: rest).getD i first) (fun _ => True) := by
      intro i
      rw [List.getD_eq_getElem?_getD]
      cases hi : (first :: rest)[i]? with
      | none => exact htask first List.mem_cons_self
      | some task => exact htask task (List.mem_of_getElem? hi)
    exact tracks_fork hlane (tracks_silent (hlane 0) note) (fun _ _ _ => trivial)
      (fun results _ => hjoin results)

end KimchiWorkflows.Engine
