import KimchiWorkflows.Lib.Interleaving
import KimchiWorkflows.Engine.ConcurrentNodes

/-!
What a run of engine code leaves behind: the events it records and the outputs it stores, in order,
and the outcome it settles with. One inversion lemma for each way code is put together.
-/

namespace KimchiWorkflows.Engine

open KimchiWorkflows.Flow Process Process.Proc Interleaving

inductive Effect where
  | recorded (event : RunEvent)
  | stored (key : NodePath) (output : Value)

abbrev Trace := List (Label RunMemory Action StepCall StepReply)

def effectOf : Label RunMemory Action StepCall StepReply → Option Effect
  | .did (.emit event) => some (.recorded event)
  | .did (.setStepOutput key output) => some (.stored key output)
  | _ => none

def effectsOf (t : Trace) : List Effect := t.filterMap effectOf

def recordedEvents (effects : List Effect) : List RunEvent :=
  effects.filterMap (fun effect => match effect with | .recorded event => some event | _ => none)

def Effect.event? : Effect → Option RunEvent
  | .recorded event => some event
  | _ => none

theorem recordedEvents_eq (effects : List Effect) : recordedEvents effects = effects.filterMap Effect.event? := rfl

@[simp] theorem recordedEvents_nil : recordedEvents [] = [] := rfl

@[simp] theorem recordedEvents_recorded (event : RunEvent) (effects : List Effect) :
    recordedEvents (.recorded event :: effects) = event :: recordedEvents effects := rfl

@[simp] theorem recordedEvents_stored (key : NodePath) (output : Value) (effects : List Effect) :
    recordedEvents (.stored key output :: effects) = recordedEvents effects := rfl

@[simp] theorem recordedEvents_append (e f : List Effect) :
    recordedEvents (e ++ f) = recordedEvents e ++ recordedEvents f := List.filterMap_append

@[simp] theorem recordedEvents_map (events : List RunEvent) :
    recordedEvents (events.map Effect.recorded) = events := by
  induction events with
  | nil => rfl
  | cons event rest ih => simp [ih]

/-- Some run of the code has these effects and settles with this outcome. -/
def Emits (code : Code) (effects : List Effect) (outcome : ExecOutcome) : Prop :=
  ∃ t, Traces code t (.ok outcome) ∧ effectsOf t = effects

variable {code : Code} {effects : List Effect} {outcome : ExecOutcome}

theorem emits_conclude {o : ExecOutcome} (h : Emits (conclude o) effects outcome) :
    effects = [] ∧ outcome = o := by
  obtain ⟨t, ht, rfl⟩ := h
  obtain ⟨rfl, hr⟩ := traces_done ht
  exact ⟨rfl, Except.ok.inj hr⟩

theorem emits_raise {error : String} (h : Emits (raise error) effects outcome) : False := by
  obtain ⟨t, ht, -⟩ := h
  cases (traces_done ht).2

theorem emits_emit {event : RunEvent} (h : Emits (emit event code) effects outcome) :
    ∃ rest, effects = .recorded event :: rest ∧ Emits code rest outcome := by
  obtain ⟨t, ht, rfl⟩ := h
  obtain ⟨u, rfl, hu⟩ := traces_act ht
  exact ⟨_, rfl, u, hu, rfl⟩

theorem emits_emitAll {events : List RunEvent} (h : Emits (emitAll events code) effects outcome) :
    ∃ rest, effects = events.map Effect.recorded ++ rest ∧ Emits code rest outcome := by
  induction events generalizing effects with
  | nil => exact ⟨effects, rfl, h⟩
  | cons event events ih =>
    obtain ⟨u, rfl, hu⟩ := emits_emit h
    obtain ⟨rest, rfl, hr⟩ := ih hu
    exact ⟨rest, rfl, hr⟩

theorem emits_look {next : RunMemory → Code} (h : Emits (.look next) effects outcome) :
    ∃ memory, Emits (next memory) effects outcome := by
  obtain ⟨t, ht, rfl⟩ := h
  obtain ⟨s, u, rfl, hu⟩ := traces_look ht
  exact ⟨s, u, hu, rfl⟩

theorem emits_call {call : StepCall} {next : StepReply → Code}
    (h : Emits (.call call next) effects outcome) : ∃ reply, Emits (next reply) effects outcome := by
  obtain ⟨t, ht, rfl⟩ := h
  obtain ⟨r, u, rfl, hu⟩ := traces_call ht
  exact ⟨r, u, hu, rfl⟩

theorem emits_store {key : NodePath} {output : Value}
    (h : Emits (.act (.setStepOutput key output) code) effects outcome) :
    ∃ rest, effects = .stored key output :: rest ∧ Emits code rest outcome := by
  obtain ⟨t, ht, rfl⟩ := h
  obtain ⟨u, rfl, hu⟩ := traces_act ht
  exact ⟨_, rfl, u, hu, rfl⟩

theorem emits_silent {action : Action} (ha : effectOf (.did action) = none)
    (h : Emits (.act action code) effects outcome) : Emits code effects outcome := by
  obtain ⟨t, ht, rfl⟩ := h
  obtain ⟨u, rfl, hu⟩ := traces_act ht
  exact ⟨u, hu, by simp [effectsOf, ha]⟩

theorem emits_bind {next : Settlement → Code} (h : Emits (code.bind next) effects outcome) :
    ∃ first rest result, effects = first ++ rest ∧
      (∃ t, Traces code t result ∧ effectsOf t = first) ∧ Emits (next result) rest outcome := by
  obtain ⟨t, ht, rfl⟩ := h
  obtain ⟨t₁, r, t₂, h₁, h₂, rfl⟩ := traces_bind ht
  exact ⟨_, _, r, by simp [effectsOf], ⟨t₁, h₁, rfl⟩, t₂, h₂, rfl⟩

theorem emits_andThen {next : ExecOutcome → Code} (h : Emits (andThen code next) effects outcome) :
    ∃ first rest o, effects = first ++ rest ∧ Emits code first o ∧ Emits (next o) rest outcome := by
  obtain ⟨first, rest, result, rfl, h₁, h₂⟩ := emits_bind h
  cases result with
  | error e => exact absurd h₂ (fun h => emits_raise h)
  | ok o => exact ⟨first, rest, o, rfl, h₁, h₂⟩

theorem emits_ifOk {next : Value → Code} (h : Emits (ifOk code next) effects outcome) :
    (∃ first rest output, effects = first ++ rest ∧ Emits code first (.ok output) ∧
      Emits (next output) rest outcome) ∨
    (Emits code effects outcome ∧ outcome.output? = none) := by
  obtain ⟨first, rest, o, rfl, h₁, h₂⟩ := emits_andThen h
  cases o with
  | ok output => exact .inl ⟨first, rest, output, rfl, h₁, h₂⟩
  | crashed error path =>
    obtain ⟨rfl, rfl⟩ := emits_conclude h₂
    exact .inr ⟨by simpa using h₁, rfl⟩
  | cancelled path source =>
    obtain ⟨rfl, rfl⟩ := emits_conclude h₂
    exact .inr ⟨by simpa using h₁, rfl⟩
  | blocked block =>
    obtain ⟨rfl, rfl⟩ := emits_conclude h₂
    exact .inr ⟨by simpa using h₁, rfl⟩

/-- A pool of tasks: their effects interleave, and only a stopped pool leaves a task unstarted. -/
theorem emits_runConcurrent {tasks : List Code} {localLimit : Nat}
    {next : List (Option Settlement) → Code}
    (h : Emits (runConcurrent tasks localLimit next) effects outcome) :
    ∃ (tagged : List (Nat × Effect)) (rest : List Effect) (results : Nat → Option Settlement),
      effects = tagged.map Prod.snd ++ rest ∧
      Emits (next ((List.range tasks.length).map results)) rest outcome ∧
      (∀ e ∈ tagged, e.1 < tasks.length) ∧
      (∀ i (hi : i < tasks.length), (∃ t r, results i = some r ∧ Traces tasks[i] t r ∧
          effectsOf t = own i tagged) ∨ (results i = none ∧ own i tagged = [])) ∧
      ((∀ i < tasks.length, (results i).isSome) ∨
        ∃ i < tasks.length, ∃ r, results i = some r ∧ stopsPool r = true) := by
  cases tasks with
  | nil => exact ⟨[], effects, fun _ => none, by simp, by simpa [runConcurrent] using h, by simp, by simp, by simp⟩
  | cons first others =>
    generalize htasks : first :: others = tasks at h ⊢
    have hcode : runConcurrent tasks localLimit next =
        .fork tasks.length stopsPool
          (fun i => if i < max 1 (min localLimit tasks.length) then .running else .waiting)
          (fun i => tasks.getD i first) next := by subst htasks; rfl
    rw [hcode] at h
    obtain ⟨t, ht, rfl⟩ := h
    have hpos : 0 < tasks.length := by subst htasks; simp
    obtain ⟨tagged, u, final, rfl, hj, hb, he, hf⟩ := traces_fork ht (.inl ⟨0, hpos, by simp [Lane.isRunning]⟩)
    let tagEffect := fun e : Nat × Label RunMemory Action StepCall StepReply => (effectOf e.2).map (e.1, ·)
    have hown : ∀ i, own i (tagged.filterMap tagEffect) = effectsOf (own i tagged) :=
      fun i => own_filterMap effectOf i tagged
    refine ⟨tagged.filterMap tagEffect, effectsOf u, fun i => (final i).result, ?_, ⟨u, hj, rfl⟩, ?_, ?_, ?_⟩
    · simp only [effectsOf, List.filterMap_append, List.map_filterMap, List.filterMap_map]
      congr 2
      funext e
      cases h : effectOf e.2 <;> simp [tagEffect, h]
    · intro e hm
      obtain ⟨a, ha, hs⟩ := List.mem_filterMap.mp hm
      obtain ⟨b, -, rfl⟩ := Option.map_eq_some_iff.mp hs
      exact hb a ha
    · intro i hi
      have hget : tasks.getD i first = tasks[i] := by simp [List.getD, hi]
      have hi' := he i hi
      rw [hget] at hi'
      have hend : (∃ r, Traces tasks[i] (own i tagged) r ∧ final i = .settled r) ∨
          (own i tagged = [] ∧ final i = .waiting) := by
        split_ifs at hi' with hl
        · exact .inl hi'
        · exact hi'
      rcases hend with ⟨r, hr, hfin⟩ | ⟨hnil, hfin⟩
      · exact .inl ⟨_, r, by simp [hfin, Lane.result], hr, (hown i).symm⟩
      · exact .inr ⟨by simp [hfin, Lane.result], by rw [hown, hnil]; rfl⟩
    · have hset : ∀ i < tasks.length, (final i).isRunning = false := by
        intro i hi
        have hi' := he i hi
        split_ifs at hi' with hl
        · obtain ⟨r, -, hfin⟩ := hi'
          simp [hfin, Lane.isRunning]
        · rcases hi' with ⟨r, -, hfin⟩ | ⟨-, hfin⟩ <;> simp [hfin, Lane.isRunning]
      rcases hf with hw | hs
      · refine .inl ?_
        intro i hi
        have h₁ := hset i hi
        have h₂ := hw i hi
        cases hfin : final i <;> simp_all [Lane.isRunning, Lane.isWaiting, Lane.result]
      · refine .inr ?_
        obtain ⟨i, hm, hstop⟩ := List.any_eq_true.mp hs
        cases hfin : (final i).result with
        | none => simp [hfin] at hstop
        | some r => exact ⟨i, List.mem_range.mp hm, r, hfin, by simpa [hfin] using hstop⟩

end KimchiWorkflows.Engine
