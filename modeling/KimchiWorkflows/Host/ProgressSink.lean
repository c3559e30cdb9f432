import Mathlib.Data.List.Dedup
import Mathlib.Data.List.Induction
import KimchiWorkflows.Lib.Registers
import KimchiWorkflows.Progress.UsagePreview

/-!
The progress sink of a surface that draws: the events it has accepted, and the usage previews in place.
-/

namespace KimchiWorkflows.Host.ProgressSink

open KimchiWorkflows.Engine KimchiWorkflows.Progress Registers

inductive RunUpdate where
  | agentUsagePreview (path : NodePath) (totalTokens : Nat)
  | agentUsagePreviewCleared (path : NodePath)

inductive SinkInput where
  | accept (event : RunEvent)
  | update (update : RunUpdate)
  | seed (prior : List RunEvent)

structure Sink where
  events : List RunEvent := []
  usageByPath : Usage := []
  disabled : Bool := false

def forgetUsage (usageByPath : Usage) (path : NodePath) : Usage :=
  Dict.restrict (fun key => key ≠ path) usageByPath

def Sink.take (sink : Sink) : SinkInput → Sink
  | .accept (.agentUsage path totalTokens) =>
    { sink with
      events := sink.events ++ [.agentUsage path totalTokens]
      usageByPath := forgetUsage sink.usageByPath path }
  | .accept event => { sink with events := sink.events ++ [event] }
  | .update (.agentUsagePreview path totalTokens) =>
    if totalTokens = 0 ∨ Dict.get sink.usageByPath path = some totalTokens then sink
    else { sink with usageByPath := Dict.set sink.usageByPath path totalTokens }
  | .update (.agentUsagePreviewCleared path) =>
    { sink with usageByPath := forgetUsage sink.usageByPath path }
  | .seed prior => { sink with events := sink.events ++ prior }

def Sink.draw (outline : Outline) (sink : Sink) : Sink :=
  match project outline sink.events with
  | .error _ => { sink with disabled := true }
  | .ok _ => sink

def Sink.step (outline : Outline) (sink : Sink) (input : SinkInput) : Sink :=
  if sink.disabled then sink else (sink.take input).draw outline

def sinkAfter (outline : Outline) (inputs : List SinkInput) : Sink := inputs.foldl (Sink.step outline) {}

def liveView (outline : Outline) (sink : Sink) : Option ProgressView :=
  if sink.disabled then none
  else (project outline sink.events).toOption.map (fun view => withUsagePreviews view sink.usageByPath)

def SinkInput.events : SinkInput → List RunEvent
  | .accept event => [event]
  | .update _ => []
  | .seed prior => prior

def durable (inputs : List SinkInput) : List RunEvent := inputs.flatMap SinkInput.events

def SinkInput.tells (path : NodePath) : SinkInput → Option (Option Nat)
  | .accept (.agentUsage ended _) => if ended = path then some none else none
  | .update (.agentUsagePreview running totalTokens) =>
    if running = path ∧ 0 < totalTokens then some (some totalTokens) else none
  | .update (.agentUsagePreviewCleared ended) => if ended = path then some none else none
  | _ => none

def inFlight (inputs : List SinkInput) (path : NodePath) : Option Nat :=
  (lastSaid (SinkInput.tells path) inputs).getD none

def SinkInput.previewed : SinkInput → Option NodePath
  | .update (.agentUsagePreview path _) => some path
  | _ => none

def turnsInFlight (inputs : List SinkInput) : List NodePath :=
  (inputs.filterMap SinkInput.previewed).dedup.filter (fun path => (inFlight inputs path).isSome)

variable {outline : Outline} {sink : Sink} {input : SinkInput} {inputs : List SinkInput} {path : NodePath}

theorem draw_of_enabled (h : (sink.draw outline).disabled = false) : sink.draw outline = sink := by
  unfold Sink.draw at h ⊢
  split
  · rename_i error herror
    rw [herror] at h
    cases h
  · rfl

theorem step_of_enabled (h : (sink.step outline input).disabled = false) :
    sink.disabled = false ∧ sink.step outline input = sink.take input := by
  unfold Sink.step at h ⊢
  split_ifs at h ⊢ with hd
  · rw [hd] at h
    cases h
  · exact ⟨by simpa using hd, draw_of_enabled h⟩

/-- A sink that is still on has taken every input. -/
theorem foldl_of_enabled (sink : Sink) (inputs : List SinkInput)
    (h : (inputs.foldl (Sink.step outline) sink).disabled = false) :
    inputs.foldl (Sink.step outline) sink = inputs.foldl Sink.take sink := by
  induction inputs using List.reverseRecOn with
  | nil => rfl
  | append_singleton inputs input ih =>
    rw [List.foldl_append, List.foldl_cons, List.foldl_nil] at h ⊢
    obtain ⟨hbefore, hstep⟩ := step_of_enabled h
    rw [hstep, ih hbefore, List.foldl_append, List.foldl_cons, List.foldl_nil]

theorem events_foldl (sink : Sink) (inputs : List SinkInput) :
    (inputs.foldl Sink.take sink).events = sink.events ++ durable inputs := by
  induction inputs generalizing sink with
  | nil => simp [durable]
  | cons input rest ih =>
    have htake : (sink.take input).events = sink.events ++ input.events := by
      cases input with
      | accept event => cases event <;> rfl
      | update update =>
        cases update with
        | agentUsagePreview path totalTokens =>
          rw [Sink.take]
          split_ifs <;> simp [SinkInput.events]
        | agentUsagePreviewCleared path => simp [Sink.take, SinkInput.events]
      | seed prior => rfl
    rw [List.foldl_cons, ih, htake, List.append_assoc]
    rfl

theorem get_forgetUsage (usageByPath : Usage) (ended : NodePath) :
    Dict.get (forgetUsage usageByPath ended) path = if ended = path then none else Dict.get usageByPath path := by
  by_cases h : ended = path
  · simp [forgetUsage, Dict.get_restrict, h]
  · simp [forgetUsage, Dict.get_restrict, h, Ne.symm h]

theorem usage_take (sink : Sink) (input : SinkInput) :
    Dict.get (sink.take input).usageByPath path = (input.tells path).getD (Dict.get sink.usageByPath path) := by
  cases input with
  | accept event =>
    cases event with
    | agentUsage ended totalTokens =>
      simp only [Sink.take, SinkInput.tells, get_forgetUsage]
      split_ifs <;> rfl
    | _ => rfl
  | update update =>
    cases update with
    | agentUsagePreview running totalTokens =>
      by_cases hpath : running = path
      · subst hpath
        by_cases hzero : totalTokens = 0
        · simp [Sink.take, SinkInput.tells, hzero]
        · by_cases hsame : Dict.get sink.usageByPath running = some totalTokens
          · simp [Sink.take, SinkInput.tells, hsame, Nat.pos_of_ne_zero hzero]
          · simp [Sink.take, SinkInput.tells, hzero, hsame, Nat.pos_of_ne_zero hzero]
      · simp only [Sink.take, SinkInput.tells, hpath, false_and, if_false]
        split_ifs
        · rfl
        · rw [Dict.get_set_of_ne (Ne.symm hpath)]
          rfl
    | agentUsagePreviewCleared ended =>
      simp only [Sink.take, SinkInput.tells, get_forgetUsage]
      split_ifs <;> rfl
  | seed prior => rfl

theorem usage_foldl (inputs : List SinkInput) :
    Dict.get (inputs.foldl Sink.take {}).usageByPath path = inFlight inputs path :=
  read_foldl (fun sink : Sink => Dict.get sink.usageByPath path) usage_take {} inputs

theorem liveView_eq {shown : ProgressView} (h : liveView outline (sinkAfter outline inputs) = some shown) :
    ∃ view usageByPath, project outline (durable inputs) = .ok view ∧
      shown = withUsagePreviews view usageByPath ∧ ∀ path, Dict.get usageByPath path = inFlight inputs path := by
  unfold liveView at h
  split_ifs at h with hd
  have heq : sinkAfter outline inputs = inputs.foldl Sink.take {} :=
    foldl_of_enabled {} inputs (by simpa [sinkAfter] using hd)
  rw [heq, events_foldl] at h
  obtain ⟨view, hview, rfl⟩ := Option.map_eq_some_iff.mp h
  refine ⟨view, _, ?_, rfl, fun path => usage_foldl inputs⟩
  cases hp : project outline (durable inputs) with
  | error error => simp [hp, Except.toOption] at hview
  | ok other =>
    simp only [List.nil_append, hp, Except.toOption, Option.some.injEq] at hview
    rw [hview]

theorem told_of_inFlight {tokens : Nat} (h : inFlight inputs path = some tokens) :
    0 < tokens ∧ SinkInput.update (.agentUsagePreview path tokens) ∈ inputs := by
  unfold inFlight at h
  cases hsaid : lastSaid (SinkInput.tells path) inputs with
  | none => simp [hsaid] at h
  | some said =>
    rw [hsaid, Option.getD_some] at h
    subst h
    obtain ⟨input, hmem, htells⟩ := told_of_lastSaid hsaid
    cases input with
    | accept event => cases event <;> simp [SinkInput.tells] at htells
    | update update =>
      cases update with
      | agentUsagePreview running totalTokens =>
        simp only [SinkInput.tells] at htells
        split_ifs at htells with hrunning
        obtain ⟨rfl, hpos⟩ := hrunning
        cases htells
        exact ⟨hpos, hmem⟩
      | agentUsagePreviewCleared ended => simp [SinkInput.tells] at htells
    | seed prior => simp [SinkInput.tells] at htells

theorem mem_turnsInFlight : path ∈ turnsInFlight inputs ↔ (inFlight inputs path).isSome := by
  rw [turnsInFlight, List.mem_filter, List.mem_dedup, List.mem_filterMap]
  constructor
  · exact And.right
  · intro h
    obtain ⟨tokens, htokens⟩ := Option.isSome_iff_exists.mp h
    exact ⟨⟨_, (told_of_inFlight htokens).2, rfl⟩, h⟩

theorem nodup_turnsInFlight (inputs : List SinkInput) : (turnsInFlight inputs).Nodup :=
  (List.nodup_dedup _).filter _

end KimchiWorkflows.Host.ProgressSink
