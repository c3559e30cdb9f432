import KimchiWorkflows.Engine.SlotPhases
import KimchiWorkflows.Lib.PhaseRuns
import KimchiWorkflows.Engine.ConcurrencyGate

/-!
At any moment of a run no more steps hold a slot than the ceiling allows, and none of them waits for another.
-/

namespace KimchiWorkflows.Engine

open KimchiWorkflows.Flow Process Process.Proc

/-- The code of a step in flight, with exceptions thrown at some of its emits. -/
inductive BodyThrows : Code → Code → Prop where
  | done (result : Except String ExecOutcome) : BodyThrows (.done result) (.done result)
  | thrown (event : RunEvent) (rest : Code) (error : String) : BodyThrows (emit event rest) (raise error)
  | emit (event : RunEvent) {rest rest' : Code} : BodyThrows rest rest' → BodyThrows (emit event rest) (emit event rest')
  | look {next next' : RunMemory → Code} : (∀ memory, BodyThrows (next memory) (next' memory)) →
      BodyThrows (.look next) (.look next')
  | call (call : StepCall) {next next' : StepReply → Code} : (∀ reply, BodyThrows (next reply) (next' reply)) →
      BodyThrows (.call call next) (.call call next')

/-- The code of a run, with exceptions thrown at some of its emits; whether one stops its pool is left open. -/
inductive Throws : Code → Code → Prop where
  | same (code : Code) : Throws code code
  | thrown (event : RunEvent) (rest : Code) (error : String) : Throws (emit event rest) (raise error)
  | emit (event : RunEvent) {rest rest' : Code} : Throws rest rest' → Throws (emit event rest) (emit event rest')
  | store (key : NodePath) (output : Value) {rest rest' : Code} : Throws rest rest' →
      Throws (.act (.setStepOutput key output) rest) (.act (.setStepOutput key output) rest')
  | look {next next' : RunMemory → Code} : (∀ memory, Throws (next memory) (next' memory)) →
      Throws (.look next) (.look next')
  | slot (key : NodePath) {body body' : Code} {next next' : Except String ExecOutcome → Code} : BodyThrows body body' →
      (∀ result, Throws (next result) (next' result)) → (∀ error, next' (.error error) = raise error) →
      Throws (.act (.acquire key) <| .act (.admitted key) <| .act (.enterFlight key) <|
          body.bind (fun result => .act (.leaveFlight key) <| .act .release <| next result))
        (.act (.acquire key) <| .act (.admitted key) <| .act (.enterFlight key) <|
          body'.bind (fun result => .act (.leaveFlight key) <| .act .release <| next' result))
  | fork (size : Nat) (stop stop' : Settlement → Bool) (lane : Nat → Lane Settlement) {task task' : Nat → Code}
      {join join' : List (Option Settlement) → Code} : (∀ outcome, stop' (.ok outcome) = stop (.ok outcome)) →
      (∀ i, Throws (task i) (task' i)) → (∀ results, Throws (join results) (join' results)) →
      Throws (.fork size stop lane task join) (.fork size stop' lane task' join')

variable {apart : SlotPhase → SlotPhase → Prop} {home : SlotPhase → Prop}

/-- A step in flight stays in its phase until its slot ends, with a result of its own or an exception. -/
theorem keeps_bodyThrows {body body' : Code} (h : BodyThrows body body') {φ : SlotPhase}
    {ends : Except String ExecOutcome → SlotPhase → Prop} (hk : body.Keeps slots apart home φ ends) :
    body'.Keeps slots apart home φ (fun result ψ => ψ = φ ∧ (ends result φ ∨ ∃ error, result = .error error)) := by
  induction h with
  | done result => exact ⟨rfl, .inl hk⟩
  | thrown event rest error => exact ⟨rfl, .inr ⟨error, rfl⟩⟩
  | emit event _ ih =>
    obtain ⟨_, hm, hh, hk⟩ := hk
    cases hm
    exact ⟨φ, .emit event φ, hh, ih hk⟩
  | look _ ih => exact fun memory => ih memory (hk memory)
  | call call _ ih => exact ⟨hk.1, fun reply => ih reply (hk.2 reply)⟩

theorem keeps_throws {code code' : Code} (h : Throws code code')
    (hk : code.Keeps slots apart home .free (fun _ φ => φ = .free)) :
    code'.Keeps slots apart home .free (fun _ φ => φ = .free) := by
  induction h generalizing home with
  | same code => exact hk
  | thrown event rest error => rfl
  | emit event _ ih =>
    obtain ⟨_, hm, hh, hk⟩ := hk
    cases hm
    exact ⟨.free, .emit event .free, hh, ih hk⟩
  | store key output _ ih =>
    obtain ⟨_, hm, hh, hk⟩ := hk
    cases hm
    exact ⟨.free, .store key output .free, hh, ih hk⟩
  | look _ ih => exact fun memory => ih memory (hk memory)
  | @slot key body body' next next' hbody _ herror ih =>
    obtain ⟨_, hask, hh₁, _, hadmit, hh₂, _, henter, hh₃, hk⟩ := hk
    cases hask with | ask _ step =>
    cases hadmit
    cases henter
    refine ⟨_, .ask key step, hh₁, _, .grant key step, hh₂, _, .enter key step, hh₃, keeps_bind.mpr ?_⟩
    refine Keeps.mono (keeps_bodyThrows hbody (keeps_bind.mp hk)) (fun _ _ => id) (fun _ => id) ?_
    rintro result φ ⟨rfl, hends | ⟨error, rfl⟩⟩
    · obtain ⟨_, hleave, _, _, hrelease, hh₄, hnext⟩ := hends
      cases hleave
      cases hrelease
      exact ⟨_, .leave key step, hh₂, _, .release key step, hh₄, ih result hnext⟩
    · rw [herror]
      exact ⟨_, .leave key step, hh₂, _, .release key step, by simp [slots, SlotPhase.busy], rfl⟩
  | fork size stop stop' lane _ _ _ iht ihj =>
    obtain ⟨hidle, homes, hsub, hapart, ht, hj⟩ := hk
    exact ⟨hidle, homes, hsub, hapart, fun i => iht i (ht i), fun results => ihj results (hj results)⟩

end KimchiWorkflows.Engine

namespace KimchiWorkflows.Engine

open KimchiWorkflows.Flow Process Process.Proc Scheduling

variable {workflow : WorkflowDefinition} {log : List RunEvent} {call : EngineCall} {launched : Launched}
  {t : Trace} {memory : RunMemory} {start code : Code} {limit : Nat} {φs : List SlotPhase}
  {clash : NodePath → StepDefinition → NodePath → StepDefinition → Prop} {home : SlotPhase → Prop}

def RunsIn (nodes : List WorkflowNode) (key : NodePath) (step : StepDefinition) : Prop :=
  ∃ node ∈ nodes, RunsAt [] node key step

def OverlapIn (nodes : List WorkflowNode) (key : NodePath) (step : StepDefinition) (key' : NodePath)
    (step' : StepDefinition) : Prop :=
  ∃ node ∈ nodes, Overlap [] node key step key' step'

theorem slotted_launch (hc : Committed workflow) (hl : launch workflow log call = .ok launched) :
    Slotted (OverlapIn workflow.nodes) (RunsIn workflow.nodes) launched.code := by
  have hunique := hc.scopesUnique
  rw [scopesUnique, Bool.and_eq_true] at hunique
  obtain ⟨error, path, hcode⟩ | ⟨opening, cursor, rfl, -, -⟩ := launch_cases hl
  · rw [hcode]
    exact slotted_emit _ (slotted_conclude _)
  · refine slotted_emit _ (slotted_andThen (slotted_runNodeSequence (takesSlots_walked _ hunique.2) ?_) ?_)
    · rw [map_fst_walked]
      exact fun node hm => ⟨fun _ _ hr => ⟨node, hm, hr⟩, fun _ _ _ _ ho => ⟨node, hm, ho⟩⟩
    · intro outcome
      cases outcome with
      | blocked block => exact slotted_conclude _
      | _ => exact slotted_emit _ (slotted_conclude _)

def Keyed (clash : NodePath → StepDefinition → NodePath → StepDefinition → Prop) : Prop :=
  ∀ key step key' step', clash key step key' step' → key ≠ key'

theorem keyed_overlapIn (nodes : List WorkflowNode) : Keyed (OverlapIn nodes) := by
  rintro key step key' step' ⟨node, -, ho⟩
  exact ho.key_ne

@[simp] theorem filter_free : [SlotPhase.free].filter slots.busy = [] := rfl

@[simp] theorem filter_asked (key : NodePath) (step : StepDefinition) :
    [SlotPhase.asked key step].filter slots.busy = [.asked key step] := rfl

@[simp] theorem filter_holding (key : NodePath) (step : StepDefinition) (flying : Bool) :
    [SlotPhase.holding key step flying].filter slots.busy = [.holding key step flying] := rfl

theorem kept_gateHolds (hk : Keyed clash) : Kept (engineWorld workflow) slots (ApartOf clash) home
    (GateHolds (max 1 workflow.maxConcurrency)) where
  did := by
    intro u s a l r φ φ' hm ha hp hp' _ h
    cases hm with
    | emit event φ => exact h.idle (fun _ => rfl) rfl rfl rfl (fun _ _ _ hs => hs) rfl
    | store key output φ => exact h.idle (fun _ => rfl) rfl rfl rfl (fun _ _ _ hs => hs) rfl
    | ask key step =>
      rw [filter_free, List.append_nil] at h
      rw [filter_asked] at hp' ⊢
      refine h.ask (fun hq => ?_)
      obtain ⟨step', hs⟩ := h.waiting key hq
      rw [List.append_assoc, List.pairwise_append, List.singleton_append, List.pairwise_cons] at hp'
      obtain hs | hs := List.mem_append.mp hs
      · obtain ⟨_, _, _, _, h₁, h₂, ho⟩ := hp'.2.2 _ hs _ List.mem_cons_self
        cases h₁
        cases h₂
        exact hk _ _ _ _ ho rfl
      · obtain ⟨_, _, _, _, h₁, h₂, ho⟩ := hp'.2.1.1 _ hs
        cases h₁
        cases h₂
        exact hk _ _ _ _ ho rfl
    | grant key step =>
      have hn : key ∉ s.gate.queue := by simpa [engineWorld] using ha
      refine h.idle (fun _ => rfl) rfl rfl rfl ?_ (by simp)
      intro other hq step' hs
      refine mem_replaced hs ?_
      rintro he
      cases he
      exact hn hq
    | enter key step =>
      exact h.idle (fun _ => rfl) rfl rfl rfl (fun _ _ _ hs => mem_replaced hs (by simp)) (by simp)
    | leave key step =>
      exact h.idle (fun _ => rfl) rfl rfl rfl (fun _ _ _ hs => mem_replaced hs (by simp)) (by simp)
    | release key step =>
      rw [filter_free, List.append_nil]
      exact h.release
  saw := fun u s φs h => h.idle (fun _ => rfl) rfl rfl rfl (fun _ _ _ hs => hs) rfl
  heard := fun u s c r φ φs _ _ _ h => h.idle (fun _ => rfl) rfl rfl rfl (fun _ _ _ hs => hs) rfl
  outside := by
    rintro u s _ φs rfl h
    exact ⟨h.gate, h.inOrder, h.returned, h.waiting, h.nodup, h.bounded, h.full, h.counted⟩

/-- A part that can go on by itself: it asks for no slot, waits for none, and waits for no other part. -/
inductive Ready (workflow : WorkflowDefinition) (memory : RunMemory) : Code → Prop where
  | act {action : Action} {next : Code} : (engineWorld workflow).enabled action memory = true →
      (∀ key, action ≠ .acquire key) → Ready workflow memory (.act action next)
  | look (next : RunMemory → Code) : Ready workflow memory (.look next)
  | call (call : StepCall) (next : StepReply → Code) : Ready workflow memory (.call call next)

theorem ready_of_holdsSlot {part : Code} {φ : SlotPhase} (h : GoesOn slots (ApartOf clash) part φ)
    (hs : φ.holdsSlot memory.gate = true) : Ready workflow memory part := by
  have hfree : φ ≠ .free := by
    rintro rfl
    cases hs
  obtain ⟨hidle, -⟩ | ⟨home, hk⟩ := h
  · exact absurd hidle hfree
  · cases part with
    | done result => exact absurd hk hfree
    | look next => exact .look next
    | call call next => exact .call call next
    | fork size stop lane task join => exact absurd hk.1 hfree
    | act action next =>
      obtain ⟨φ', hm, -, -⟩ := hk
      cases hm with
      | ask key step => exact absurd rfl hfree
      | grant key step => exact .act hs (by simp)
      | _ => exact .act rfl (by simp)

/-- What holds at every moment of a run, of its parts with the slots they hold. -/
structure CeilingHolds (workflow : WorkflowDefinition) (t : Trace) (memory : RunMemory) (code : Code)
    (phases : List SlotPhase) : Prop where
  goesOn : List.Forall₂ (GoesOn slots (ApartOf (OverlapIn workflow.nodes))) code.parts phases
  bounded : (phases.filter (SlotPhase.holdsSlot memory.gate)).length ≤ max 1 workflow.maxConcurrency
  inOrder : asksOf t = (turnsOf (max 1 workflow.maxConcurrency) t).admitted ++ memory.gate.queue
  returned : (turnsOf (max 1 workflow.maxConcurrency) t).admitted.length =
    releases t + (phases.filter (SlotPhase.holdsSlot memory.gate)).length
  full : memory.gate.queue ≠ [] →
    (phases.filter (SlotPhase.holdsSlot memory.gate)).length = max 1 workflow.maxConcurrency
  ready : ∀ held ∈ code.parts.zip phases, held.2.holdsSlot memory.gate = true → Ready workflow memory held.1
  settled : ∀ result, code = .done result → (asksOf t).length = releases t

def SlotPhase.waitsFor (gate : ConcurrencyGate) : SlotPhase → Option NodePath
  | .asked key _ => if key ∈ gate.queue then some key else none
  | _ => none

theorem waitsFor_eq_some {gate : ConcurrencyGate} {φ : SlotPhase} {key : NodePath} :
    φ.waitsFor gate = some key ↔ key ∈ gate.queue ∧ ∃ step, φ = .asked key step := by
  cases φ with
  | asked other step =>
    simp only [SlotPhase.waitsFor, Option.ite_none_right_eq_some, Option.some.injEq, SlotPhase.asked.injEq]
    constructor
    · rintro ⟨hm, rfl⟩
      exact ⟨hm, step, rfl, rfl⟩
    · rintro ⟨hm, _, rfl, -⟩
      exact ⟨hm, rfl⟩
  | _ => simp [SlotPhase.waitsFor]

theorem GateHolds.waits_perm (h : GateHolds limit t memory φs) (hp : φs.Pairwise (ApartOf clash)) (hk : Keyed clash) :
    (φs.filterMap (SlotPhase.waitsFor memory.gate)).Perm memory.gate.queue := by
  refine (List.perm_ext_iff_of_nodup ?_ h.nodup).mpr ?_
  · refine List.Pairwise.filterMap _ ?_ hp
    rintro φ ψ ⟨key, step, key', step', hφ, hψ, ho⟩ a ha b hb rfl
    obtain ⟨-, _, rfl⟩ := waitsFor_eq_some.mp ha
    obtain ⟨-, _, rfl⟩ := waitsFor_eq_some.mp hb
    cases hφ
    cases hψ
    exact hk _ _ _ _ ho rfl
  · intro key
    rw [List.mem_filterMap]
    constructor
    · rintro ⟨φ, -, hφ⟩
      exact (waitsFor_eq_some.mp hφ).1
    · intro hm
      obtain ⟨step, hs⟩ := h.waiting key hm
      exact ⟨_, hs, waitsFor_eq_some.mpr ⟨hm, step, rfl⟩⟩

theorem GateHolds.length_holders (h : GateHolds limit t memory φs) (hp : φs.Pairwise (ApartOf clash))
    (hk : Keyed clash) (hb : ∀ φ ∈ φs, φ.busy = true) :
    (φs.filter (SlotPhase.holdsSlot memory.gate)).length = memory.gate.active := by
  have hwaits := (h.waits_perm hp hk).length_eq
  have hcounted := h.counted
  have hsplit := List.length_eq_countP_add_countP (fun φ => (SlotPhase.waitsFor memory.gate φ).isSome) (l := φs)
  rw [List.length_filterMap_eq_countP] at hwaits
  have hholders : φs.countP (SlotPhase.holdsSlot memory.gate) =
      φs.countP (fun φ => decide ¬(SlotPhase.waitsFor memory.gate φ).isSome = true) := by
    refine List.countP_congr (fun φ hφ => ?_)
    have hbusy := hb φ hφ
    cases φ with
    | free => cases hbusy
    | asked key step =>
      by_cases hq : key ∈ memory.gate.queue <;> simp [SlotPhase.holdsSlot, SlotPhase.waitsFor, hq]
    | holding key step flying => simp [SlotPhase.holdsSlot, SlotPhase.waitsFor]
  rw [← List.countP_eq_length_filter, hholders]
  omega

theorem filter_holdsSlot (gate : ConcurrencyGate) (phases : List SlotPhase) :
    phases.filter (SlotPhase.holdsSlot gate) = (phases.filter slots.busy).filter (SlotPhase.holdsSlot gate) := by
  rw [List.filter_filter]
  refine List.filter_congr (fun φ _ => ?_)
  cases φ <;> simp [SlotPhase.holdsSlot, slots, SlotPhase.busy]

/-- Whatever the schedule, the replies and the exceptions, the ceiling holds at every moment of a call. -/
theorem ceiling_holds (hc : Committed workflow) (hl : launch workflow log call = .ok launched)
    (ht : Throws launched.code start) (hr : Proc.Run start t code)
    (hw : Replay (engineWorld workflow) (launched.memory log) t memory) :
    ∃ phases, CeilingHolds workflow t memory code phases := by
  have hkeyed := keyed_overlapIn workflow.nodes
  obtain ⟨φs, hstands, hnone⟩ := stands_of_keeps (keeps_throws ht (slotted_launch hc hl)) (fun hb => by cases hb)
  have hstart : GateHolds (max 1 workflow.maxConcurrency) [] (launched.memory log) (φs.filter slots.busy) := by
    rw [hnone]
    exact ⟨rfl, rfl, rfl, fun _ hm => absurd hm List.not_mem_nil, .nil, Nat.zero_le _, fun hn => absurd rfl hn, rfl⟩
  obtain ⟨phases, hends, h⟩ := stands_run (kept_gateHolds hkeyed) hstands hr hw hstart
  have hholders := h.length_holders (apart_of_stands hends) hkeyed (fun φ hφ => (List.mem_filter.mp hφ).2)
  rw [← filter_holdsSlot] at hholders
  have hparts := parts_of_stands hends
  refine ⟨phases, hparts, hholders.symm ▸ h.bounded, h.inOrder, hholders.symm ▸ h.returned,
    fun hn => hholders.trans (h.full hn), ?_, ?_⟩
  · intro held hm hs
    exact ready_of_holdsSlot (List.forall₂_iff_zip.mp hparts |>.2 hm) hs
  · rintro result rfl
    obtain ⟨φ, rfl, -, hφ⟩ := hends
    obtain rfl : φ = .free := hφ
    have hcounted := h.counted
    have hreturned := h.returned
    have horder := congrArg List.length h.inOrder
    rw [filter_free, List.length_nil] at hcounted
    rw [List.nil_append, List.length_append] at horder
    rw [List.nil_append] at hreturned
    omega

section Sample

def duet : WorkflowDefinition :=
  { name := "duet", nodes := [.parallel "both" [.function { name := "left" }, .function { name := "right" }]] }

def quartet : WorkflowDefinition :=
  { name := "quartet", maxConcurrency := 2
    nodes := [.foreach "each" duet.nodes (fun _ => .ok (.array [.null, .null])) 2 false] }

theorem committed_duet : Committed duet := .flat (show duet.nodes.flatMap bodiesOf = [] from rfl) rfl

theorem committed_quartet : Committed quartet :=
  .assembled [duet] (List.forall_mem_singleton.mpr committed_duet)
    (show quartet.nodes.flatMap bodiesOf = _ from rfl) rfl

def quartetKey (item : Nat) (arm : String) : NodePath :=
  [{ name := "each", index := some (.foreach, item) }, { name := "both" }, { name := arm }]

theorem quartet_ceiling_holds : ∃ t code memory phases, CeilingHolds quartet t memory code phases ∧
    memory.gate.active = 2 ∧ memory.gate.queue = [quartetKey 1 "left", quartetKey 1 "right"] ∧
    memory.inFlight = [quartetKey 0 "right", quartetKey 0 "left"] := by
  obtain ⟨launched, hl⟩ : ∃ launched, launch quartet [] (.run "run-1" .null) = .ok launched := ⟨_, rfl⟩
  obtain ⟨t, hr, hw⟩ := pursue_sound (engineWorld quartet) 40 launched.code [] (launched.memory [])
  obtain ⟨phases, h⟩ := ceiling_holds committed_quartet hl (.same _) hr hw
  cases hl
  exact ⟨t, _, _, phases, h, rfl, rfl, rfl⟩

end Sample

end KimchiWorkflows.Engine
