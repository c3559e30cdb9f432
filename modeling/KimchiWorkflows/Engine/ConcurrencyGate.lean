import KimchiWorkflows.Engine.SlotKeeping
import KimchiWorkflows.Engine.Calls

/-!
The gate of a run against the phases of its parts: who holds a slot, who waits for one, and in which order
the waiting are admitted.
-/

namespace KimchiWorkflows.Engine

open KimchiWorkflows.Flow Process Process.Proc Scheduling

/-- A gate with the keys it has given a slot to, in that order. -/
structure Turns where
  gate : ConcurrencyGate := {}
  admitted : List NodePath := []

def Turns.next (limit : Nat) (turns : Turns) : Label RunMemory Action StepCall StepReply → Turns
  | .did (.acquire key) =>
    { gate := turns.gate.acquire limit key
      admitted := turns.admitted ++ if turns.gate.active < limit then [key] else [] }
  | .did .release => { gate := turns.gate.release, admitted := turns.admitted ++ turns.gate.queue.head?.toList }
  | _ => turns

def turnsOf (limit : Nat) (t : Trace) : Turns := t.foldl (Turns.next limit) {}

def askOf : Label RunMemory Action StepCall StepReply → Option NodePath
  | .did (.acquire key) => some key
  | _ => none

def asksOf (t : Trace) : List NodePath := t.filterMap askOf

def isRelease : Label RunMemory Action StepCall StepReply → Bool
  | .did .release => true
  | _ => false

def releases (t : Trace) : Nat := t.countP isRelease

/-- A step that has asked holds a slot once it waits no longer. -/
def SlotPhase.holdsSlot (gate : ConcurrencyGate) : SlotPhase → Bool
  | .free => false
  | .asked key _ => key ∉ gate.queue
  | .holding _ _ _ => true

theorem turnsOf_append (limit : Nat) (t : Trace) (label : Label RunMemory Action StepCall StepReply) :
    turnsOf limit (t ++ [label]) = (turnsOf limit t).next limit label := by
  simp [turnsOf]

theorem asksOf_append (t u : Trace) : asksOf (t ++ u) = asksOf t ++ asksOf u := List.filterMap_append

theorem releases_append (t u : Trace) : releases (t ++ u) = releases t + releases u := List.countP_append

/-- The gate after a trace, with the phases of the busy parts. -/
structure GateHolds (limit : Nat) (t : Trace) (memory : RunMemory) (φs : List SlotPhase) : Prop where
  gate : (turnsOf limit t).gate = memory.gate
  inOrder : asksOf t = (turnsOf limit t).admitted ++ memory.gate.queue
  returned : (turnsOf limit t).admitted.length = releases t + memory.gate.active
  waiting : ∀ key ∈ memory.gate.queue, ∃ step, SlotPhase.asked key step ∈ φs
  nodup : memory.gate.queue.Nodup
  bounded : memory.gate.active ≤ limit
  full : memory.gate.queue ≠ [] → memory.gate.active = limit
  counted : memory.gate.active + memory.gate.queue.length = φs.length

variable {limit : Nat} {t : Trace} {memory memory' : RunMemory} {φs φs' before after : List SlotPhase}
  {label : Label RunMemory Action StepCall StepReply} {key : NodePath} {step : StepDefinition}
  {clash : NodePath → StepDefinition → NodePath → StepDefinition → Prop} {φ φ' : SlotPhase}

theorem GateHolds.idle (h : GateHolds limit t memory φs) (hl : ∀ turns, Turns.next limit turns label = turns)
    (ha : askOf label = none) (hr : isRelease label = false) (hg : memory'.gate = memory.gate)
    (hw : ∀ key ∈ memory.gate.queue, ∀ step, SlotPhase.asked key step ∈ φs → SlotPhase.asked key step ∈ φs')
    (hc : φs'.length = φs.length) : GateHolds limit (t ++ [label]) memory' φs' := by
  have hasks : asksOf [label] = [] := by simp [asksOf, ha]
  have hreleases : releases [label] = 0 := by simp [releases, hr]
  refine ⟨?_, ?_, ?_, ?_, hg ▸ h.nodup, hg ▸ h.bounded, hg ▸ h.full, ?_⟩
  · rw [turnsOf_append, hl, hg]
    exact h.gate
  · rw [turnsOf_append, hl, hg, asksOf_append, hasks, List.append_nil]
    exact h.inOrder
  · rw [turnsOf_append, hl, hg, releases_append, hreleases]
    exact h.returned
  · rw [hg]
    intro key hk
    obtain ⟨step, hs⟩ := h.waiting key hk
    exact ⟨step, hw key hk step hs⟩
  · rw [hg, hc]
    exact h.counted

theorem mem_replaced {φs : List SlotPhase} (hm : φ' ∈ before ++ [φ] ++ after) (hne : φ' ≠ φ) :
    φ' ∈ before ++ φs ++ after := by
  simp only [List.append_assoc, List.mem_append, List.mem_singleton] at hm ⊢
  obtain hm | rfl | hm := hm
  · exact .inl hm
  · exact absurd rfl hne
  · exact .inr (.inr hm)

theorem GateHolds.ask (h : GateHolds limit t memory (before ++ after)) (hn : key ∉ memory.gate.queue) :
    GateHolds limit (t ++ [.did (.acquire key)])
      { memory with gate := memory.gate.acquire limit key } (before ++ [.asked key step] ++ after) := by
  have hasks : asksOf [.did (.acquire key)] = [key] := rfl
  have hreleases : releases [.did (.acquire key)] = 0 := rfl
  have hin : ∀ ψ ∈ before ++ after, ψ ∈ before ++ [.asked key step] ++ after := by
    intro ψ hm
    simp only [List.append_assoc, List.mem_append] at hm ⊢
    exact hm.imp_right .inr
  have hlength : (before ++ [SlotPhase.asked key step] ++ after).length = (before ++ after).length + 1 := by
    simp only [List.length_append, List.length_singleton]
    omega
  by_cases hlt : memory.gate.active < limit
  · have hempty : memory.gate.queue = [] := by
      by_contra hq
      exact absurd (h.full hq) (Nat.ne_of_lt hlt)
    have hacquire : memory.gate.acquire limit key = { memory.gate with active := memory.gate.active + 1 } := if_pos hlt
    rw [hacquire]
    refine ⟨?_, ?_, ?_, ?_, h.nodup, hlt, fun hq => absurd hempty hq, ?_⟩
    · rw [turnsOf_append, Turns.next, h.gate, hacquire]
    · rw [turnsOf_append, Turns.next, h.gate, if_pos hlt, asksOf_append, hasks, h.inOrder, hempty]
      simp
    · have := h.returned
      rw [turnsOf_append, Turns.next, h.gate, if_pos hlt, releases_append, hreleases, List.length_append]
      simp only [List.length_singleton]
      omega
    · rw [hempty]
      intro key hk
      cases hk
    · have := h.counted
      rw [hlength]
      dsimp only
      omega
  · have hacquire : memory.gate.acquire limit key = { memory.gate with queue := memory.gate.queue ++ [key] } :=
      if_neg hlt
    have hfull : memory.gate.active = limit := Nat.le_antisymm h.bounded (not_lt.mp hlt)
    rw [hacquire]
    refine ⟨?_, ?_, ?_, ?_, ?_, h.bounded, fun _ => hfull, ?_⟩
    · rw [turnsOf_append, Turns.next, h.gate, hacquire]
    · rw [turnsOf_append, Turns.next, h.gate, if_neg hlt, asksOf_append, hasks, h.inOrder]
      simp
    · rw [turnsOf_append, Turns.next, h.gate, if_neg hlt, releases_append, hreleases, List.append_nil]
      exact h.returned
    · intro other hk
      obtain hk | hk := List.mem_append.mp hk
      · obtain ⟨step', hs⟩ := h.waiting other hk
        exact ⟨step', hin _ hs⟩
      · rw [List.mem_singleton.mp hk]
        exact ⟨step, by simp⟩
    · refine List.nodup_append.mpr ⟨h.nodup, List.nodup_singleton key, ?_⟩
      rintro other hk _ hm rfl
      rw [List.mem_singleton] at hm
      exact hn (hm ▸ hk)
    · have := h.counted
      rw [hlength, List.length_append]
      simp only [List.length_singleton]
      omega

/-- A returned slot goes to the step that has waited longest. -/
theorem GateHolds.release (h : GateHolds limit t memory (before ++ [.holding key step false] ++ after)) :
    GateHolds limit (t ++ [.did .release]) { memory with gate := memory.gate.release } (before ++ after) := by
  have hasks : asksOf [.did .release] = [] := rfl
  have hreleases : releases [.did .release] = 1 := rfl
  have hkept : ∀ other step', SlotPhase.asked other step' ∈ before ++ [.holding key step false] ++ after →
      SlotPhase.asked other step' ∈ before ++ after := by
    intro other step' hm
    have hrest : SlotPhase.asked other step' ∈ before ++ [] ++ after := mem_replaced hm (by simp)
    simpa using hrest
  have hlength : (before ++ [SlotPhase.holding key step false] ++ after).length = (before ++ after).length + 1 := by
    simp only [List.length_append, List.length_singleton]
    omega
  have hcounted := h.counted
  have hreturned := h.returned
  rw [hlength] at hcounted
  cases hq : memory.gate.queue with
  | nil =>
    have hrelease : memory.gate.release = { memory.gate with active := memory.gate.active - 1 } := by
      simp [ConcurrencyGate.release, hq]
    rw [hq, List.length_nil] at hcounted
    rw [hrelease]
    refine ⟨?_, ?_, ?_, ?_, h.nodup, ?_, fun hn => absurd hq hn, ?_⟩
    · rw [turnsOf_append, Turns.next, h.gate, hrelease]
    · rw [turnsOf_append, Turns.next, h.gate, hq, asksOf_append, hasks, h.inOrder, hq]
      simp
    · rw [turnsOf_append, Turns.next, h.gate, hq, releases_append, hreleases]
      simp only [List.head?_nil, Option.toList_none, List.append_nil]
      omega
    · rw [hq]
      intro key hk
      cases hk
    · have := h.bounded
      dsimp only
      omega
    · rw [hq]
      simp only [List.length_nil]
      omega
  | cons first rest =>
    have hrelease : memory.gate.release = { memory.gate with queue := rest } := by
      simp [ConcurrencyGate.release, hq]
    have hnodup := h.nodup
    rw [hq, List.nodup_cons] at hnodup
    rw [hq, List.length_cons] at hcounted
    rw [hrelease]
    refine ⟨?_, ?_, ?_, ?_, hnodup.2, h.bounded, fun _ => h.full (by simp [hq]), ?_⟩
    · rw [turnsOf_append, Turns.next, h.gate, hrelease]
    · rw [turnsOf_append, Turns.next, h.gate, hq, asksOf_append, hasks, h.inOrder, hq]
      simp
    · rw [turnsOf_append, Turns.next, h.gate, hq, releases_append, hreleases, List.length_append]
      simp only [List.head?_cons, Option.toList_some, List.length_singleton]
      omega
    · intro other hk
      obtain ⟨step', hs⟩ := h.waiting other (by simp [hq, show other ∈ rest from hk])
      exact ⟨step', hkept other step' hs⟩
    · dsimp only
      omega

end KimchiWorkflows.Engine
