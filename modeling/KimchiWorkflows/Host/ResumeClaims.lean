import KimchiWorkflows.Host.Subagents

/-!
Which claims stay behind: those of calls that fail between the claim and the subagent.
-/

namespace KimchiWorkflows.Host.Subagents

open Stepping

variable {hashOf : List Char → Nat → List Char} {join : String → List Char → String} {s s' : HostProcess}
  {id : Nat} {dir file : String} {request : BackgroundRequest} {aborted : Bool} {around : Surroundings}
  {actions : List ProcessAct} {call other : PendingCall} {removes : Except String Unit}

structure Ready (request : BackgroundRequest) (around : Surroundings) : Prop where
  model : ∀ model, request.model.filter (· ≠ "") = some model → around.findsModel model = true
  handoff : request.hasOutputSchema = true → ∃ file, around.writesHandoff = .ok file
  invocation : around.resolvesInvocation = .ok ()

theorem checkModel_ok_iff : checkModel request around = .ok () ↔
    ∀ model, request.model.filter (· ≠ "") = some model → around.findsModel model = true := by
  unfold checkModel
  cases request.model.filter (· ≠ "") with
  | none => simp
  | some model => cases around.findsModel model <;> simp

theorem writeHandoff_ok_iff : (∃ handoff, writeHandoff request around = .ok handoff) ↔
    (request.hasOutputSchema = true → ∃ file, around.writesHandoff = .ok file) := by
  unfold writeHandoff
  cases request.hasOutputSchema <;> cases around.writesHandoff <;> simp [Except.map]

theorem prepare_ok_iff : (∃ handoff, prepare request around = .ok handoff) ↔ Ready request around := by
  constructor
  · rintro ⟨handoff, h⟩
    unfold prepare at h
    cases hm : checkModel request around with
    | error error => simp [hm, bind, Except.bind] at h
    | ok =>
      cases hw : writeHandoff request around with
      | error error => simp [hm, hw, bind, Except.bind] at h
      | ok written =>
        cases hi : around.resolvesInvocation with
        | error error => simp [hm, hw, hi, bind, Except.bind] at h
        | ok => exact ⟨checkModel_ok_iff.mp hm, writeHandoff_ok_iff.mp ⟨written, hw⟩, hi⟩
  · rintro ⟨hm, hh, hi⟩
    obtain ⟨handoff, hw⟩ := writeHandoff_ok_iff.mpr hh
    refine ⟨handoff, ?_⟩
    simp [prepare, checkModel_ok_iff.mpr hm, hw, hi, bind, Except.bind, pure, Except.pure]

/-- The files that keyed calls are at work on are claimed by them, each by one. -/
structure Held (s : HostProcess) : Prop where
  ids : (s.seats.map Seat.id).Nodup
  held : ∀ seat ∈ s.seats, seat.request.keyed = true → s.liveResumeFiles seat.file = some seat.request.path
  apart : s.seats.Pairwise (fun p q => p.request.keyed = true → q.request.keyed = true → p.file ≠ q.file)

def Exact (s : HostProcess) : Prop :=
  ∀ file, s.liveResumeFiles file ≠ none → ∃ seat ∈ s.seats, seat.request.keyed = true ∧ seat.file = file

inductive Sent (s : HostProcess) (id : Nat) (file : String) (request : BackgroundRequest) (aborted : Bool)
    (around : Surroundings) : HostProcess → Prop where
  | failed (outcome : Except String String) :
      (request.keyed = true → around.makesDirectory = .ok () → s.liveResumeFiles file = none → Ready request around) →
      Sent s id file request aborted around (settle s id outcome)
  | leaked (outcome : Except String String) : request.keyed = true → s.liveResumeFiles file = none →
      around.makesDirectory = .ok () → ¬Ready request around → Sent s id file request aborted around
        (settle { s with liveResumeFiles := Function.update s.liveResumeFiles file (some request.path) } id outcome)
  | started (table : String → Option String) (handoff : Option String) (child : Child) : Ready request around →
      (request.keyed = false ∧ table = s.liveResumeFiles ∨ request.keyed = true ∧ s.liveResumeFiles file = none ∧
        table = Function.update s.liveResumeFiles file (some request.path)) →
      Sent s id file request aborted around { s with
        liveResumeFiles := table
        pending := s.pending ++ [⟨id, request, file, handoff, aborted, child⟩] }

theorem sent_sendAndAwaitEnd : Sent s id (sessionPath hashOf join dir request) request aborted around
    (sendAndAwaitEnd hashOf join s id dir request aborted around) := by
  unfold sendAndAwaitEnd
  cases hd : around.makesDirectory with
  | error error => exact .failed _ (by simp [hd])
  | ok =>
    cases hk : request.keyed with
    | false =>
      simp only [claimResumeFile, hk, Bool.false_eq_true, if_false]
      cases hp : prepare request around with
      | error error => exact .failed _ (by simp [hk])
      | ok handoff => exact .started _ handoff _ (prepare_ok_iff.mp ⟨handoff, hp⟩) (.inl ⟨hk, rfl⟩)
    | true =>
      cases ht : s.liveResumeFiles (sessionPath hashOf join dir request) with
      | some holder =>
        simp only [claimResumeFile, hk, if_true, ht]
        exact .failed _ (by simp [ht])
      | none =>
        simp only [claimResumeFile, hk, if_true, ht]
        cases hp : prepare request around with
        | error error =>
          refine .leaked _ hk ht hd ?_
          intro hready
          obtain ⟨handoff, hok⟩ := prepare_ok_iff.mpr hready
          rw [hp] at hok
          cases hok
        | ok handoff => exact .started _ handoff _ (prepare_ok_iff.mp ⟨handoff, hp⟩) (.inr ⟨hk, ht, rfl⟩)

/-- A keyed call that gets its file gets ready too, and its hand-off file can be removed again. -/
def Tidy (hashOf : List Char → Nat → List Char) (join : String → List Char → String) (s : HostProcess) :
    ProcessAct → Prop
  | .send _ dir request _ around => request.keyed = true → around.makesDirectory = .ok () →
      s.liveResumeFiles (sessionPath hashOf join dir request) = none → Ready request around
  | .settle id removes => ∀ call ∈ s.pending, call.id = id → call.request.keyed = true → call.handoff ≠ none →
      removes = .ok ()
  | _ => True

theorem seats_onCall {f : PendingCall → PendingCall} (hf : ∀ call, (f call).seat = call.seat) :
    (onCall s id f).seats = s.seats := by
  unfold HostProcess.seats onCall
  rw [List.map_map]
  apply List.map_congr_left
  intro call _
  simp only [Function.comp_apply]
  split
  · exact hf call
  · rfl

theorem seat_ends (call : PendingCall) (child : Child) : (call.ends child).seat = call.seat := by
  unfold PendingCall.ends
  split <;> rfl

theorem step_cases {a : ProcessAct} (h : step hashOf join s a = some s') :
    (s'.seats = s.seats ∧ s'.liveResumeFiles = s.liveResumeFiles ∧ Tidy hashOf join s a) ∨
      (∃ id dir request aborted around, a = .send id dir request aborted around ∧ id ∉ s.seats.map Seat.id ∧
        Sent s id (sessionPath hashOf join dir request) request aborted around s') ∨
      ∃ call ∈ s.pending, ∃ removes, a = .settle call.id removes ∧ s' = finish s call removes := by
  cases a with
  | send id dir request aborted around =>
    simp only [step, Option.ite_none_left_eq_some, Option.some.injEq] at h
    obtain ⟨hnew, rfl⟩ := h
    refine .inr (.inl ⟨id, dir, request, aborted, around, rfl, ?_, sent_sendAndAwaitEnd⟩)
    intro hm
    apply hnew
    rw [HostProcess.seats, List.map_map] at hm
    rw [HostProcess.knows, List.contains_iff_mem, List.mem_append]
    exact .inl hm
  | abort id =>
    cases h
    exact .inl ⟨seats_onCall (fun _ => rfl), rfl, trivial⟩
  | exit id code stderrTail reply =>
    cases h
    exact .inl ⟨seats_onCall (fun call => seat_ends call _), rfl, trivial⟩
  | fail id error =>
    cases h
    exact .inl ⟨seats_onCall (fun call => seat_ends call _), rfl, trivial⟩
  | settle id removes =>
    simp only [step, Option.bind_eq_some_iff, Option.ite_none_left_eq_some, Option.some.injEq] at h
    obtain ⟨call, hfind, -, rfl⟩ := h
    obtain rfl : call.id = id := by simpa using List.find?_some hfind
    exact .inr (.inr ⟨call, List.mem_of_find?_eq_some hfind, removes, rfl, rfl⟩)

theorem seats_finish : (finish s call removes).seats = s.seats.filter (·.id ≠ call.id) := by
  have hfilter : (s.pending.filter (·.id ≠ call.id)).map PendingCall.seat =
      (s.pending.map PendingCall.seat).filter (·.id ≠ call.id) := by
    rw [List.filter_map]
    rfl
  unfold finish
  split <;> exact hfilter

/-- A call that settles gives its file back, unless its hand-off file cannot be removed. -/
theorem table_finish (h : Held s) (hm : call ∈ s.pending) :
    (finish s call removes).liveResumeFiles =
      if call.request.keyed = true ∧ (call.handoff ≠ none → removes = .ok ()) then
        Function.update s.liveResumeFiles call.file none
      else s.liveResumeFiles := by
  have hrelease : releaseResumeFile s.liveResumeFiles call.file call.request =
      if call.request.keyed = true then Function.update s.liveResumeFiles call.file none else s.liveResumeFiles := by
    unfold releaseResumeFile
    by_cases hk : call.request.keyed = true
    · have := h.held call.seat (List.mem_map_of_mem hm) hk
      rw [if_pos hk, if_pos ⟨hk, this⟩]
    · rw [if_neg hk, if_neg (fun hb => hk hb.1)]
  unfold finish
  cases hh : call.handoff with
  | none => simp [settle, hrelease]
  | some file => cases removes <;> simp [settle, hrelease]

end KimchiWorkflows.Host.Subagents
