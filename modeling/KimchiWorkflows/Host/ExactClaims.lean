import KimchiWorkflows.Host.ResumeClaims
import Mathlib.Data.List.Nodup

namespace KimchiWorkflows.Host.Subagents

open Stepping

variable {hashOf : List Char → Nat → List Char} {join : String → List Char → String} {s s' : HostProcess}
  {id : Nat} {file : String} {request : BackgroundRequest} {aborted : Bool} {around : Surroundings}
  {actions : List ProcessAct} {call : PendingCall} {removes : Except String Unit} {a : ProcessAct}

theorem Held.eq_of_file (h : Held s) {p q : Seat} (hp : p ∈ s.seats) (hq : q ∈ s.seats)
    (hkp : p.request.keyed = true) (hkq : q.request.keyed = true) (hf : p.file = q.file) : p = q := by
  by_contra hne
  have hsymm : Std.Symm (fun p q : Seat => p.request.keyed = true → q.request.keyed = true → p.file ≠ q.file) :=
    ⟨fun _ _ hr hq hp he => hr hp hq he.symm⟩
  exact h.apart.forall hp hq hne hkp hkq hf

theorem Held.eq_of_id (h : Held s) {p q : Seat} (hp : p ∈ s.seats) (hq : q ∈ s.seats) (hid : p.id = q.id) : p = q :=
  List.inj_on_of_nodup_map h.ids hp hq hid

theorem Held.congr (h : Held s) (hseats : s'.seats = s.seats) (htable : s'.liveResumeFiles = s.liveResumeFiles) :
    Held s' := by
  refine ⟨?_, ?_, ?_⟩
  · rw [hseats]
    exact h.ids
  · rw [hseats, htable]
    exact h.held
  · rw [hseats]
    exact h.apart

theorem Exact.congr (h : Exact s) (hseats : s'.seats = s.seats) (htable : s'.liveResumeFiles = s.liveResumeFiles) :
    Exact s' := by
  unfold Exact
  rw [hseats, htable]
  exact h

theorem Held.sent (h : Held s) (hnew : id ∉ s.seats.map Seat.id)
    (hs : Sent s id file request aborted around s') : Held s' := by
  have hne (hfree : s.liveResumeFiles file = none) (seat : Seat) (hm : seat ∈ s.seats)
      (hk : seat.request.keyed = true) : seat.file ≠ file := by
    rintro rfl
    rw [h.held seat hm hk] at hfree
    cases hfree
  cases hs with
  | failed => exact h.congr rfl rfl
  | leaked outcome _ hfree =>
    refine ⟨h.ids, ?_, h.apart⟩
    intro seat hm hk
    show Function.update s.liveResumeFiles file (some request.path) seat.file = _
    rw [Function.update_of_ne (hne hfree seat hm hk)]
    exact h.held seat hm hk
  | started table handoff child _ ht =>
    have hseats : ∀ t : HostProcess, t.pending = s.pending ++ [⟨id, request, file, handoff, aborted, child⟩] →
        t.seats = s.seats ++ [⟨id, request, file⟩] := by
      intro t hp
      simp [HostProcess.seats, hp, PendingCall.seat]
    refine ⟨?_, ?_, ?_⟩
    · rw [hseats _ rfl, List.map_append, List.nodup_append]
      refine ⟨h.ids, by simp, ?_⟩
      rintro other hm _ hl rfl
      obtain rfl := List.mem_singleton.mp hl
      exact hnew hm
    · rw [hseats _ rfl]
      intro seat hm hk
      show table seat.file = _
      obtain hm | hm := List.mem_append.mp hm
      · obtain ⟨-, rfl⟩ | ⟨-, hfree, rfl⟩ := ht
        · exact h.held seat hm hk
        · rw [Function.update_of_ne (hne hfree seat hm hk)]
          exact h.held seat hm hk
      · obtain rfl := List.mem_singleton.mp hm
        obtain ⟨hk', -⟩ | ⟨-, -, rfl⟩ := ht
        · simp [hk'] at hk
        · simp
    · rw [hseats _ rfl, List.pairwise_append]
      refine ⟨h.apart, List.pairwise_singleton _ _, ?_⟩
      intro seat hm last hl hk hk'
      obtain rfl := List.mem_singleton.mp hl
      obtain ⟨hunkeyed, -⟩ | ⟨-, hfree, -⟩ := ht
      · simp [hunkeyed] at hk'
      · exact hne hfree seat hm hk

theorem Held.finish (h : Held s) (hm : call ∈ s.pending) : Held (finish s call removes) := by
  have hsub : (s.seats.filter (·.id ≠ call.id)).Sublist s.seats := List.filter_sublist
  refine ⟨?_, ?_, ?_⟩
  · rw [seats_finish]
    exact h.ids.sublist (hsub.map _)
  · rw [seats_finish, table_finish h hm]
    intro seat hseat hk
    obtain ⟨hin, hne⟩ := List.mem_filter.mp hseat
    have hheld := h.held seat hin hk
    split
    · rename_i hkeyed
      have hfile : seat.file ≠ call.file := by
        intro hf
        have : seat = call.seat := h.eq_of_file hin (List.mem_map_of_mem hm) hk hkeyed.1 hf
        simp [this, PendingCall.seat] at hne
      rw [Function.update_of_ne hfile]
      exact hheld
    · exact hheld
  · rw [seats_finish]
    exact h.apart.sublist hsub

theorem held_step (h : Held s) (hs : step hashOf join s a = some s') : Held s' := by
  obtain ⟨hseats, htable, -⟩ | ⟨_, _, _, _, _, -, hnew, hsent⟩ | ⟨call, hm, removes, -, rfl⟩ := step_cases hs
  · exact h.congr hseats htable
  · exact h.sent hnew hsent
  · exact h.finish hm

theorem held_empty : Held {} := ⟨List.nodup_nil, by simp [HostProcess.seats], List.Pairwise.nil⟩

theorem held_of_run {Meets : HostProcess → ProcessAct → Prop} (h : Run (step hashOf join) Meets {} actions s) :
    Held s := h.keeps held_empty (fun _ _ _ hi _ hs => held_step hi hs)

/-- Before its first pause a call spoils the claims only by failing after its own. -/
theorem exact_sent_iff (h : Held s) (hs : Sent s id file request aborted around s') :
    Exact s' ↔ Exact s ∧ (request.keyed = true → around.makesDirectory = .ok () → s.liveResumeFiles file = none →
      Ready request around) := by
  cases hs with
  | failed outcome hready => exact ⟨fun he => ⟨he, hready⟩, fun he => he.1⟩
  | leaked outcome hk hfree hd hn =>
    refine ⟨?_, fun he => absurd (he.2 hk hd hfree) hn⟩
    intro he
    have hclaimed : Function.update s.liveResumeFiles file (some request.path) file ≠ none := by simp
    obtain ⟨seat, hm, hkeyed, rfl⟩ := he file hclaimed
    have hheld := h.held seat hm hkeyed
    rw [hfree] at hheld
    cases hheld
  | started table handoff child hready ht =>
    have hseats : ∀ t : HostProcess, t.pending = s.pending ++ [⟨id, request, file, handoff, aborted, child⟩] →
        t.seats = s.seats ++ [⟨id, request, file⟩] := by
      intro t hp
      simp [HostProcess.seats, hp, PendingCall.seat]
    unfold Exact
    rw [hseats _ rfl]
    refine ⟨fun he => ⟨?_, fun _ _ _ => hready⟩, ?_⟩
    · intro other hclaimed
      have hkept : table other ≠ none := by
        obtain ⟨-, rfl⟩ | ⟨-, hfree, rfl⟩ := ht
        · exact hclaimed
        · have hne : other ≠ file := by
            rintro rfl
            exact hclaimed hfree
          rwa [Function.update_of_ne hne]
      obtain ⟨seat, hm, hk, rfl⟩ := he other hkept
      obtain hm | hm := List.mem_append.mp hm
      · exact ⟨seat, hm, hk, rfl⟩
      · obtain rfl := List.mem_singleton.mp hm
        obtain ⟨hunkeyed, -⟩ | ⟨-, hfree, -⟩ := ht
        · simp [hunkeyed] at hk
        · exact absurd hfree hclaimed
    · rintro ⟨he, -⟩ other hclaimed
      have hother : other = file ∧ request.keyed = true ∨ s.liveResumeFiles other ≠ none := by
        obtain ⟨-, rfl⟩ | ⟨hk, -, rfl⟩ := ht
        · exact .inr hclaimed
        · by_cases hf : other = file
          · exact .inl ⟨hf, hk⟩
          · replace hclaimed : Function.update s.liveResumeFiles file (some request.path) other ≠ none := hclaimed
            rw [Function.update_of_ne hf] at hclaimed
            exact .inr hclaimed
      obtain ⟨rfl, hk⟩ | hold := hother
      · exact ⟨_, List.mem_append_right _ (List.mem_singleton_self _), hk, rfl⟩
      · obtain ⟨seat, hm, hk, rfl⟩ := he other hold
        exact ⟨seat, List.mem_append_left _ hm, hk, rfl⟩

theorem exact_finish_iff (h : Held s) (hm : call ∈ s.pending) :
    Exact (finish s call removes) ↔
      Exact s ∧ (call.request.keyed = true → call.handoff ≠ none → removes = .ok ()) := by
  have hseat : call.seat ∈ s.seats := List.mem_map_of_mem hm
  unfold Exact
  rw [table_finish h hm, seats_finish]
  by_cases hback : call.request.keyed = true ∧ (call.handoff ≠ none → removes = .ok ())
  · rw [if_pos hback]
    refine ⟨fun he => ⟨?_, fun _ => hback.2⟩, ?_⟩
    · intro file hclaimed
      by_cases hf : file = call.file
      · exact ⟨call.seat, hseat, hback.1, hf.symm⟩
      · obtain ⟨seat, hin, hk, rfl⟩ := he file (by rwa [Function.update_of_ne hf])
        exact ⟨seat, List.mem_of_mem_filter hin, hk, rfl⟩
    · rintro ⟨he, -⟩ file hclaimed
      have hf : file ≠ call.file := by
        rintro rfl
        simp at hclaimed
      rw [Function.update_of_ne hf] at hclaimed
      obtain ⟨seat, hin, hk, rfl⟩ := he file hclaimed
      refine ⟨seat, List.mem_filter.mpr ⟨hin, ?_⟩, hk, rfl⟩
      have hne : seat.id ≠ call.id := by
        intro hid
        have : seat = call.seat := h.eq_of_id hin hseat hid
        exact hf (by rw [this, PendingCall.seat])
      simpa using hne
  · rw [if_neg hback]
    have hkept (he : ∀ file, s.liveResumeFiles file ≠ none →
        ∃ seat ∈ s.seats.filter (·.id ≠ call.id), seat.request.keyed = true ∧ seat.file = file) :
        call.request.keyed = false := by
      by_contra hk
      have hk : call.request.keyed = true := by simpa using hk
      have hheld := h.held call.seat hseat hk
      obtain ⟨seat, hin, hkeyed, hf⟩ := he call.file (by rw [show call.file = call.seat.file from rfl, hheld]; simp)
      obtain ⟨hin, hne⟩ := List.mem_filter.mp hin
      have : seat = call.seat := h.eq_of_file hin hseat hkeyed hk hf
      simp [this, PendingCall.seat] at hne
    constructor
    · intro he
      refine ⟨?_, fun hk => absurd (hkept he) (by simp [hk])⟩
      intro file hclaimed
      obtain ⟨seat, hin, hk, rfl⟩ := he file hclaimed
      exact ⟨seat, List.mem_of_mem_filter hin, hk, rfl⟩
    · rintro ⟨he, himp⟩ file hclaimed
      have hunkeyed : call.request.keyed ≠ true := fun hk => hback ⟨hk, himp hk⟩
      obtain ⟨seat, hin, hk, rfl⟩ := he file hclaimed
      refine ⟨seat, List.mem_filter.mpr ⟨hin, ?_⟩, hk, rfl⟩
      have hne : seat.id ≠ call.id := by
        intro hid
        have : seat = call.seat := h.eq_of_id hin hseat hid
        exact hunkeyed (by rw [this] at hk; exact hk)
      simpa using hne

theorem exact_step_iff (h : Held s) (hs : step hashOf join s a = some s') :
    Exact s' ↔ Exact s ∧ Tidy hashOf join s a := by
  obtain ⟨hseats, htable, htidy⟩ | ⟨_, _, _, _, _, rfl, -, hsent⟩ | ⟨call, hm, removes, rfl, rfl⟩ := step_cases hs
  · exact ⟨fun he => ⟨he.congr hseats.symm htable.symm, htidy⟩, fun he => he.1.congr hseats htable⟩
  · exact exact_sent_iff h hsent
  · rw [exact_finish_iff h hm]
    refine and_congr_right (fun _ => ?_)
    constructor
    · intro himp other hother hid hk hn
      have hsame : other = call := by
        have hnodup : (s.pending.map PendingCall.id).Nodup := by
          have := h.ids
          rwa [HostProcess.seats, List.map_map] at this
        exact List.inj_on_of_nodup_map hnodup hother hm hid
      subst hsame
      exact himp hk hn
    · intro htidy hk hn
      exact htidy call hm rfl hk hn

end KimchiWorkflows.Host.Subagents
