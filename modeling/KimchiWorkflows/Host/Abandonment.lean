import KimchiWorkflows.Engine.CallStatus
import KimchiWorkflows.Host.Reconciliation
import KimchiWorkflows.Lib.Stepping

namespace KimchiWorkflows.Host

open KimchiWorkflows.Engine Stepping

/-- The run was abandoned: its owner is dead, or never recorded a terminal or blocking event; and a run
its owner settled and released is left as it is. -/
structure Just (v : Verdict) : Prop where
  abandoned : ∀ e, v.execution = some e → e ∈ v.dead ∨ e ∉ (tenureOf v.log).settled
  kept : v.lease = none → ∀ e, latestExecutionId v.log = some e → e ∈ (tenureOf v.log).settled → e ∈ v.lost

/-- The last execution has settled the run only if the log says so, or it died at work. -/
def Telling (log : List RunEvent) (lost : List String) : Prop :=
  ∀ e, latestExecutionId log = some e → e ∈ (tenureOf log).settled → inProgress log = true → e ∈ lost

namespace Site

variable {s s' : Site} {log events : List RunEvent} {dead lost : List String} {k : Nat} {e : String}

/-- The log of a run that has no lease has not grown since it was loaded; what an execution has settled the
log tells once it lets the lease go; and a marker is removed as a dead process's only if it still is. -/
def Current (s : Site) : Turn → Prop
  | .inspect k => s.lease = none → ∀ events, s.watchers k = .loaded .project events →
      inProgress events = true → s.log = events
  | .judge k => s.lease = none → ∀ events e, s.watchers k = .judging .project events e → e ∈ s.dead →
      s.log = events
  | .record k _ => ∀ events, s.watchers k = .absent events → s.log = events
  | .release _ _ => Telling s.log []
  | .straggle event => Telling (s.log ++ [event]) []
  | .sweep _ => ∀ owner, s.marker = some owner → s.watchers owner = .fallen
  | _ => True

theorem latestExecutionId_concat (log : List RunEvent) (event : RunEvent) :
    latestExecutionId (log ++ [event]) = (announces event).or (latestExecutionId log) := by
  simp [latestExecutionId]

theorem announced_concat (event : RunEvent) :
    Announced (log ++ [event]) e ↔ Announced log e ∨ announces event = some e := by
  simp only [Announced, List.mem_append, List.mem_singleton]
  constructor
  · rintro ⟨other, hm | rfl, he⟩
    · exact .inl ⟨other, hm, he⟩
    · exact .inr he
  · rintro (⟨other, hm, he⟩ | he)
    · exact ⟨other, .inl hm, he⟩
    · exact ⟨event, .inr rfl, he⟩

theorem inProgress_crashed (log : List RunEvent) (error : String) :
    inProgress (log ++ [.runCrashed none error]) = false := by
  have hclosed : ∀ key, (viewOf key (log ++ [.runCrashed none error])).isOpen = false :=
    closed_of_terminal (.inl rfl)
  have hno : ¬ hasState (deriveStepStates (log ++ [.runCrashed none error])) .inProgress = true := by
    rw [hasState_iff]
    rintro ⟨key, hk⟩
    exact ne_inProgress_of_closed (hclosed key) hk
  simp only [inProgress, decide_eq_false_iff_not, deriveRunStatus, lastTerminal_append, List.foldl_cons,
    List.foldl_nil, RunEvent.terminal, Option.some_or]
  split_ifs <;> simp

theorem telling_crashed (log : List RunEvent) (error : String) (lost : List String) :
    Telling (log ++ [.runCrashed none error]) lost := by
  intro e _ _ hp
  rw [inProgress_crashed] at hp
  cases hp

theorem telling_mono (h : Telling log lost) {lost' : List String} (hl : ∀ e ∈ lost, e ∈ lost') :
    Telling log lost' :=
  fun e he hs hp => hl e (h e he hs hp)

theorem telling_of_lost (h : latestExecutionId log = some e) (hd : e ∈ lost) : Telling log lost := by
  intro other hl _ _
  obtain rfl := Option.some.inj (h.symm.trans hl)
  exact hd

/-- An execution that is over, and dead if its crash is to be recorded. -/
structure Over (s : Site) (e : String) (crash : Bool) : Prop where
  rests : e ∉ s.active
  known : e ∈ s.known
  dead : crash = true → e ∈ s.dead

/-- What a call may rely on, at the point it has reached. -/
def Found (s : Site) (k : Nat) : Watcher → Prop
  | .idle => True
  | .fallen => True
  | .loaded _ events => events <+: s.log
  | .judging purpose events _ => events <+: s.log ∧ (purpose = .project → inProgress events = true)
  | .unowned events => events <+: s.log ∧ inProgress events = true
  | .absent events => events <+: s.log ∧ inProgress events = true ∧ (s.log = events → Telling events s.lost)
  | .retiring e crash _ => Over s e crash
  | .reading e crash _ => Over s e crash
  | .doubting _ e crash _ => Over s e crash
  | .sweeping e crash _ => Over s e crash
  | .marked e crash => Over s e crash ∧ s.marker = some k
  | .checked e => Over s e true ∧ s.lease = some e ∧ s.marker = some k
  | .removing e => Over s e false ∧ s.lease = some e ∧ s.marker = some k
  | .clearing => s.marker = some k

/-- An execution at work: the lease is its own, and the log is since it has announced itself. -/
structure AtWork (s : Site) (e : String) : Prop where
  known : e ∈ s.known
  owner : s.lease = some e
  alive : e ∉ s.dead
  writes : Announced s.log e → latestExecutionId s.log = some e

/-- Whoever executes the run owns its lease; where nobody does, its log tells whether it was settled. -/
structure Kept (s : Site) : Prop where
  working : ∀ e ∈ s.active, AtWork s e
  announced : ∀ e, Announced s.log e → e ∈ s.known
  mortal : ∀ e ∈ s.dead, e ∈ s.known
  fatal : ∀ e ∈ s.lost, e ∈ s.dead
  free : s.lease = none → Telling s.log s.lost
  held : ∀ e, s.lease = some e →
    Telling s.log s.lost ∨ latestExecutionId s.log = some e ∧ (e ∈ s.active ∨ e ∈ s.lost)
  found : ∀ k, Found s k (s.watchers k)
  just : ∀ v ∈ s.verdicts, Just v

variable {watcher : Watcher}

theorem Over.mono {crash : Bool} (h : Over s e crash) (ha : ∀ e ∈ s'.active, e ∈ s.known → e ∈ s.active)
    (hk : ∀ e ∈ s.known, e ∈ s'.known) (hd : ∀ e ∈ s.dead, e ∈ s'.dead) : Over s' e crash :=
  ⟨fun he => h.rests (ha e he h.known), hk e h.known, fun hc => hd e (h.dead hc)⟩

/-- What a call relies on stays while the log stays, nobody comes back, and its marker guards the lease. -/
theorem Found.mono (h : Found s k watcher) (hlog : s'.log = s.log) (hlost : ∀ e ∈ s.lost, e ∈ s'.lost)
    (hover : ∀ e crash, Over s e crash → Over s' e crash) (hmarker : s.marker = some k → s'.marker = some k)
    (hlease : s.marker = some k → ∀ e, s.lease = some e → s'.lease = some e) : Found s' k watcher := by
  have hfirst : ∀ {events}, events <+: s.log → events <+: s'.log := fun hp => hlog ▸ hp
  cases watcher with
  | idle => trivial
  | fallen => trivial
  | loaded purpose events => exact hfirst h
  | judging purpose events e => exact ⟨hfirst h.1, h.2⟩
  | unowned events => exact ⟨hfirst h.1, h.2⟩
  | absent events => exact ⟨hfirst h.1, h.2.1, fun hl => telling_mono (h.2.2 (hlog.symm.trans hl)) hlost⟩
  | marked e crash => exact ⟨hover _ _ h.1, hmarker h.2⟩
  | checked e => exact ⟨hover _ _ h.1, hlease h.2.2 e h.2.1, hmarker h.2.2⟩
  | removing e => exact ⟨hover _ _ h.1, hlease h.2.2 e h.2.1, hmarker h.2.2⟩
  | clearing => exact hmarker h
  | _ => exact hover _ _ h

theorem Found.append (h : Found s k watcher) (event : RunEvent) :
    Found { s with log := s.log ++ [event] } k watcher := by
  have hfirst : ∀ {events}, events <+: s.log → events <+: s.log ++ [event] :=
    fun hp => hp.trans (List.prefix_append _ _)
  have hover : ∀ {e crash}, Over s e crash → Over { s with log := s.log ++ [event] } e crash :=
    fun ho => ⟨ho.rests, ho.known, ho.dead⟩
  cases watcher with
  | idle => trivial
  | fallen => trivial
  | loaded purpose events => exact hfirst h
  | judging purpose events e => exact ⟨hfirst h.1, h.2⟩
  | unowned events => exact ⟨hfirst h.1, h.2⟩
  | absent events =>
    refine ⟨hfirst h.1, h.2.1, fun hl => ?_⟩
    have hlen := h.1.length_le
    have := congrArg List.length hl
    simp only [List.length_append, List.length_singleton] at this
    omega
  | marked e crash => exact ⟨hover h.1, h.2⟩
  | checked e => exact ⟨hover h.1, h.2⟩
  | removing e => exact ⟨hover h.1, h.2⟩
  | clearing => exact h
  | _ => exact hover h

theorem kept_put {verdicts : List Verdict} (h : Kept s) (hf : Found s k watcher)
    (hv : ∀ v ∈ verdicts, Just v) : Kept { s.put k watcher with verdicts := verdicts } := by
  have hsame : ∀ {j w}, Found s j w → Found { s.put k watcher with verdicts := verdicts } j w :=
    fun hw => hw.mono rfl (fun _ => id) (fun _ _ ho => ⟨ho.rests, ho.known, ho.dead⟩) id (fun _ _ => id)
  refine ⟨fun e he => ?_, h.announced, h.mortal, h.fatal, h.free, h.held, ?_, hv⟩
  · obtain ⟨hk, ho, ha, hw⟩ := h.working e he
    exact ⟨hk, ho, ha, hw⟩
  · intro j
    simp only [put, Function.update_apply]
    split_ifs with hj
    · subst hj
      exact hsame hf
    · exact hsame (h.found j)

theorem just_dead {lease : String} (hd : e ∈ dead) (log : List RunEvent) (lost : List String) :
    Just ⟨some e, log, some lease, dead, lost⟩ :=
  ⟨fun _ he => .inl (Option.some.inj he ▸ hd), nofun⟩

theorem just_telling {lease : Option String} (h : Telling log lost) (hp : inProgress log = true)
    (hl : ∀ e ∈ lost, e ∈ dead) : Just ⟨latestExecutionId log, log, lease, dead, lost⟩ := by
  refine ⟨fun e he => ?_, fun _ e he hs => h e he hs hp⟩
  by_cases hs : e ∈ (tenureOf log).settled
  · exact .inl (hl e (h e he hs hp))
  · exact .inr hs

theorem just_snoc {v : Verdict} (h : Kept s) (hv : Just v) : ∀ w ∈ s.verdicts ++ [v], Just w := by
  intro w hw
  rcases List.mem_append.mp hw with hw | hw
  · exact h.just w hw
  · rw [List.mem_singleton.mp hw]
    exact hv

theorem kept_append {event : RunEvent} (h : Kept s) (hs : s.step (.append e event) = some s') : Kept s' := by
  simp only [step] at hs
  split_ifs at hs with hc
  cases hs
  obtain ⟨hactive, hannounced⟩ := hc
  obtain ⟨hknown, howner, halive, hwrites⟩ := h.working e hactive
  have hlatest : latestExecutionId (s.log ++ [event]) = some e := by
    rw [latestExecutionId_concat]
    rcases hannounced with hann | ⟨hann, hl⟩
    · rw [hann, Option.some_or]
    · rw [hann, Option.none_or, hwrites hl]
  have honly : ∀ other ∈ s.active, other = e := fun other ho =>
    Option.some.inj ((h.working other ho).owner.symm.trans howner)
  refine ⟨?_, ?_, h.mortal, h.fatal, ?_, ?_, fun k => (h.found k).append event, h.just⟩
  · intro other ho
    obtain rfl := honly other ho
    exact ⟨hknown, howner, halive, fun _ => hlatest⟩
  · intro other ho
    rcases (announced_concat event).mp ho with ho | ho
    · exact h.announced other ho
    · rcases hannounced with hann | ⟨hann, _⟩
      · obtain rfl := Option.some.inj (hann.symm.trans ho)
        exact hknown
      · rw [hann] at ho
        cases ho
  · intro hl
    rw [show s.lease = none from hl] at howner
    cases howner
  · intro other hl
    obtain rfl := Option.some.inj (howner.symm.trans hl)
    exact .inr ⟨hlatest, .inl hactive⟩

theorem kept_telling {event : RunEvent} {verdicts : List Verdict} (h : Kept s) (ha : announces event = none)
    (ht : Telling (s.log ++ [event]) s.lost) (hv : ∀ v ∈ verdicts, Just v) :
    Kept { s with log := s.log ++ [event], verdicts := verdicts } := by
  have hann : ∀ other, Announced (s.log ++ [event]) other → Announced s.log other := by
    intro other ho
    rcases (announced_concat event).mp ho with ho | ho
    · exact ho
    · rw [ha] at ho
      cases ho
  refine ⟨?_, fun other ho => h.announced other (hann other ho), h.mortal, h.fatal, fun _ => ht,
    fun _ _ => .inl ht, ?_, hv⟩
  · intro other ho
    obtain ⟨hknown, howner, halive, hwrites⟩ := h.working other ho
    refine ⟨hknown, howner, halive, fun hw => ?_⟩
    rw [latestExecutionId_concat, ha, Option.none_or]
    exact hwrites (hann other hw)
  · intro k
    exact ((h.found k).append event).mono rfl (fun _ => id) (fun _ _ ho => ⟨ho.rests, ho.known, ho.dead⟩) id
      (fun _ _ => id)

theorem kept_straggle {event : RunEvent} (h : Kept s) (hm : s.Current (.straggle event))
    (hs : s.step (.straggle event) = some s') : Kept s' := by
  simp only [step] at hs
  split_ifs at hs with hc
  cases hs
  exact kept_telling h hc.1 (telling_mono hm nofun) h.just

theorem kept_release (h : Kept s) (hm : s.Current (.release k e)) (hs : s.step (.release k e) = some s') :
    Kept s' := by
  simp only [step] at hs
  split at hs
  · split_ifs at hs with hactive
    cases hs
    have htelling : Telling s.log s.lost := telling_mono hm nofun
    have hover : ∀ other crash, Over s other crash →
        Over { s.put k (.retiring e false 0) with active := s.active.filter (· ≠ e) } other crash :=
      fun _ _ ho => ⟨fun hin => ho.rests (List.mem_filter.mp hin).1, ho.known, ho.dead⟩
    have hown : Over { s.put k (.retiring e false 0) with active := s.active.filter (· ≠ e) } e false :=
      ⟨by simp, (h.working e hactive).known, nofun⟩
    refine ⟨?_, h.announced, h.mortal, h.fatal, fun _ => htelling, fun _ _ => .inl htelling, ?_, h.just⟩
    · intro other ho
      obtain ⟨hknown, howner, halive, hwrites⟩ := h.working other (List.mem_filter.mp ho).1
      exact ⟨hknown, howner, halive, hwrites⟩
    · intro j
      simp only [put, Function.update_apply]
      split_ifs with hj
      · exact hown
      · exact (h.found j).mono rfl (fun _ => id) hover id (fun _ _ => id)
  · cases hs

theorem kept_acquire (h : Kept s) (hs : s.step (.acquire e) = some s') : Kept s' := by
  simp only [step] at hs
  split_ifs at hs with hc
  cases hs
  obtain ⟨hlease, hnew⟩ := hc
  have hnone : ∀ other, other ∉ s.active := by
    intro other ho
    have := (h.working other ho).owner
    rw [hlease] at this
    cases this
  refine ⟨?_, fun other ho => List.mem_cons_of_mem _ (h.announced other ho),
    fun other ho => List.mem_cons_of_mem _ (h.mortal other ho), h.fatal, nofun,
    fun _ _ => .inl (h.free hlease), ?_, h.just⟩
  · intro other ho
    rcases List.mem_cons.mp ho with rfl | ho
    · exact ⟨List.mem_cons_self, rfl, fun hd => hnew (h.mortal _ hd), fun ha => absurd (h.announced _ ha) hnew⟩
    · exact absurd ho (hnone other)
  · intro j
    refine (h.found j).mono rfl (fun _ => id) (fun other _ ho => ⟨?_, List.mem_cons_of_mem _ ho.known, ho.dead⟩) id
      (fun _ other hl => ?_)
    · intro hin
      rcases List.mem_cons.mp hin with rfl | hin
      · exact hnew ho.known
      · exact ho.rests hin
    · rw [hlease] at hl
      cases hl

theorem kept_die (h : Kept s) (hs : s.step (.die e) = some s') : Kept s' := by
  simp only [step] at hs
  by_cases hknown : e ∈ s.known
  swap
  · rw [if_neg hknown] at hs
    cases hs
  rw [if_pos hknown] at hs
  cases hs
  have hlost : ∀ other ∈ s.lost, other ∈ (if e ∈ s.active then e :: s.lost else s.lost) := by
    intro other ho
    split_ifs
    · exact List.mem_cons_of_mem _ ho
    · exact ho
  refine ⟨?_, h.announced, ?_, ?_, fun hl => telling_mono (h.free hl) hlost, ?_, ?_, h.just⟩
  · intro other ho
    obtain ⟨hin, hne⟩ := List.mem_filter.mp ho
    obtain ⟨hk, howner, halive, hwrites⟩ := h.working other hin
    refine ⟨hk, howner, ?_, hwrites⟩
    rintro (_ | ⟨_, hd⟩)
    · simp at hne
    · exact halive hd
  · intro other ho
    rcases List.mem_cons.mp ho with rfl | ho
    · exact hknown
    · exact h.mortal other ho
  · intro other ho
    simp only at ho
    split_ifs at ho
    · rcases List.mem_cons.mp ho with rfl | ho
      · exact List.mem_cons_self
      · exact List.mem_cons_of_mem _ (h.fatal other ho)
    · exact List.mem_cons_of_mem _ (h.fatal other ho)
  · intro other hl
    rcases h.held other hl with ht | ⟨hlatest, hin | hin⟩
    · exact .inl (telling_mono ht hlost)
    · refine .inr ⟨hlatest, ?_⟩
      by_cases he : other = e
      · subst he
        exact .inr (by simp [hin])
      · exact .inl (List.mem_filter.mpr ⟨hin, by simpa using he⟩)
    · exact .inr ⟨hlatest, .inr (hlost other hin)⟩
  · intro j
    exact (h.found j).mono rfl hlost (fun _ _ ho => ⟨fun hin => ho.rests (List.mem_filter.mp hin).1, ho.known,
      fun hc => List.mem_cons_of_mem _ (ho.dead hc)⟩) id (fun _ _ => id)

theorem kept_recordCrash {execution : Option String} (error : String) (h : Kept s)
    (hv : Just ⟨execution, s.log, s.lease, s.dead, s.lost⟩) : Kept (s.recordCrash execution error) :=
  kept_telling h rfl (telling_crashed _ _ _) (just_snoc h hv)

theorem kept_inspect (h : Kept s) (hm : s.Current (.inspect k)) (hs : s.step (.inspect k) = some s') :
    Kept s' := by
  have hf := h.found k
  simp only [step] at hs
  split at hs
  · rename_i purpose events hw
    rw [hw] at hf
    cases hs
    unfold inspect
    split
    · exact kept_put h ⟨hf, nofun⟩ h.just
    · rename_i hp
      exact kept_put h ⟨hf, fun _ => hp⟩ h.just
    · rename_i hp
      exact kept_put h ⟨hf, hp⟩ h.just
    · rename_i hl hp
      have hlog := hm hl events hw hp
      subst hlog
      exact kept_put h trivial (just_snoc h (just_telling (h.free hl) hp h.fatal))
    · exact kept_put h trivial h.just
  · cases hs

theorem kept_judge (h : Kept s) (hm : s.Current (.judge k)) (hs : s.step (.judge k) = some s') : Kept s' := by
  have hf := h.found k
  simp only [step] at hs
  split at hs
  · rename_i purpose events other hw
    rw [hw] at hf
    cases hs
    unfold weigh
    split_ifs with hdead
    · cases purpose with
      | project =>
        refine kept_put h trivial (just_snoc h ?_)
        cases hl : s.lease with
        | some lease => exact just_dead hdead s.log s.lost
        | none =>
          have hlog := hm hl events other hw hdead
          have hp := hf.2 rfl
          rw [← hlog] at hp
          exact ⟨fun _ he => .inl (Option.some.inj he ▸ hdead), fun _ e he hset => h.free hl e he hset hp⟩
      | reconcile =>
        have hrests : other ∉ s.active := fun ha => (h.working other ha).alive hdead
        exact kept_put h ⟨hrests, h.mortal other hdead, fun _ => hdead⟩ h.just
    · exact kept_put h trivial h.just
  · cases hs

theorem kept_inspectAgain (h : Kept s) (hs : s.step (.inspectAgain k) = some s') : Kept s' := by
  have hf := h.found k
  simp only [step] at hs
  split at hs
  · rename_i events hw
    rw [hw] at hf
    split at hs <;> cases hs
    · exact kept_put h ⟨hf.1, nofun⟩ h.just
    · rename_i hl
      exact kept_put h ⟨hf.1, hf.2, fun hlog => hlog ▸ h.free hl⟩ h.just
  · cases hs

/-- The marker passes to a call that found none, or is removed: the other calls keep what they rely on, if none
of them had it. -/
theorem kept_marker {marker : Option Nat} (h : Kept s) (hf : Found { s with marker := marker } k watcher)
    (hothers : ∀ j, j ≠ k → s.marker = some j → s.watchers j = .fallen) :
    Kept { s.put k watcher with marker := marker } := by
  refine ⟨fun e he => ?_, h.announced, h.mortal, h.fatal, h.free, h.held, ?_, h.just⟩
  · obtain ⟨hk, ho, ha, hw⟩ := h.working e he
    exact ⟨hk, ho, ha, hw⟩
  · intro j
    simp only [put, Function.update_apply]
    split_ifs with hj
    · subst hj
      exact hf.mono rfl (fun _ => id) (fun _ _ ho => ⟨ho.rests, ho.known, ho.dead⟩) id (fun _ _ => id)
    · by_cases hmark : s.marker = some j
      · rw [hothers j hj hmark]
        trivial
      · exact (h.found j).mono rfl (fun _ => id) (fun _ _ ho => ⟨ho.rests, ho.known, ho.dead⟩)
          (fun hm => absurd hm hmark) (fun hm => absurd hm hmark)

theorem kept_mark (h : Kept s) (hs : s.step (.mark k) = some s') : Kept s' := by
  have hf := h.found k
  simp only [step] at hs
  split at hs
  · rename_i other crash retry hw
    rw [hw] at hf
    split_ifs at hs with hnone
    · cases hs
      refine kept_marker h ⟨⟨hf.1, hf.2, hf.3⟩, rfl⟩ ?_
      intro j _ hj
      rw [hnone] at hj
      cases hj
    · cases hs
      exact kept_put h hf h.just
  · cases hs

theorem kept_doubts (h : Kept s) {turn : Turn} (hturn : turn = .read k ∨ turn = .doubt k)
    (hs : s.step turn = some s') : Kept s' := by
  have hf := h.found k
  rcases hturn with rfl | rfl
  · simp only [step] at hs
    split at hs
    · rename_i other crash retry hw
      rw [hw] at hf
      split at hs <;> cases hs
      · exact kept_put h hf h.just
      · exact kept_put h trivial h.just
    · cases hs
  · simp only [step] at hs
    split at hs
    · rename_i owner other crash retry hw
      rw [hw] at hf
      split_ifs at hs <;> cases hs
      · exact kept_put h hf h.just
      · exact kept_put h trivial h.just
    · cases hs

theorem kept_sweep (h : Kept s) (hm : s.Current (.sweep k)) (hs : s.step (.sweep k) = some s') : Kept s' := by
  have hf := h.found k
  simp only [step] at hs
  split at hs
  · rename_i other crash retry hw
    rw [hw] at hf
    cases hs
    refine kept_marker h ?_ (fun j _ hj => hm j hj)
    split_ifs
    · trivial
    · exact ⟨hf.rests, hf.known, hf.dead⟩
  · cases hs

theorem kept_check (h : Kept s) (hs : s.step (.check k) = some s') : Kept s' := by
  have hf := h.found k
  simp only [step] at hs
  split at hs
  · rename_i other crash hw
    rw [hw] at hf
    split_ifs at hs with hlease hcrash
    · cases hs
      exact kept_put h ⟨⟨hf.1.rests, hf.1.known, fun _ => hf.1.dead hcrash⟩, hlease, hf.2⟩ h.just
    · cases hs
      exact kept_put h ⟨⟨hf.1.rests, hf.1.known, nofun⟩, hlease, hf.2⟩ h.just
    · cases hs
      exact kept_put h hf.2 h.just
  · cases hs

theorem kept_remove (h : Kept s) (hs : s.step (.remove k) = some s') : Kept s' := by
  have hfound := h.found k
  simp only [step] at hs
  split at hs
  · rename_i other hw
    cases hs
    rw [hw] at hfound
    obtain ⟨hover, hlease, hmark⟩ := hfound
    have htelling : Telling s.log s.lost := by
      rcases h.held other hlease with ht | ⟨hlatest, hin | hin⟩
      · exact ht
      · exact absurd hin hover.rests
      · exact telling_of_lost hlatest hin
    refine ⟨?_, h.announced, h.mortal, h.fatal, fun _ => htelling, nofun, ?_, h.just⟩
    · intro e he
      obtain rfl := Option.some.inj (hlease.symm.trans (h.working e he).owner)
      exact absurd he hover.rests
    · intro j
      simp only [put, Function.update_apply]
      split_ifs with hj
      · exact hj ▸ hmark
      · have hne : s.marker ≠ some j := fun he => hj (Option.some.inj (he.symm.trans hmark))
        exact (h.found j).mono rfl (fun _ => id) (fun _ _ ho => ⟨ho.rests, ho.known, ho.dead⟩)
          (fun hm => absurd hm hne) (fun hm => absurd hm hne)
  · cases hs

theorem kept_clear (h : Kept s) (hs : s.step (.clear k) = some s') : Kept s' := by
  have hfound := h.found k
  simp only [step] at hs
  split at hs
  · rename_i hw
    cases hs
    rw [hw] at hfound
    refine kept_marker h trivial ?_
    intro j hj hmark
    exact absurd (Option.some.inj (hmark.symm.trans hfound)) hj
  · cases hs

theorem kept_step {turn : Turn} (h : Kept s) (hm : s.Current turn) (hs : s.step turn = some s') : Kept s' := by
  cases turn with
  | acquire e => exact kept_acquire h hs
  | append e event => exact kept_append h hs
  | straggle event => exact kept_straggle h hm hs
  | release k e => exact kept_release h hm hs
  | die e => exact kept_die h hs
  | fall k =>
    cases hs
    exact kept_put h trivial h.just
  | load k purpose =>
    simp only [step] at hs
    split at hs <;> cases hs
    exact kept_put h List.prefix_rfl h.just
  | inspect k => exact kept_inspect h hm hs
  | judge k => exact kept_judge h hm hs
  | inspectAgain k => exact kept_inspectAgain h hs
  | record k error =>
    have hf := h.found k
    simp only [step] at hs
    split at hs <;> cases hs
    rename_i events hw
    rw [hw] at hf
    have hlog := hm events hw
    subst hlog
    have hcrash := kept_recordCrash error h (just_telling (hf.2.2 rfl) hf.2.1 h.fatal)
    exact kept_put hcrash trivial hcrash.just
  | mark k => exact kept_mark h hs
  | read k => exact kept_doubts h (.inl rfl) hs
  | doubt k => exact kept_doubts h (.inr rfl) hs
  | sweep k => exact kept_sweep h hm hs
  | check k => exact kept_check h hs
  | recordDead k error =>
    have hf := h.found k
    simp only [step] at hs
    split at hs <;> cases hs
    rename_i other hw
    rw [hw] at hf
    obtain ⟨hover, hlease, hmark⟩ := hf
    have hv : Just ⟨some other, s.log, s.lease, s.dead, s.lost⟩ := by
      rw [hlease]
      exact just_dead (hover.dead rfl) s.log s.lost
    have hcrash := kept_recordCrash error h hv
    exact kept_put hcrash ⟨⟨hover.rests, hover.known, nofun⟩, hlease, hmark⟩ hcrash.just
  | failRecord k =>
    have hf := h.found k
    simp only [step] at hs
    split at hs <;> cases hs
    · rename_i other hw
      rw [hw] at hf
      exact kept_put h hf.2.2 h.just
    · exact kept_put h trivial h.just
  | remove k => exact kept_remove h hs
  | clear k => exact kept_clear h hs

end Site

end KimchiWorkflows.Host
