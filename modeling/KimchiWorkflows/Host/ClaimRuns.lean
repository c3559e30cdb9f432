import KimchiWorkflows.Host.ExactClaims

namespace KimchiWorkflows.Host.Subagents

open Stepping

variable {hashOf : List Char → Nat → List Char} {join : String → List Char → String} {s s' : HostProcess}
  {actions : List ProcessAct} {a : ProcessAct}

/-- The claims are exact after a run just if no call of it failed while it held a claim it could not give back. -/
theorem exact_iff_tidy (h : Run (step hashOf join) Unconditional {} actions s) :
    Exact s ↔ Run (step hashOf join) (Tidy hashOf join) {} actions s := by
  constructor
  · intro he
    induction h with
    | nil => exact .nil
    | snoc hrun hs _ ih =>
      obtain ⟨hbefore, htidy⟩ := (exact_step_iff (held_of_run hrun) hs).mp he
      exact .snoc (ih hbefore) hs htidy
  · intro htidy
    clear h
    induction htidy with
    | nil => exact fun file hclaimed => absurd rfl hclaimed
    | snoc hrun hs htidy ih => exact (exact_step_iff (held_of_run hrun) hs).mpr ⟨ih, htidy⟩

theorem empty_iff_exact (hidle : s.pending = []) : (∀ file, s.liveResumeFiles file = none) ↔ Exact s := by
  unfold Exact HostProcess.seats
  rw [hidle]
  constructor
  · intro hempty file hclaimed
    exact absurd (hempty file) hclaimed
  · intro he file
    by_contra hclaimed
    obtain ⟨seat, hm, -⟩ := he file hclaimed
    simp at hm

/-- At most one subagent is on a file that a keyed call continues. -/
def OneEach (s : HostProcess) : Prop :=
  s.seats.Pairwise (fun p q => p.request.keyed = true ∨ q.request.keyed = true → p.file ≠ q.file)

/-- No keyed call meets an unkeyed one on its file. -/
def Separate (hashOf : List Char → Nat → List Char) (join : String → List Char → String) (s : HostProcess) :
    ProcessAct → Prop
  | .send _ dir request _ _ => ∀ seat ∈ s.seats, seat.request.keyed ≠ request.keyed →
      seat.file ≠ sessionPath hashOf join dir request
  | _ => True

theorem oneEach_step (h : Held s) (ho : OneEach s) (hsep : Separate hashOf join s a)
    (hs : step hashOf join s a = some s') : OneEach s' := by
  unfold OneEach at ho ⊢
  obtain ⟨hseats, -, -⟩ | ⟨id, dir, request, aborted, around, rfl, -, hsent⟩ | ⟨call, -, removes, -, rfl⟩ :=
    step_cases hs
  · rw [hseats]
    exact ho
  · have hkept := held_step h hs
    cases hsent with
    | failed => exact ho
    | leaked => exact ho
    | started table handoff child hready ht =>
      have hseats : ∀ t : HostProcess,
          t.pending = s.pending ++ [⟨id, request, sessionPath hashOf join dir request, handoff, aborted, child⟩] →
          t.seats = s.seats ++ [⟨id, request, sessionPath hashOf join dir request⟩] := by
        intro t hp
        simp [HostProcess.seats, hp, PendingCall.seat]
      have hapart := hkept.apart
      rw [hseats _ rfl, List.pairwise_append] at hapart ⊢
      refine ⟨ho, List.pairwise_singleton _ _, ?_⟩
      intro seat hm last hl hkeyed
      obtain rfl := List.mem_singleton.mp hl
      by_cases hk : seat.request.keyed = request.keyed
      · have hboth : seat.request.keyed = true ∧ request.keyed = true := by
          rw [← hk] at hkeyed ⊢
          simpa using hkeyed
        exact hapart.2.2 seat hm _ hl hboth.1 hboth.2
      · exact hsep seat hm hk
  · rw [seats_finish]
    exact ho.sublist List.filter_sublist

theorem oneEach_of_run (h : Run (step hashOf join) (Separate hashOf join) {} actions s) : OneEach s := by
  induction h with
  | nil => exact List.Pairwise.nil
  | snoc hrun hs hsep ih => exact oneEach_step (held_of_run hrun) ih hsep hs

def Refused (hashOf : List Char → Nat → List Char) (join : String → List Char → String) (s : HostProcess) :
    ProcessAct → Prop
  | .send _ dir request _ around => around.makesDirectory = .ok () ∧ request.keyed = true ∧
      s.liveResumeFiles (sessionPath hashOf join dir request) ≠ none
  | _ => False

theorem unchanged_of_refused (hr : Refused hashOf join s a) (hs : step hashOf join s a = some s') :
    s'.liveResumeFiles = s.liveResumeFiles ∧ s'.pending = s.pending := by
  cases a with
  | send id dir request aborted around =>
    obtain ⟨hd, hk, hclaimed⟩ := hr
    obtain ⟨holder, hholder⟩ := Option.ne_none_iff_exists'.mp hclaimed
    simp only [step, Option.ite_none_left_eq_some, Option.some.injEq] at hs
    obtain ⟨-, rfl⟩ := hs
    simp [sendAndAwaitEnd, hd, claimResumeFile, hk, hholder, settle]
  | _ => exact hr.elim

theorem resumeClaims_exact_iff (hashOf : List Char → Nat → List Char) (join : String → List Char → String)
    (actions : List ProcessAct) (s : HostProcess) (h : Run (step hashOf join) Unconditional {} actions s) :
    (s.pending = [] →
      ((∀ file, s.liveResumeFiles file = none) ↔ Run (step hashOf join) (Tidy hashOf join) {} actions s)) ∧
    (Run (step hashOf join) (Separate hashOf join) {} actions s → OneEach s) ∧
    ∀ a s', Refused hashOf join s a → step hashOf join s a = some s' →
      s'.liveResumeFiles = s.liveResumeFiles ∧ s'.pending = s.pending := by
  refine ⟨?_, oneEach_of_run, fun a s' hr hs => unchanged_of_refused hr hs⟩
  intro hidle
  rw [empty_iff_exact hidle, exact_iff_tidy h]

section Sample

def sampleJoin (dir : String) (file : List Char) : String := String.ofList (dir.toList ++ '/' :: file)

def noHash (_ : List Char) (length : Nat) : List Char := List.replicate length '0'

def worker : BackgroundRequest where
  workflowName := "wf"
  runId := "workflow-wf-1a2b3c4d"
  path := "build"
  attempt := 1
  stepName := "build"
  resumeKey := some "worker"
  model := some "provider/model"

/-- A worker runs to its end and gives its file back. -/
theorem resumeClaims_exact_iff_worker : ∃ s,
    Run (step noHash sampleJoin) Unconditional {}
      [.send 0 "sessions" worker false {}, .exit 0 0 "" "done", .settle 0 (.ok ())] s ∧
    ((∀ file, s.liveResumeFiles file = none) ↔ Run (step noHash sampleJoin) (Tidy noHash sampleJoin) {}
      [.send 0 "sessions" worker false {}, .exit 0 0 "" "done", .settle 0 (.ok ())] s) := by
  refine ⟨_, run_of_steps rfl, ?_⟩
  exact (resumeClaims_exact_iff noHash sampleJoin _ _ (run_of_steps rfl)).1 rfl

def workerFile : String := sessionPath noHash sampleJoin "sessions" worker

/-- A worker whose model is unknown leaves its claim, and the next call of its key is refused. -/
theorem unknown_model_keeps_claim : ∃ s s',
    Run (step noHash sampleJoin) Unconditional {} [.send 0 "sessions" worker false { findsModel := fun _ => false }] s ∧
    s.pending = [] ∧ s.liveResumeFiles workerFile = some "build" ∧
    step noHash sampleJoin s (.send 1 "sessions" worker false {}) = some s' ∧ s'.pending = [] ∧
    s'.outcomes = [(0, .error "unknown model \"provider/model\" (expected provider/modelId)"),
      (1, .error (claimedError worker "build"))] :=
  ⟨_, _, run_of_steps rfl, rfl, rfl, rfl, rfl, rfl⟩

end Sample

end KimchiWorkflows.Host.Subagents
