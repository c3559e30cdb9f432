import KimchiWorkflows.Host.Ledger

namespace KimchiWorkflows.Host

open KimchiWorkflows.Engine Stepping

def Phase.result : Phase → Option RunResult
  | .unwinding result => result
  | .waiting result => result
  | .releasing result => result
  | .released result => result
  | _ => none

namespace Execution

/-- What the log gains between the start of the execution and the release of its lease. -/
structure OneEnding (s : Execution) : Prop where
  once : (s.log.filter (fun e => e.terminal.isSome)).length ≤ 1
  last : ∀ before e after, s.log = before ++ e :: after → e.terminal = some .cancelled → after = []
  stays : ∀ before e after, s.log = before ++ e :: after →
    e.terminal = some .completed ∨ e.terminal = some .crashed → ∀ f ∈ after, f.terminal ≠ some .cancelled
  result : ∀ r, s.phase.result = some r →
    (r.status = .cancelled ↔ ∃ e ∈ s.log, e.terminal = some .cancelled)

variable {s : Execution} {actions : List Act}

theorem oneEnding_of_sound (h : s.Sound) : s.OneEnding := by
  obtain ⟨hledger, hstands, -⟩ := h
  have hlog : s.log.Pairwise Precedes := hledger.ordered.sublist (by simp [trail])
  have hafter : ∀ before e after, s.log = before ++ e :: after → ∀ f ∈ after, Precedes e f := by
    intro before e after he
    rw [he, List.pairwise_append] at hlog
    exact (List.pairwise_cons.mp hlog.2.1).1
  refine ⟨?_, ?_, ?_, ?_⟩
  · have hends := hlog.filter (fun e => e.terminal.isSome)
    have hsome : ∀ e ∈ s.log.filter (fun e => e.terminal.isSome), e.terminal ≠ none := by
      intro e he
      exact Option.isSome_iff_ne_none.mp (List.mem_filter.mp he).2
    generalize s.log.filter (fun e => e.terminal.isSome) = ends at hends hsome
    cases ends with
    | nil => simp
    | cons e ends =>
      cases ends with
      | nil => simp
      | cons f rest =>
        have hp : Precedes e f := (List.pairwise_cons.mp hends).1 f (by simp)
        exact absurd (hp.2 (hsome e (by simp))) (hsome f (by simp))
  · intro before e after he hc
    cases after with
    | nil => rfl
    | cons f rest => exact absurd hc (hafter before e _ he f (by simp)).1
  · intro before e after he hc f hf
    have hnone := (hafter before e after he f hf).2 (by rcases hc with hc | hc <;> simp [hc])
    simp [hnone]
  · intro r hr
    have hcases : (s.run.state = .settling ∧ s.Written ∧ ∃ outcome, s.concluded = some outcome ∧
        r = resultOf outcome) ∨ (s.run.state = .cancelled ∧ r.status = .cancelled) := by
      simp only [Stands] at hstands
      cases hp : s.phase <;> simp only [hp, Phase.result, reduceCtorEq] at hstands hr
      · exact hstands r hr
      · rw [hstands.2] at hr
        cases hr
      · exact hstands r hr
      · exact hstands r hr
    have hanswers : s.phase.answers = true := by
      cases hp : s.phase <;> simp [hp, Phase.result, Phase.answers] at hr ⊢ <;> simp [hr]
    rcases hcases with ⟨hs, hwritten, outcome, hc, rfl⟩ | ⟨hs, hstatus⟩
    · have hqueue : ∀ e ∈ s.queue.map Append.event, e.terminal = none := by
        intro e he
        obtain ⟨append, ha, rfl⟩ := List.mem_map.mp he
        exact hwritten append ha (hledger.plain (.inr hs) append ha)
      constructor
      · intro hstatus
        obtain ⟨e, he, hcancelled⟩ := hledger.kept (.inr hs) hanswers outcome hc hstatus
        rcases List.mem_append.mp he with he | he
        · exact ⟨e, he, hcancelled⟩
        · rw [hqueue e he] at hcancelled
          cases hcancelled
      · rintro ⟨e, he, hcancelled⟩
        obtain ⟨o, ho, hstatus⟩ := hledger.bound (.inr hs) e (List.mem_append_left _ he) (by simp [hcancelled])
        obtain rfl : outcome = o := Option.some.inj (hc.symm.trans ho)
        rw [hcancelled] at hstatus
        exact (Option.some.inj hstatus).symm
    · exact ⟨fun _ => (hledger.closed hs).2, fun _ => hstatus⟩

theorem oneEnding_of_run {executionId : String} (h : Run step EndsOnce (begun executionId) actions s) :
    s.OneEnding := by
  apply oneEnding_of_sound
  exact h.keeps (sound_begun executionId) (fun _ _ _ hi hm hs => sound_step hi hm hs)

/-- A cancellation that cannot be written, and a run that then completes. -/
def refusedThenCompletes : List Act :=
  [.land, .cancel none, .fail, .conclude (.ok .null), .land, .returns, .settle, .settle, .release]

def completedAfterRefusal : Execution :=
  { run := { state := .settling }, queue := [], log := [.runExecutionStarted "e1", .runCompleted .null]
    concluded := some (.ok .null), phase := .released (some (resultOf (.ok .null)))
    emitted := [.runCompleted .null] }

theorem oneEnding_completedAfterRefusal :
    Run step EndsOnce (begun "e1") refusedThenCompletes completedAfterRefusal ∧
      completedAfterRefusal.OneEnding := by
  have hrun : Run step EndsOnce (begun "e1") refusedThenCompletes completedAfterRefusal := by
    refine .snoc (.snoc (.snoc (.snoc (.snoc (.snoc (.snoc (.snoc (.snoc .nil rfl trivial) rfl ?_) rfl ?_)
      rfl trivial) rfl trivial) rfl trivial) rfl trivial) rfl trivial) rfl trivial
    · intro _ e he
      obtain rfl : e = .runExecutionStarted "e1" := by simpa [trail, begun, landed, enter] using he
      rfl
    · intro _ _ _ _ e he
      cases he
  exact ⟨hrun, oneEnding_of_run hrun⟩

/-- A cancellation admitted while the engine returns, with its run already completed in the log. -/
def cancelledAfterCompletion : List Act :=
  [.land, .conclude (.ok .null), .land, .cancel none, .returns, .settle, .land, .settle, .release]

theorem completed_then_cancelled :
    ¬ ∀ actions s, Run step Unconditional (begun "e1") actions s → s.OneEnding := by
  intro h
  have hone := (h _ _ (run_of_steps (rfl : steps step (begun "e1") cancelledAfterCompletion = some _))).once
  revert hone
  decide

end Execution

end KimchiWorkflows.Host
