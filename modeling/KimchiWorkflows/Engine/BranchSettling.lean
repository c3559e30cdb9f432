import KimchiWorkflows.Engine.SequenceSettling

namespace KimchiWorkflows.Engine

open KimchiWorkflows.Flow

variable {env : RunEnv} {parentPath branchPath key : NodePath} {frames : List ScopeFrame}
  {effects : List Effect} {outcome : ExecOutcome} {input : Value} {reentry : Option Reentry}
  {events first last : List RunEvent} {decisions : List DecidedArm} {result : Record}

def closeBranch (branchPath : NodePath) (result : Record) : Code :=
  emitNodeCompleted branchPath (.object result) (conclude (.ok (.object result)))

/-- Run after the key was taken as an arm, the events leave it closed. -/
def ArmCloses (key : NodePath) (events : List RunEvent) : Prop :=
  ∀ v : KeyView, v.taken = true → ∃ s, (after key v events).state = some s ∧ s.isOpen = false

theorem taken_next {v : KeyView} (h : v.taken = true) (event : RunEvent) :
    (v.next key event).taken = true := by
  cases ht : touchOf key event with
  | none => simpa [KeyView.next, ht] using h
  | some touch =>
    cases touch with
    | put state => simpa [KeyView.next, ht, KeyView.touch] using h
    | take => simp [KeyView.next, ht, KeyView.touch]
    | close => simp [KeyView.next, ht, KeyView.touch, h]
    | closeOpen state => by_cases ho : v.isOpen = true <;> simpa [KeyView.next, ht, KeyView.touch, ho] using h

theorem taken_after {v : KeyView} (h : v.taken = true) : (after key v events).taken = true := by
  induction events generalizing v with
  | nil => exact h
  | cons event rest ih => exact ih (taken_next h event)

theorem ArmCloses.after (h : ArmCloses key last) : ArmCloses key (first ++ last) := by
  intro v hv
  rw [after_append]
  exact h _ (taken_after hv)

theorem armCloses_checkpoint (path : NodePath) (output : Value) (h : Closes (staticKeyOf path) last) :
    ArmCloses (staticKeyOf path) (.nodeCompleted path output :: last) := by
  intro v hv
  have hn : (v.next (staticKeyOf path) (.nodeCompleted path output)).state = some .completed := by
    simp [KeyView.next, touchOf, touchAt, KeyView.touch, hv]
  rw [after_cons]
  rcases h with hi | hc
  · rcases after_idle hi (v.next (staticKeyOf path) (.nodeCompleted path output)) with he | he
    · exact ⟨_, he.trans hn, rfl⟩
    · exact ⟨_, he, rfl⟩
  · exact hc _

theorem emits_closeBranch (h : Emits (closeBranch branchPath result) effects outcome) :
    recordedEvents effects = [.nodeCompleted branchPath (.object result)] ∧ outcome = .ok (.object result) := by
  obtain ⟨rest, rfl, hr⟩ := emits_emit h
  obtain ⟨rfl, rfl⟩ := emits_conclude hr
  exact ⟨rfl, rfl⟩

theorem settles_runTakenArms (hb : Below (staticPathOf parentPath) (staticKeyOf branchPath))
    (hn : ∀ decision ∈ decisions, ∀ node ∈ decision.1.2, RunnerSettles env node.2)
    (h : Emits (runTakenArms input parentPath frames (closeBranch branchPath) decisions result reentry)
      effects outcome) :
    Settles env reentry.isSome (staticPathOf parentPath) (recordedEvents effects) outcome := by
  induction decisions generalizing result reentry effects with
  | nil =>
    obtain ⟨he, rfl⟩ := emits_closeBranch h
    rw [he]
    exact settles_closed (inside_singleton rfl rfl hb) (fun _ => closes_nodeCompleted _ _)
  | cons decision rest ih =>
    obtain ⟨⟨arm, body⟩, taken⟩ := decision
    have hrest := fun d hd => hn d (List.mem_cons_of_mem _ hd)
    rcases emits_runTakenArms_cons h with ⟨-, hskip⟩ | ⟨-, -, value, hrec⟩ | ⟨-, armReentry, hsome, hrun⟩
    · exact ih hrest hskip
    · exact ih hrest hrec
    · have hscope := prefix_staticChildKey parentPath arm.name
      have hbody := hn ((arm, body), taken) List.mem_cons_self
      rw [← hsome]
      rcases emits_runArm hrun with ⟨rfl, rfl⟩ | ⟨armFrames, ⟨hstop, -⟩ | ⟨first, last, output, rfl, hf, hl⟩⟩
      · exact settles_stopped inside_nil rfl
      · have := settles_runNodeSequence hbody hstop
        rw [staticPathOf_appendSegment] at this
        exact this.widen hscope
      · have hfirst := settles_runNodeSequence hbody hf
        rw [staticPathOf_appendSegment] at hfirst
        have hclosed : Settles env reentry.isSome (staticPathOf parentPath)
            (recordedEvents first ++ [.nodeCompleted (appendSegment parentPath arm.name) output]) (.ok output) :=
          settles_checkpoint (hfirst.widen hscope) (below_appendSegment parentPath arm.name)
        rw [recordedEvents_append, recordedEvents_recorded, List.append_cons]
        exact (ih hrest hl).after_closed (hclosed.closes output rfl) hclosed.inside

/-- The taken arms of a branch entered anew are closed when it completes. -/
theorem armCloses_runTakenArms (hb : Below (staticPathOf parentPath) (staticKeyOf branchPath))
    (hn : ∀ decision ∈ decisions, ∀ node ∈ decision.1.2, RunnerSettles env node.2) {output : Value}
    (h : Emits (runTakenArms input parentPath frames (closeBranch branchPath) decisions result none)
      effects (.ok output)) :
    ∀ decision ∈ decisions, decision.2 = true →
      ArmCloses (staticChildKey parentPath decision.1.1.name) (recordedEvents effects) := by
  induction decisions generalizing result effects with
  | nil => simp
  | cons decision rest ih =>
    obtain ⟨⟨arm, body⟩, taken⟩ := decision
    have hrest := fun d hd => hn d (List.mem_cons_of_mem _ hd)
    intro d hd ht
    rcases emits_runTakenArms_cons h with ⟨hf, hskip⟩ | ⟨-, hnone, -⟩ | ⟨-, armReentry, hsome, hrun⟩
    · rcases List.mem_cons.mp hd with rfl | hd
      · exact absurd ht (by simp [hf])
      · exact ih hrest hskip d hd ht
    · cases hnone
    · rcases emits_runArm hrun with ⟨-, hc⟩ | ⟨armFrames, ⟨-, hc⟩ | ⟨first, last, value, rfl, -, hl⟩⟩
      · cases hc
      · cases hc
      · rw [recordedEvents_append, recordedEvents_recorded]
        rcases List.mem_cons.mp hd with rfl | hd
        · have hlast := settles_runTakenArms hb hrest hl
          have := armCloses_checkpoint (appendSegment parentPath arm.name) value (hlast.closes output rfl _)
          rw [staticKeyOf_appendSegment] at this
          exact this.after
        · rw [List.append_cons]
          exact (ih hrest hl d hd ht).after

theorem asks_runTakenArms
    (hn : ∀ decision ∈ decisions, ∀ node ∈ decision.1.2, RunnerSettles env node.2) {block : PendingBlock}
    (h : Emits (runTakenArms input parentPath frames (closeBranch branchPath) decisions result none)
      effects (.blocked block)) :
    ∃ decision ∈ decisions, decision.2 = true ∧ Asks (staticKeyOf block.path) (recordedEvents effects) ∧
      Below (staticChildKey parentPath decision.1.1.name) (staticKeyOf block.path) := by
  induction decisions generalizing result effects with
  | nil => cases (emits_closeBranch h).2
  | cons decision rest ih =>
    obtain ⟨⟨arm, body⟩, taken⟩ := decision
    have hrest := fun d hd => hn d (List.mem_cons_of_mem _ hd)
    rcases emits_runTakenArms_cons h with ⟨-, hskip⟩ | ⟨-, hnone, -⟩ | ⟨ht, armReentry, hsome, hrun⟩
    · obtain ⟨d, hd, hok⟩ := ih hrest hskip
      exact ⟨d, List.mem_cons_of_mem _ hd, hok⟩
    · cases hnone
    · rcases emits_runArm hrun with ⟨-, hc⟩ | ⟨armFrames, ⟨hstop, -⟩ | ⟨first, last, value, rfl, -, hl⟩⟩
      · cases hc
      · have hs := settles_runNodeSequence (hn _ List.mem_cons_self) hstop
        rw [staticPathOf_appendSegment, hsome] at hs
        have hw := hs.waits block rfl
        exact ⟨_, List.mem_cons_self, ht, hw.asks, hw.below hs.inside⟩
      · obtain ⟨d, hd, ht, ha, hbelow⟩ := ih hrest hl
        rw [recordedEvents_append, recordedEvents_recorded, List.append_cons]
        exact ⟨d, List.mem_cons_of_mem _ hd, ht, asks_append ha, hbelow⟩

theorem inside_armEvents (decisions : List DecidedArm) :
    Inside (staticPathOf parentPath) (armEvents parentPath decisions) := by
  intro e he
  obtain ⟨decision, -, rfl⟩ := List.mem_map.mp he
  exact ⟨rfl, _, rfl, below_appendSegment parentPath _⟩

theorem armEvents_cases (parentPath : NodePath) (decisions : List DecidedArm) (key : NodePath) :
    Closes key (armEvents parentPath decisions) ∨
      ((∃ decision ∈ decisions, decision.2 = true ∧ staticChildKey parentPath decision.1.1.name = key) ∧
        ∀ v, (after key v (armEvents parentPath decisions)).taken = true) := by
  induction decisions with
  | nil => exact .inl closes_nil
  | cons decision rest ih =>
    obtain ⟨⟨arm, body⟩, taken⟩ := decision
    have hcons : armEvents parentPath (((arm, body), taken) :: rest) =
        [.branchArm (appendSegment parentPath arm.name) taken] ++ armEvents parentPath rest := rfl
    rw [hcons]
    rcases ih with hc | ⟨⟨d, hd, ht, hk⟩, htaken⟩
    · by_cases hk : staticChildKey parentPath arm.name = key
      · cases taken with
        | true =>
          refine .inr ⟨⟨_, List.mem_cons_self, rfl, hk⟩, ?_⟩
          intro v
          rw [after_append]
          apply taken_after
          simp [after, KeyView.next, touchOf, touchAt, hk, KeyView.touch]
        | false =>
          refine .inl (closes_append (.inr ?_) hc)
          intro v
          exact ⟨.skipped, by simp [after, KeyView.next, touchOf, touchAt, hk, KeyView.touch], rfl⟩
      · refine .inl (closes_append (.inl ?_) hc)
        intro e he
        rw [List.mem_singleton.mp he]
        exact .inl (by simp [touchOf, touchAt, hk])
    · refine .inr ⟨⟨d, List.mem_cons_of_mem _ hd, ht, hk⟩, ?_⟩
      intro v
      rw [after_append]
      exact htaken _

theorem settles_branchFresh (hb : Below (staticPathOf parentPath) (staticKeyOf branchPath))
    (hn : ∀ decision ∈ decisions, ∀ node ∈ decision.1.2, RunnerSettles env node.2)
    (h : Emits (runTakenArms input parentPath frames (closeBranch branchPath) decisions result none)
      effects outcome) :
    Settles env false (staticPathOf parentPath) (armEvents parentPath decisions ++ recordedEvents effects)
      outcome := by
  have hs := settles_runTakenArms hb hn h
  refine ⟨inside_append.mpr ⟨inside_armEvents decisions, hs.inside⟩, ?_, ?_, ?_⟩
  · rintro output rfl key
    rcases armEvents_cases parentPath decisions key with hc | ⟨⟨d, hd, ht, rfl⟩, htaken⟩
    · exact closes_append hc (hs.closes output rfl key)
    · refine .inr ?_
      intro v
      rw [after_append]
      exact armCloses_runTakenArms hb hn h d hd ht _ (htaken v)
  · intro block ho
    exact .inl (asks_append (hs.waits block ho).asks)
  · rintro block rfl
    obtain ⟨d, hd, ht, ha, hbelow⟩ := asks_runTakenArms hn h
    obtain ⟨event, he, asked, hblock, hk⟩ := ha.asked
    refine .inr ⟨appendSegment parentPath d.1.1.name, event, asked, ?_, ?_, hblock, ?_⟩
    · exact List.mem_append_left _ (List.mem_map.mpr ⟨d, hd, by rw [ht]⟩)
    · exact List.mem_append_right _ he
    · rw [staticKeyOf_appendSegment, hk]
      exact hbelow

theorem decideArms_arms {branchName : String} {ctx : RunContext} {arms : List WalkedArm}
    (h : decideArms branchName ctx arms = .ok decisions) : decisions.map Prod.fst = arms := by
  induction arms generalizing decisions with
  | nil =>
    cases h
    rfl
  | cons arm rest ih =>
    simp only [decideArms] at h
    split at h
    · cases h
    · cases hr : decideArms branchName ctx rest with
      | error error =>
        rw [hr] at h
        cases h
      | ok tail =>
        rw [hr] at h
        cases h
        rw [List.map_cons, ih hr]

theorem mem_of_decideArms {branchName : String} {ctx : RunContext} {arms : List WalkedArm}
    (h : decideArms branchName ctx arms = .ok decisions) : ∀ decision ∈ decisions, decision.1 ∈ arms := by
  intro decision hm
  rw [← decideArms_arms h]
  exact List.mem_map_of_mem hm

theorem settles_runBranchNode {name : String} {arms : List WalkedArm}
    (hn : ∀ arm ∈ arms, ∀ node ∈ arm.2, RunnerSettles env node.2) :
    RunnerSettles env (runBranchNode env name arms) := by
  intro input parentPath frames reentry effects outcome h
  have hb := below_appendSegment parentPath name
  obtain ⟨rest, rfl, hrest⟩ := emits_runBranchNode h
  refine settles_opened ?_ (fun _ => rfl) (inside_singleton rfl rfl hb)
  rcases hrest with ⟨rfl, error, rfl⟩ | ⟨memory, decisions, last, hd, rfl, hl⟩
  · exact settles_stopped inside_nil rfl
  · have hdec : ∀ decision ∈ decisions, ∀ node ∈ decision.1.2, RunnerSettles env node.2 := by
      intro decision hm
      exact hn _ (mem_of_decideArms hd _ hm)
    cases reentry with
    | none =>
      rw [recordedEvents_append, if_neg (by simp), recordedEvents_map]
      exact settles_branchFresh hb hdec hl
    | some active => exact settles_runTakenArms hb hdec hl

end KimchiWorkflows.Engine
