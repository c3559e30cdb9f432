import KimchiWorkflows.Host.SubagentProcess

/-!
What holds of a subagent's process in whatever order its pipes, its exit, its timers and an abort come.
-/

namespace KimchiWorkflows.Host.SubagentProcess

open Json Stepping KimchiWorkflows.Host.Transcript

variable {events : List SubagentEvent} {event : SubagentEvent} {child child' : Subagent} {code : Option Int}

/-- What holds besides: where the outcome, the exit code and the timers come from. -/
structure Kept (events : List SubagentEvent) (child : Subagent) : Prop where
  code : child.exited = true → .exit child.exitCode ∈ events
  idle : child.idle = true → child.exited = true
  clear : child.settled = none → child.destroyed = false
  shut : ∀ code, child.settled = some (.resolved code) → child.destroyed = true
  outcome : ∀ outcome, child.settled = some outcome → Reported events outcome
  read : child.chunks = received .stdout events
  tail : child.stderrTail = sliceTail stderrTailChars (units (received .stderr events).flatten)
  unasked : child.killing = false → child.signals = []
  asked : child.killing = true → child.watching = false ∧
    (child.signals = [.sigterm] ∧ (child.escalation = true ∨ child.reaped = true) ∨
      child.signals = [.sigterm, .sigkill] ∧ child.escalation = false)
  calm : child.escalation = true → child.killing = true
  past : child.reaped = true → child.escalation = false ∧ child.watching = false

theorem Reported.mono {outcome : ExitOutcome} {more : List SubagentEvent} (h : Reported events outcome) :
    Reported (events ++ more) outcome := by
  cases outcome with
  | resolved code => exact h.imp (List.mem_append_left _) (List.mem_append_left _)
  | rejected error => exact List.mem_append_left _ h

theorem Kept.mono (event : SubagentEvent) (h : Kept events child) (hs : ∀ pipe, received pipe [event] = []) :
    Kept (events ++ [event]) child where
  code := fun he => List.mem_append_left _ (h.code he)
  idle := h.idle
  clear := h.clear
  shut := h.shut
  outcome := fun outcome ho => (h.outcome outcome ho).mono
  read := by rw [received_concat, hs, List.append_nil, h.read]
  tail := by rw [received_concat, hs, List.append_nil, h.tail]
  unasked := h.unasked
  asked := h.asked
  calm := h.calm
  past := h.past

theorem Kept.finish (h : Kept events child) (hr : Reported events (.resolved code)) : Kept events (child.finish code) := by
  unfold Subagent.finish
  split_ifs with hs
  · exact h
  · refine { h with idle := by simp, clear := by simp, shut := fun _ _ => rfl, outcome := ?_ }
    intro outcome ho
    cases ho
    exact hr

theorem Kept.armIdle (h : Kept events child) (he : child.exited = true) : Kept events child.armIdle :=
  { h with idle := fun _ => he }

theorem Kept.consume (h : Kept events child) (pipe : Pipe) (chunk : Text) :
    Kept (events ++ [.data pipe chunk]) (child.consume chunk pipe) := by
  have hcode : child.exited = true → .exit child.exitCode ∈ events ++ [.data pipe chunk] :=
    fun he => List.mem_append_left _ (h.code he)
  have houtcome : ∀ outcome, child.settled = some outcome → Reported (events ++ [.data pipe chunk]) outcome :=
    fun outcome ho => (h.outcome outcome ho).mono
  cases pipe with
  | stdout =>
    have hnone : received .stderr [.data .stdout chunk] = [] := rfl
    rw [consume_stdout]
    refine { h with code := hcode, outcome := houtcome, read := ?_, tail := ?_ }
    · rw [received_concat, h.read]
      rfl
    · rw [received_concat, hnone, List.append_nil]
      exact h.tail
  | stderr =>
    have hnone : received .stdout [.data .stderr chunk] = [] := rfl
    have hone : received .stderr [.data .stderr chunk] = [chunk] := rfl
    rw [consume_stderr]
    refine { h with code := hcode, outcome := houtcome, read := ?_, tail := ?_ }
    · rw [received_concat, hnone, List.append_nil]
      exact h.read
    · rw [received_concat, hone, List.flatten_append, List.flatten_singleton, units_append]
      simp only [h.tail, sliceTail_append]

theorem Kept.closePipe (h : Kept events child) (pipe : Pipe) : Kept events (child.closePipe pipe) := by
  cases pipe <;> exact { h with }

/-- A child that is asked to end for the first time. -/
theorem Kept.kill (h : Kept events child) (hw : child.watching = true) :
    Kept events (Subagent.kill { child with watching := false }) := by
  have hk : child.killing = false := by
    apply Bool.eq_false_iff.mpr
    intro hk
    rw [(h.asked hk).1] at hw
    exact Bool.false_ne_true hw
  refine { h with unasked := fun hf => absurd hf (by simp [Subagent.kill]), asked := fun _ => ⟨rfl, .inl ⟨?_, .inl ?_⟩⟩,
                  calm := fun _ => rfl, past := fun hr => absurd (hw.symm.trans (h.past hr).2) (by simp) }
  · simp [Subagent.kill, h.unasked hk]
  · simp [Subagent.kill, hk]

theorem kept_step (h : Kept events child) (hs : child.step event = some child') : Kept (events ++ [event]) child' := by
  cases event with
  | data pipe chunk =>
    simp only [Subagent.step] at hs
    split_ifs at hs with ho he
    · cases hs
      exact (h.consume pipe chunk).armIdle he
    · cases hs
      exact h.consume pipe chunk
  | ended pipe =>
    have hmono := (h.mono (.ended pipe) (fun _ => rfl)).closePipe pipe
    simp only [Subagent.step] at hs
    split_ifs at hs with ho he
    · cases hs
      exact hmono.finish (.inl (hmono.code (by simpa using (Bool.and_eq_true_iff.mp he).1)))
    · cases hs
      exact hmono
  | pipeFailed pipe =>
    cases hs
    exact h.mono _ (fun _ => rfl)
  | failed error =>
    have hmono := h.mono (.failed error) (fun _ => rfl)
    simp only [Subagent.step] at hs
    split_ifs at hs with hset
    · cases hs
      exact hmono
    · cases hs
      refine { hmono with idle := by simp, clear := by simp, shut := by simp, outcome := ?_ }
      intro outcome ho
      cases ho
      simp [Reported]
  | exit code =>
    have hmono := h.mono (.exit code) (fun _ => rfl)
    have hgone : Kept (events ++ [.exit code]) { child with exited := true, exitCode := code } :=
      { hmono with code := by simp, idle := fun _ => rfl }
    simp only [Subagent.step] at hs
    split_ifs at hs
    · cases hs
      exact hgone.finish (.inl (by simp))
    · cases hs
      exact hgone.armIdle rfl
  | close code =>
    have hmono := h.mono (.close code) (fun _ => rfl)
    cases hs
    exact hmono.finish (.inr (by simp))
  | idleFired =>
    have hmono := h.mono .idleFired (fun _ => rfl)
    simp only [Subagent.step] at hs
    split_ifs at hs with hi
    cases hs
    have hfired : Kept (events ++ [.idleFired]) { child with idle := false } := { hmono with idle := by simp }
    exact hfired.finish (.inl (hmono.code (h.idle hi)))
  | abort =>
    have hmono := h.mono .abort (fun _ => rfl)
    simp only [Subagent.step] at hs
    split_ifs at hs with hw
    cases hs
    exact hmono.kill hw
  | escalated =>
    have hmono := h.mono .escalated (fun _ => rfl)
    simp only [Subagent.step] at hs
    split_ifs at hs with he
    cases hs
    have hk := h.calm he
    obtain ⟨hw, ⟨hsig, -⟩ | ⟨-, hf⟩⟩ := h.asked hk
    · refine { hmono with unasked := fun hf => absurd (hk.symm.trans hf) (by simp),
                          asked := fun _ => ⟨hw, .inr ⟨?_, rfl⟩⟩, calm := by simp, past := fun _ => ⟨rfl, hw⟩ }
      simp [hsig]
    · exact absurd (he.symm.trans hf) (by simp)
  | reaped =>
    have hmono := h.mono .reaped (fun _ => rfl)
    simp only [Subagent.step] at hs
    split_ifs at hs
    cases hs
    refine { hmono with asked := fun hk => ⟨rfl, ?_⟩, calm := by simp, past := fun _ => ⟨rfl, rfl⟩ }
    obtain ⟨-, ⟨hsig, -⟩ | ⟨hsig, -⟩⟩ := h.asked hk
    · exact .inl ⟨hsig, .inr rfl⟩
    · exact .inr ⟨hsig, rfl⟩

def Due (child : Subagent) : Prop := child.exited = true → child.settled = none → child.idle = true ∧ 0 < child.openPipes

theorem Due.read (h : Due child) (chunks : List Text) (stderrTail : List Nat) : Due { child with chunks, stderrTail } := h

theorem Due.consume (h : Due child) (chunk : Text) (pipe : Pipe) : Due (child.consume chunk pipe) := by
  cases pipe with
  | stdout => exact h.read _ _
  | stderr => exact h.read _ _

theorem settled_finish (child : Subagent) (code : Option Int) : (child.finish code).settled ≠ none := by
  unfold Subagent.finish
  split_ifs with h
  · exact Option.isSome_iff_ne_none.mp h
  · exact Option.some_ne_none _

theorem due_step (h : Due child) (hs : child.step event = some child') : Due child' := by
  cases event with
  | data pipe chunk =>
    simp only [Subagent.step] at hs
    have hread := h.consume chunk pipe
    generalize child.consume chunk pipe = read at hs hread
    split_ifs at hs with ho he <;> cases hs <;> intro hx hn
    · exact ⟨rfl, (hread hx hn).2⟩
    · exact absurd hx he
  | ended pipe =>
    simp only [Subagent.step] at hs
    split_ifs at hs with ho he <;> cases hs <;> intro hx hn
    · exact absurd hn (settled_finish _ _)
    · have hdue : child.idle = true := by
        cases pipe <;> exact (h hx hn).1
      refine ⟨by cases pipe <;> exact hdue, Nat.pos_of_ne_zero ?_⟩
      intro h0
      exact he (by simp [hx, h0])
  | pipeFailed pipe =>
    cases hs
    exact h
  | failed error =>
    simp only [Subagent.step] at hs
    split_ifs at hs with hset <;> cases hs
    · exact h
    · intro _ hn
      cases hn
  | exit code =>
    simp only [Subagent.step] at hs
    split_ifs at hs with h0 <;> cases hs <;> intro hx hn
    · exact absurd hn (settled_finish _ _)
    · exact ⟨rfl, Nat.pos_of_ne_zero h0⟩
  | close code =>
    cases hs
    intro _ hn
    exact absurd hn (settled_finish _ _)
  | idleFired =>
    simp only [Subagent.step] at hs
    split_ifs at hs
    cases hs
    intro _ hn
    exact absurd hn (settled_finish _ _)
  | abort =>
    simp only [Subagent.step] at hs
    split_ifs at hs
    cases hs
    exact h
  | escalated =>
    simp only [Subagent.step] at hs
    split_ifs at hs
    cases hs
    exact h
  | reaped =>
    simp only [Subagent.step] at hs
    split_ifs at hs
    cases hs
    exact h

def Quiet (child : Subagent) : Prop := child.escalation = false ∧ child.watching = false

/-- What does not change any more: an outcome, what was read once the pipes are gone, and the signals of a quiet child. -/
structure Later (child child' : Subagent) : Prop where
  settled : ∀ outcome, child.settled = some outcome → child'.settled = some outcome
  read : child.destroyed = true →
    child'.destroyed = true ∧ child'.chunks = child.chunks ∧ child'.stderrTail = child.stderrTail
  quiet : Quiet child → Quiet child' ∧ child'.signals = child.signals

theorem Later.refl (child : Subagent) : Later child child :=
  ⟨fun _ h => h, fun h => ⟨h, rfl, rfl⟩, fun h => ⟨h, rfl⟩⟩

theorem Later.trans {child'' : Subagent} (h : Later child child') (h' : Later child' child'') : Later child child'' where
  settled := fun outcome ho => h'.settled outcome (h.settled outcome ho)
  read := by
    intro hd
    obtain ⟨hd', hc, ht⟩ := h.read hd
    obtain ⟨hd'', hc', ht'⟩ := h'.read hd'
    exact ⟨hd'', hc'.trans hc, ht'.trans ht⟩
  quiet := by
    intro hq
    obtain ⟨hq', hsig⟩ := h.quiet hq
    exact ⟨(h'.quiet hq').1, (h'.quiet hq').2.trans hsig⟩

theorem Later.finish (child : Subagent) (code : Option Int) : Later child (child.finish code) := by
  unfold Subagent.finish
  split_ifs with hs
  · exact .refl child
  · exact ⟨fun _ ho => absurd (ho ▸ rfl) hs, fun _ => ⟨rfl, rfl, rfl⟩, fun h => ⟨h, rfl⟩⟩

theorem Later.closePipe (child : Subagent) (pipe : Pipe) : Later child (child.closePipe pipe) := by
  cases pipe <;> exact ⟨fun _ h => h, fun h => ⟨h, rfl, rfl⟩, fun h => ⟨h, rfl⟩⟩

theorem Later.reading (hd : child.destroyed = false) (chunks : List Text) (stderrTail : List Nat) :
    Later child { child with chunks, stderrTail } :=
  ⟨fun _ h => h, fun h => absurd (h.symm.trans hd) (by simp), fun h => ⟨h, rfl⟩⟩

theorem Later.consume (hd : child.destroyed = false) (chunk : Text) (pipe : Pipe) :
    Later child (child.consume chunk pipe) := by
  cases pipe with
  | stdout => exact .reading hd _ _
  | stderr => exact .reading hd _ _

theorem later_step (hs : child.step event = some child') : Later child child' := by
  cases event with
  | data pipe chunk =>
    simp only [Subagent.step] at hs
    split_ifs at hs with ho he
    all_goals
      have hd : child.destroyed = false := by
        have := (Bool.and_eq_true_iff.mp ho).2
        simpa using this
      have hread := Later.consume hd chunk pipe
      generalize child.consume chunk pipe = read at hs hread
      cases hs
    · exact ⟨hread.settled, hread.read, hread.quiet⟩
    · exact hread
  | ended pipe =>
    simp only [Subagent.step] at hs
    split_ifs at hs <;> cases hs
    · exact (Later.closePipe child pipe).trans (.finish _ _)
    · exact .closePipe child pipe
  | pipeFailed pipe =>
    cases hs
    exact .refl child
  | failed error =>
    simp only [Subagent.step] at hs
    split_ifs at hs with hset <;> cases hs
    · exact .refl child
    · exact ⟨fun _ ho => absurd (ho ▸ rfl) hset, fun h => ⟨h, rfl, rfl⟩, fun h => ⟨h, rfl⟩⟩
  | exit code =>
    have hgone : Later child { child with exited := true, exitCode := code } :=
      ⟨fun _ h => h, fun h => ⟨h, rfl, rfl⟩, fun h => ⟨h, rfl⟩⟩
    simp only [Subagent.step] at hs
    split_ifs at hs <;> cases hs
    · exact hgone.trans (.finish _ _)
    · exact ⟨hgone.settled, hgone.read, hgone.quiet⟩
  | close code =>
    cases hs
    exact .finish child code
  | idleFired =>
    simp only [Subagent.step] at hs
    split_ifs at hs
    cases hs
    have hfired : Later child { child with idle := false } :=
      ⟨fun _ h => h, fun h => ⟨h, rfl, rfl⟩, fun h => ⟨h, rfl⟩⟩
    exact hfired.trans (.finish _ _)
  | abort =>
    simp only [Subagent.step] at hs
    split_ifs at hs with hw
    cases hs
    exact ⟨fun _ h => h, fun h => ⟨h, rfl, rfl⟩, fun h => absurd (hw.symm.trans h.2) (by simp)⟩
  | escalated =>
    simp only [Subagent.step] at hs
    split_ifs at hs with he
    cases hs
    exact ⟨fun _ h => h, fun h => ⟨h, rfl, rfl⟩, fun h => absurd (he.symm.trans h.1) (by simp)⟩
  | reaped =>
    simp only [Subagent.step] at hs
    split_ifs at hs
    cases hs
    exact ⟨fun _ h => h, fun h => ⟨h, rfl, rfl⟩, fun _ => ⟨⟨rfl, rfl⟩, rfl⟩⟩

variable {stdout stderr : Bool} {signal : AbortSignal} {more : List SubagentEvent} {outcome : ExitOutcome}

theorem later_run (h : Run Subagent.step Unconditional child more child') : Later child child' := by
  induction h with
  | nil => exact .refl child
  | snoc _ hs _ ih => exact ih.trans (later_step hs)

theorem kept_spawned (stdout stderr : Bool) (signal : AbortSignal) : Kept [] (spawned stdout stderr signal) := by
  have htail : sliceTail stderrTailChars (units []) = [] := sliceTail_nil _
  cases signal <;>
    exact ⟨by simp [spawned, Subagent.kill], by simp [spawned, Subagent.kill], by simp [spawned, Subagent.kill],
      by simp [spawned, Subagent.kill], by simp [spawned, Subagent.kill], rfl, htail.symm,
      by simp [spawned, Subagent.kill], by simp [spawned, Subagent.kill], by simp [spawned, Subagent.kill],
      by simp [spawned, Subagent.kill]⟩

theorem kept_run (h : Run Subagent.step Unconditional (spawned stdout stderr signal) events child) :
    Kept events child ∧ Due child := by
  induction h with
  | nil =>
    refine ⟨kept_spawned stdout stderr signal, ?_⟩
    cases signal <;> exact fun he => absurd he Bool.false_ne_true
  | snoc _ hs _ ih => exact ⟨kept_step ih.1 hs, due_step ih.2 hs⟩

/-- However its events fall, a subagent's process is attended to. -/
theorem attended (h : Run Subagent.step Unconditional (spawned stdout stderr signal) events child) :
    Attended events child := by
  obtain ⟨hk, hd⟩ := kept_run h
  refine ⟨hd, hk.outcome, hk.read, hk.tail, ?_, ?_⟩
  · cases hkilling : child.killing with
    | false => exact .inl (hk.unasked hkilling)
    | true => exact .inr ((hk.asked hkilling).2.imp And.left And.left)
  · intro hsig
    have hkilling : child.killing = true := by
      by_contra hn
      rw [hk.unasked (Bool.eq_false_iff.mpr hn)] at hsig
      cases hsig
    obtain ⟨-, ⟨-, hp⟩ | ⟨hs, -⟩⟩ := hk.asked hkilling
    · exact hp
    · rw [hsig] at hs
      cases hs

/-- A pipe held open after the exit is read for as long as it brings anything, and then let go. -/
theorem attended_held :
    Attended [.data .stdout ['a'], .exit (some 0), .data .stdout ['b'], .idleFired]
      { stdoutOpen := true, stderrOpen := true, exited := true, exitCode := some 0, destroyed := true
        settled := some (.resolved (some 0)), chunks := [['a'], ['b']], watching := true } :=
  @attended _ _ true true .pending (run_of_steps rfl)

/-- Once it has settled, what it answers is the turn of all it wrote, and stays that; once it is reaped it is left alone. -/
theorem answer_kept (h : Run Subagent.step Unconditional (spawned stdout stderr signal) events child)
    (hs : child.settled = some outcome) (h' : Run Subagent.step Unconditional child more child') :
    child'.settled = some outcome ∧
    (∀ js code, outcome = .resolved code → child'.answer js outcome =
      (readLines js (received .stdout events).flatten).map (fun registers =>
        .ok { code := code.getD 0, turn := registers.turn
              stderrTail := sliceTail stderrTailChars (units (received .stderr events).flatten) })) ∧
    (child.reaped = true → child'.signals = child.signals) := by
  obtain ⟨hk, -⟩ := kept_run h
  have hl := later_run h'
  refine ⟨hl.settled outcome hs, ?_, fun hr => (hl.quiet (hk.past hr)).2⟩
  rintro js code rfl
  obtain ⟨-, hc, ht⟩ := hl.read (hk.shut code hs)
  rw [Subagent.answer, hc, ht, hk.read, hk.tail, readChunks_eq, Option.map_map]
  rfl

/-- A child killed by an abort has no exit code, and no signal follows its end. -/
theorem answer_kept_killed :
    ({ stdoutOpen := false, stderrOpen := false, exited := true, destroyed := true, settled := some (.resolved none)
       killing := true, reaped := true, signals := [.sigterm] } : Subagent).settled = some (.resolved none) ∧
    (∀ js code, ExitOutcome.resolved none = .resolved code →
      ({ stdoutOpen := false, stderrOpen := false, exited := true, destroyed := true, settled := some (.resolved none)
         killing := true, reaped := true, signals := [.sigterm] } : Subagent).answer js (.resolved none) =
      (readLines js (received .stdout [.abort, .ended .stdout, .ended .stderr, .exit none, .reaped]).flatten).map
        (fun registers => .ok { code := code.getD 0, turn := registers.turn
                                stderrTail := sliceTail stderrTailChars
                                  (units (received .stderr
                                    [.abort, .ended .stdout, .ended .stderr, .exit none, .reaped]).flatten) })) ∧
    (true = true → ([.sigterm] : List Signal) = [.sigterm]) :=
  @answer_kept [.abort, .ended .stdout, .ended .stderr, .exit none, .reaped]
    { stdoutOpen := false, stderrOpen := false, exited := true, destroyed := true
      settled := some (.resolved none), killing := true, reaped := true, signals := [.sigterm] }
    _ true true .pending [.close none] _ (run_of_steps rfl) rfl (run_of_steps rfl)

end KimchiWorkflows.Host.SubagentProcess
