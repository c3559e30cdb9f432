import KimchiWorkflows.Host.RunLease

/-!
What one action on the lease files can do.
-/

namespace KimchiWorkflows.Host

inductive Callable (s : LeaseFiles) (process : Nat) : LeaseWork → Prop where
  | acquire : Callable s process (.creating 0)
  | inspect : Callable s process .looking
  | retire {source : Nat} {o : LeaseOp} {lease : Lease} {beforeRelease : Bool} : s.ops source = some o →
      o.owner = process → releasable source o = some lease →
      Callable s process (.retiring lease beforeRelease (.marking 0))

inductive Quiet (s : LeaseFiles) (process : Nat) : LeaseWork → LeaseWork → Prop where
  | collided {retry : Nat} : Quiet s process (.creating retry) (.colliding retry)
  | refused {retry : Nat} : Quiet s process (.colliding retry) .refused
  | again {retry : Nat} : Quiet s process (.colliding retry) (.creating (retry + 1))
  | absent : Quiet s process .looking .absent
  | looked {lease : Lease} : s.lease = some lease → Quiet s process .looking (.judging lease)
  | judged {lease : Lease} : Quiet s process (.judging lease) (.inspected lease (leaseState s process lease))
  | blocked {lease : Lease} {b : Bool} {retry : Nat} :
      Quiet s process (.retiring lease b (.marking retry)) (.retiring lease b (.reading retry))
  | read {lease : Lease} {b : Bool} {retry : Nat} {marker : RetirementMarker} :
      Quiet s process (.retiring lease b (.reading retry)) (.retiring lease b (.judging marker retry))
  | lost {lease : Lease} {b : Bool} {retry : Nat} :
      Quiet s process (.retiring lease b (.reading retry)) (.retiring lease b (.retired false))
  | yielded {lease : Lease} {b : Bool} {marker : RetirementMarker} {retry : Nat} :
      Quiet s process (.retiring lease b (.judging marker retry)) (.retiring lease b (.retired false))
  | abandoned {lease : Lease} {b : Bool} {marker : RetirementMarker} {retry : Nat} :
      Quiet s process (.retiring lease b (.judging marker retry)) (.retiring lease b (.removing retry))
  | same {lease : Lease} {b : Bool} : s.lease = some lease →
      Quiet s process (.retiring lease b .checking) (.retiring lease b .acting)
  | differs {lease : Lease} {b : Bool} :
      Quiet s process (.retiring lease b .checking) (.retiring lease b (.clearing false))
  | threw {lease : Lease} :
      Quiet s process (.retiring lease true .acting) (.retiring lease true (.clearing false))

def LeaseAct.called : LeaseAct → Option Nat
  | .acquire op _ => some op
  | .inspect op _ => some op
  | .retire op _ => some op
  | .release op _ => some op
  | _ => none

inductive LeaseMove (s : LeaseFiles) : LeaseAct → LeaseFiles → Prop where
  | called {a : LeaseAct} {op process : Nat} {work : LeaseWork} : s.alive process = true → s.ops op = none →
      a.called = some op → Callable s process work → LeaseMove s a (s.set op ⟨process, work⟩)
  | quiet {a : LeaseAct} {op process : Nat} {work work' : LeaseWork} : s.alive process = true →
      s.ops op = some ⟨process, work⟩ → Quiet s process work work' → LeaseMove s a (s.set op ⟨process, work'⟩)
  | created {op process retry : Nat} : s.alive process = true → s.ops op = some ⟨process, .creating retry⟩ →
      s.lease = none →
      LeaseMove s (.advance op) ({ s with lease := some ⟨op, process⟩ }.set op ⟨process, .acquired⟩)
  | marked {op process retry : Nat} {lease : Lease} {b : Bool} : s.alive process = true →
      s.ops op = some ⟨process, .retiring lease b (.marking retry)⟩ → s.marker = none →
      LeaseMove s (.advance op)
        ({ s with marker := some ⟨lease, process⟩ }.set op ⟨process, .retiring lease b .checking⟩)
  | swept {op process retry : Nat} {lease : Lease} {b : Bool} {stage : RetireStage} : s.alive process = true →
      s.ops op = some ⟨process, .retiring lease b (.removing retry)⟩ →
      stage = .retired false ∨ stage = .marking (retry + 1) →
      LeaseMove s (.advance op) ({ s with marker := none }.set op ⟨process, .retiring lease b stage⟩)
  | acted {op process : Nat} {lease : Lease} {b : Bool} : s.alive process = true →
      s.ops op = some ⟨process, .retiring lease b .acting⟩ →
      LeaseMove s (.advance op) ({ s with performed := if b then s.performed ++ [lease] else s.performed }.set op
        ⟨process, .retiring lease b .unlinking⟩)
  | unlinked {op process : Nat} {lease : Lease} {b : Bool} : s.alive process = true →
      s.ops op = some ⟨process, .retiring lease b .unlinking⟩ →
      LeaseMove s (.advance op) ({ s with lease := none }.set op ⟨process, .retiring lease b (.clearing true)⟩)
  | cleared {op process : Nat} {lease : Lease} {b removed : Bool} : s.alive process = true →
      s.ops op = some ⟨process, .retiring lease b (.clearing removed)⟩ →
      LeaseMove s (.advance op) ({ s with marker := none }.set op ⟨process, .retiring lease b (.retired removed)⟩)
  | died {process : Nat} : LeaseMove s (.die process) { s with alive := Function.update s.alive process false }

variable {s s' : LeaseFiles}

theorem callOp_some {op process : Nat} {work : LeaseWork} (h : callOp s op process work = some s') :
    s.alive process = true ∧ s.ops op = none ∧ s' = s.set op ⟨process, work⟩ := by
  unfold callOp at h
  split at h
  · rename_i hc
    simp only [Bool.and_eq_true, Option.isNone_iff_eq_none] at hc
    exact ⟨hc.1, hc.2, (Option.some.inj h).symm⟩
  · simp at h

theorem releasable_of_deadLease {source : Nat} {o : LeaseOp} {lease : Lease} (h : deadLease o.work = some lease) :
    releasable source o = some lease := by
  unfold releasable
  split
  · rename_i hw
    rw [hw] at h
    simp [deadLease] at h
  · exact h

theorem move_of_advanceRetire {op process : Nat} {lease : Lease} {b : Bool} {stage : RetireStage}
    (ha : s.alive process = true) (hop : s.ops op = some ⟨process, .retiring lease b stage⟩)
    (h : advanceRetire s op process lease b stage = some s') : LeaseMove s (.advance op) s' := by
  cases stage with
  | marking retry =>
    simp only [advanceRetire] at h
    split at h <;> cases h
    · rename_i hm
      exact .marked ha hop (Option.isNone_iff_eq_none.mp hm)
    · exact .quiet ha hop .blocked
  | reading retry =>
    simp only [advanceRetire] at h
    split at h <;> cases h
    · exact .quiet ha hop .lost
    · exact .quiet ha hop .read
  | judging marker retry =>
    simp only [advanceRetire] at h
    split at h <;> cases h
    · exact .quiet ha hop .yielded
    · exact .quiet ha hop .abandoned
  | removing retry =>
    simp only [advanceRetire] at h
    split at h <;> cases h
    · exact .swept ha hop (.inl rfl)
    · exact .swept ha hop (.inr rfl)
  | checking =>
    simp only [advanceRetire] at h
    split at h <;> cases h
    · rename_i hl
      exact .quiet ha hop (.same hl)
    · exact .quiet ha hop .differs
  | acting =>
    cases h
    exact .acted ha hop
  | unlinking =>
    cases h
    exact .unlinked ha hop
  | clearing removed =>
    cases h
    exact .cleared ha hop
  | retired removed => simp [advanceRetire] at h

theorem move_of_advanceOp {op process : Nat} {work : LeaseWork} (ha : s.alive process = true)
    (hop : s.ops op = some ⟨process, work⟩) (h : advanceOp s op process work = some s') :
    LeaseMove s (.advance op) s' := by
  cases work with
  | creating retry =>
    simp only [advanceOp] at h
    split at h <;> cases h
    · rename_i hl
      exact .created ha hop (Option.isNone_iff_eq_none.mp hl)
    · exact .quiet ha hop .collided
  | colliding retry =>
    simp only [advanceOp] at h
    split at h <;> cases h
    · exact .quiet ha hop .refused
    · exact .quiet ha hop .again
  | looking =>
    simp only [advanceOp] at h
    split at h <;> cases h
    · exact .quiet ha hop .absent
    · rename_i hl
      exact .quiet ha hop (.looked hl)
  | judging lease =>
    cases h
    exact .quiet ha hop .judged
  | retiring lease b stage => exact move_of_advanceRetire ha hop h
  | acquired => simp [advanceOp] at h
  | refused => simp [advanceOp] at h
  | inspected lease state => simp [advanceOp] at h
  | absent => simp [advanceOp] at h

theorem move_of_step {a : LeaseAct} (h : leaseStep s a = some s') : LeaseMove s a s' := by
  cases a with
  | acquire op process =>
    obtain ⟨ha, hop, rfl⟩ := callOp_some h
    exact .called ha hop rfl .acquire
  | inspect op process =>
    obtain ⟨ha, hop, rfl⟩ := callOp_some h
    exact .called ha hop rfl .inspect
  | retire op source =>
    obtain ⟨o, ho, h⟩ := Option.bind_eq_some_iff.mp h
    obtain ⟨lease, hl, h⟩ := Option.bind_eq_some_iff.mp h
    obtain ⟨ha, hop, rfl⟩ := callOp_some h
    exact .called ha hop rfl (.retire ho rfl (releasable_of_deadLease hl))
  | release op source =>
    obtain ⟨o, ho, h⟩ := Option.bind_eq_some_iff.mp h
    obtain ⟨lease, hl, h⟩ := Option.bind_eq_some_iff.mp h
    obtain ⟨ha, hop, rfl⟩ := callOp_some h
    exact .called ha hop rfl (.retire ho rfl hl)
  | advance op =>
    obtain ⟨o, ho, h⟩ := Option.bind_eq_some_iff.mp h
    split at h
    · rename_i ha
      exact move_of_advanceOp ha ho h
    · simp at h
  | fail op =>
    obtain ⟨o, ho, h⟩ := Option.bind_eq_some_iff.mp h
    obtain ⟨process, work⟩ := o
    simp only at h
    split at h
    · split at h <;> cases h
      rename_i ha
      exact .quiet ha ho .threw
    · simp at h
  | die process =>
    cases h
    exact .died

end KimchiWorkflows.Host
