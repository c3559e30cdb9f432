import KimchiWorkflows.Host.LeaseMoves

/-!
The lease of a run excludes: what holds while no reclaimer removes the marker of a living one.
-/

namespace KimchiWorkflows.Host

def RetireStage.critical : RetireStage → Bool
  | .checking => true
  | .acting => true
  | .unlinking => true
  | .clearing _ => true
  | _ => false

def RetireStage.confirmed : RetireStage → Bool
  | .acting => true
  | .unlinking => true
  | _ => false

def RetireStage.removed : RetireStage → Bool
  | .clearing removed => removed
  | .retired removed => removed
  | _ => false

def Known (s : LeaseFiles) (lease : Lease) : Prop := s.ops lease.executionId = some ⟨lease.owner, .acquired⟩

def Released (s : LeaseFiles) (lease : Lease) : Prop :=
  ∃ op b stage, s.ops op = some ⟨lease.owner, .retiring lease b stage⟩ ∧ stage.removed = true

/-- An operation of a living process between its marker and the removal of its marker. -/
def Critical (s : LeaseFiles) (op process : Nat) : Prop :=
  s.alive process = true ∧ ∃ lease b stage, s.ops op = some ⟨process, .retiring lease b stage⟩ ∧
    RetireStage.critical stage = true

/-- An operation of a living process that found the lease it was given in the file. -/
def Confirmed (s : LeaseFiles) (op process : Nat) (lease : Lease) : Prop :=
  s.alive process = true ∧ ∃ b stage, s.ops op = some ⟨process, .retiring lease b stage⟩ ∧
    RetireStage.confirmed stage = true

structure Sound (s : LeaseFiles) : Prop where
  file : ∀ lease, s.lease = some lease → Known s lease
  judging : ∀ op process lease, s.ops op = some ⟨process, .judging lease⟩ → Known s lease
  inspected : ∀ op process lease state, s.ops op = some ⟨process, .inspected lease state⟩ →
    Known s lease ∧ (state = .dead → s.alive lease.owner = false)
  target : ∀ op process lease b stage, s.ops op = some ⟨process, .retiring lease b stage⟩ →
    Known s lease ∧ (s.alive lease.owner = true → lease.owner = process)
  guarded : ∀ op process, Critical s op process → ∃ marker, s.marker = some marker ∧ marker.owner = process
  alone : ∀ op other process process', Critical s op process → Critical s other process' → op = other
  confirmed : ∀ op process lease, Confirmed s op process lease → s.lease = some lease
  held : ∀ op process, s.ops op = some ⟨process, .acquired⟩ → s.alive process = true →
    s.lease = some ⟨op, process⟩ ∨ Released s ⟨op, process⟩

/-- A marker is removed as a dead reclaimer's only while no living process owns the marker file. -/
def SparesLiveMarkers (s : LeaseFiles) (a : LeaseAct) : Prop :=
  ∀ op process lease b retry marker, a = .advance op →
    s.ops op = some ⟨process, .retiring lease b (.removing retry)⟩ → s.marker = some marker →
    s.alive marker.owner = false

variable {s s' : LeaseFiles} {a : LeaseAct}

@[simp, grind =] theorem ops_set (s : LeaseFiles) (op k : Nat) (o : LeaseOp) :
    (s.set op o).ops k = if k = op then some o else s.ops k := by
  simp [LeaseFiles.set, Function.update_apply]

@[simp, grind =] theorem lease_set (s : LeaseFiles) (op : Nat) (o : LeaseOp) : (s.set op o).lease = s.lease := rfl

@[simp, grind =] theorem marker_set (s : LeaseFiles) (op : Nat) (o : LeaseOp) : (s.set op o).marker = s.marker := rfl

@[simp, grind =] theorem alive_set (s : LeaseFiles) (op : Nat) (o : LeaseOp) : (s.set op o).alive = s.alive := rfl

@[simp, grind =] theorem performed_set (s : LeaseFiles) (op : Nat) (o : LeaseOp) :
    (s.set op o).performed = s.performed := rfl

theorem alive_of_move {process : Nat} (h : LeaseMove s a s') (ha : s'.alive process = true) :
    s.alive process = true := by
  cases h <;> try exact ha
  rename_i dead
  by_cases hp : process = dead
  · simp [hp] at ha
  · simpa [hp] using ha

theorem known_move {lease : Lease} (h : LeaseMove s a s') (hk : Known s lease) : Known s' lease := by
  unfold Known at *
  cases h with
  | died => exact hk
  | quiet _ hop hq => cases hq <;> grind
  | _ => grind

theorem released_move {lease : Lease} (h : LeaseMove s a s') (hk : Released s lease) : Released s' lease := by
  obtain ⟨op, b, stage, hop, hr⟩ := hk
  cases h with
  | died => exact ⟨op, b, stage, hop, hr⟩
  | quiet _ hop' hq => cases hq <;> exact ⟨op, b, stage, by grind [RetireStage.removed], hr⟩
  | @cleared moved process lease' b' removed _ hop' =>
    by_cases hk : op = moved
    · subst hk
      rw [hop] at hop'
      cases hop'
      exact ⟨op, b, .retired removed, by simp, hr⟩
    · exact ⟨op, b, stage, by grind, hr⟩
  | swept _ hop' hs => exact ⟨op, b, stage, by grind [RetireStage.removed], hr⟩
  | _ => exact ⟨op, b, stage, by grind [RetireStage.removed], hr⟩

theorem known_of_releasable (hs : Sound s) {source : Nat} {o : LeaseOp} {lease : Lease}
    (ho : s.ops source = some o) (hl : releasable source o = some lease) :
    Known s lease ∧ (s.alive lease.owner = true → lease.owner = o.owner) := by
  obtain ⟨owner, work⟩ := o
  cases work with
  | acquired =>
    obtain rfl := Option.some.inj hl
    exact ⟨ho, fun _ => rfl⟩
  | inspected found state =>
    cases state with
    | dead =>
      obtain rfl := Option.some.inj hl
      obtain ⟨hk, hdead⟩ := hs.inspected _ _ _ _ ho
      exact ⟨hk, fun ha => by simp [hdead rfl] at ha⟩
    | _ => simp [releasable, deadLease] at hl
  | _ => simp [releasable, deadLease] at hl

theorem critical_of_confirmed {op process : Nat} {lease : Lease} (h : Confirmed s op process lease) :
    Critical s op process := by
  obtain ⟨ha, b, stage, hop, hc⟩ := h
  refine ⟨ha, lease, b, stage, hop, ?_⟩
  cases stage <;> simp_all [RetireStage.confirmed, RetireStage.critical]

/-- An operation enters only by writing the marker where there was none. -/
theorem critical_origin {k process : Nat} (h : LeaseMove s a s') (hc : Critical s' k process) :
    Critical s k process ∨
      a = .advance k ∧ s.marker = none ∧ ∃ marker, s'.marker = some marker ∧ marker.owner = process := by
  obtain ⟨ha, lease, b, stage, hop, hs⟩ := hc
  have ha := alive_of_move h ha
  cases h with
  | called _ _ _ hc => cases hc <;> grind [Critical, RetireStage.critical]
  | quiet _ hop' hq => cases hq <;> grind [Critical, RetireStage.critical]
  | _ => grind [Critical, RetireStage.critical]

theorem confirmed_origin {k process : Nat} {lease : Lease} (h : LeaseMove s a s') (hc : Confirmed s' k process lease) :
    Confirmed s k process lease ∨ s.lease = some lease ∧ s'.lease = s.lease := by
  obtain ⟨ha, b, stage, hop, hs⟩ := hc
  have ha := alive_of_move h ha
  cases h with
  | called _ _ _ hc => cases hc <;> grind [Confirmed, RetireStage.confirmed]
  | quiet _ hop' hq => cases hq <;> grind [Confirmed, RetireStage.confirmed]
  | _ => grind [Confirmed, RetireStage.confirmed]

theorem alone_move (hs : Sound s) (h : LeaseMove s a s') {op other process process' : Nat}
    (hc : Critical s' op process) (hc' : Critical s' other process') : op = other := by
  obtain hc | ⟨ha, hn, _⟩ := critical_origin h hc <;> obtain hc' | ⟨ha', hn', _⟩ := critical_origin h hc'
  · exact hs.alone _ _ _ _ hc hc'
  · obtain ⟨marker, hm, _⟩ := hs.guarded _ _ hc
    simp [hm] at hn'
  · obtain ⟨marker, hm, _⟩ := hs.guarded _ _ hc'
    simp [hm] at hn
  · rw [ha] at ha'
    exact LeaseAct.advance.inj ha'

theorem guarded_move (hs : Sound s) (hm : SparesLiveMarkers s a) (h : LeaseMove s a s') {op process : Nat}
    (hc : Critical s' op process) : ∃ marker, s'.marker = some marker ∧ marker.owner = process := by
  obtain hold | ⟨_, _, hnew⟩ := critical_origin h hc
  swap
  · exact hnew
  obtain ⟨marker, hmarker, rfl⟩ := hs.guarded _ _ hold
  have halive := hold.1
  cases h with
  | marked _ _ hn => simp [hmarker] at hn
  | swept _ hop _ =>
    have hdead := hm _ _ _ _ _ marker rfl hop hmarker
    simp [halive] at hdead
  | @cleared moved owner lease b removed ha hop =>
    -- only the operation that is in the critical part removes its marker, and it leaves
    have hmoved : Critical s moved owner := ⟨ha, lease, b, _, hop, rfl⟩
    obtain rfl := hs.alone _ _ _ _ hold hmoved
    obtain ⟨_, _, _, _, hop', hcritical⟩ := hc
    simp only [ops_set, if_true, Option.some.injEq, LeaseOp.mk.injEq, LeaseWork.retiring.injEq] at hop'
    rw [← hop'.2.2.2] at hcritical
    simp [RetireStage.critical] at hcritical
  | _ => exact ⟨marker, hmarker, rfl⟩

theorem confirmed_move (hs : Sound s) (h : LeaseMove s a s') {op process : Nat} {lease : Lease}
    (hc : Confirmed s' op process lease) : s'.lease = some lease := by
  obtain hold | ⟨hl, he⟩ := confirmed_origin h hc
  swap
  · exact he.trans hl
  have hlease := hs.confirmed _ _ _ hold
  cases h with
  | created _ _ hn => simp [hlease] at hn
  | @unlinked moved owner lease' b ha hop =>
    have hmoved : Critical s moved owner := ⟨ha, lease', b, _, hop, rfl⟩
    obtain rfl := hs.alone _ _ _ _ (critical_of_confirmed hold) hmoved
    obtain ⟨_, _, _, hop', hconfirmed⟩ := hc
    simp only [ops_set, if_true, Option.some.injEq, LeaseOp.mk.injEq, LeaseWork.retiring.injEq] at hop'
    rw [← hop'.2.2.2] at hconfirmed
    simp [RetireStage.confirmed] at hconfirmed
  | _ => exact hlease

theorem op_of_move {k process : Nat} {work : LeaseWork} (h : LeaseMove s a s')
    (hk : s'.ops k = some ⟨process, work⟩) :
    s.ops k = some ⟨process, work⟩ ∨ Callable s process work ∨
      (∃ before, s.ops k = some ⟨process, before⟩ ∧ Quiet s process before work) ∨
      (work = .acquired ∧ s'.lease = some ⟨k, process⟩) ∨
      ∃ lease b stage stage', s.ops k = some ⟨process, .retiring lease b stage⟩ ∧
        work = .retiring lease b stage' := by
  have hset : ∀ {files : LeaseFiles} {op owner : Nat} {now : LeaseWork}, files.ops = s.ops →
      (files.set op ⟨owner, now⟩).ops k = some ⟨process, work⟩ →
      s.ops k = some ⟨process, work⟩ ∨ k = op ∧ owner = process ∧ now = work := by
    intro files op owner now hfiles hops
    rw [ops_set, hfiles] at hops
    split at hops
    · cases hops
      exact .inr ⟨‹_›, rfl, rfl⟩
    · exact .inl hops
  have hretiring : ∀ {files : LeaseFiles} {op owner : Nat} {lease : Lease} {b : Bool} {stage stage' : RetireStage},
      files.ops = s.ops → s.ops op = some ⟨owner, .retiring lease b stage⟩ →
      (files.set op ⟨owner, .retiring lease b stage'⟩).ops k = some ⟨process, work⟩ →
      s.ops k = some ⟨process, work⟩ ∨ Callable s process work ∨
        (∃ before, s.ops k = some ⟨process, before⟩ ∧ Quiet s process before work) ∨
        (work = .acquired ∧ s'.lease = some ⟨k, process⟩) ∨
        ∃ lease b stage stage', s.ops k = some ⟨process, .retiring lease b stage⟩ ∧
          work = .retiring lease b stage' := by
    intro files op owner lease b stage stage' hfiles hop hops
    obtain hold | ⟨rfl, rfl, rfl⟩ := hset hfiles hops
    · exact .inl hold
    · exact .inr (.inr (.inr (.inr ⟨_, _, _, _, hop, rfl⟩)))
  cases h with
  | called _ _ _ hc =>
    obtain hold | ⟨rfl, rfl, rfl⟩ := hset rfl hk
    · exact .inl hold
    · exact .inr (.inl hc)
  | quiet _ hop hq =>
    obtain hold | ⟨rfl, rfl, rfl⟩ := hset rfl hk
    · exact .inl hold
    · exact .inr (.inr (.inl ⟨_, hop, hq⟩))
  | created _ hop _ =>
    obtain hold | ⟨rfl, rfl, rfl⟩ := hset rfl hk
    · exact .inl hold
    · exact .inr (.inr (.inr (.inl ⟨rfl, rfl⟩)))
  | died => exact .inl hk
  | marked _ hop _ => exact hretiring rfl hop hk
  | swept _ hop _ => exact hretiring rfl hop hk
  | acted _ hop => exact hretiring rfl hop hk
  | unlinked _ hop => exact hretiring rfl hop hk
  | cleared _ hop => exact hretiring rfl hop hk

theorem acquired_origin {k process : Nat} (h : LeaseMove s a s') (hk : s'.ops k = some ⟨process, .acquired⟩) :
    s.ops k = some ⟨process, .acquired⟩ ∨ s'.lease = some ⟨k, process⟩ := by
  obtain hold | hc | ⟨before, _, hq⟩ | ⟨_, hl⟩ | ⟨_, _, _, _, _, hw⟩ := op_of_move h hk
  · exact .inl hold
  · cases hc
  · cases hq
  · exact .inr hl
  · cases hw

theorem judging_origin {k process : Nat} {lease : Lease} (h : LeaseMove s a s')
    (hk : s'.ops k = some ⟨process, .judging lease⟩) :
    s.ops k = some ⟨process, .judging lease⟩ ∨ s.lease = some lease := by
  obtain hold | hc | ⟨before, _, hq⟩ | ⟨hw, _⟩ | ⟨_, _, _, _, _, hw⟩ := op_of_move h hk
  · exact .inl hold
  · cases hc
  · cases hq with
    | looked hl => exact .inr hl
  · cases hw
  · cases hw

theorem inspected_origin {k process : Nat} {lease : Lease} {state : LeaseState} (h : LeaseMove s a s')
    (hk : s'.ops k = some ⟨process, .inspected lease state⟩) :
    s.ops k = some ⟨process, .inspected lease state⟩ ∨
      s.ops k = some ⟨process, .judging lease⟩ ∧ state = leaseState s process lease := by
  obtain hold | hc | ⟨before, hop, hq⟩ | ⟨hw, _⟩ | ⟨_, _, _, _, _, hw⟩ := op_of_move h hk
  · exact .inl hold
  · cases hc
  · cases hq with
    | judged => exact .inr ⟨hop, rfl⟩
  · cases hw
  · cases hw

theorem target_origin {k process : Nat} {lease : Lease} {b : Bool} {stage : RetireStage}
    (h : LeaseMove s a s') (hk : s'.ops k = some ⟨process, .retiring lease b stage⟩) :
    (∃ b stage, s.ops k = some ⟨process, .retiring lease b stage⟩) ∨
      ∃ source o, s.ops source = some o ∧ o.owner = process ∧ releasable source o = some lease := by
  obtain hold | hc | ⟨before, hop, hq⟩ | ⟨hw, _⟩ | ⟨_, _, _, _, hop, hw⟩ := op_of_move h hk
  · exact .inl ⟨b, stage, hold⟩
  · cases hc with
    | retire hsource howner hl => exact .inr ⟨_, _, hsource, howner, hl⟩
  · cases hq <;> exact .inl ⟨_, _, hop⟩
  · cases hw
  · cases hw
    exact .inl ⟨_, _, hop⟩

theorem held_move (hs : Sound s) (h : LeaseMove s a s') {k process : Nat}
    (hk : s'.ops k = some ⟨process, .acquired⟩) (ha : s'.alive process = true) :
    s'.lease = some ⟨k, process⟩ ∨ Released s' ⟨k, process⟩ := by
  have halive := alive_of_move h ha
  obtain hold | hnew := acquired_origin h hk
  swap
  · exact .inl hnew
  obtain hl | hr := hs.held _ _ hold halive
  swap
  · exact .inr (released_move h hr)
  cases h with
  | created _ _ hn => simp [hl] at hn
  | @unlinked op remover lease b hremover hop =>
    -- the file holds the lease that is removed, so its owner is the one who removes it
    have hlease := hs.confirmed _ _ _ ⟨hremover, b, .unlinking, hop, rfl⟩
    rw [hl, Option.some.injEq] at hlease
    subst hlease
    obtain rfl := (hs.target _ _ _ _ _ hop).2 halive
    exact .inr ⟨op, b, .clearing true, by simp, rfl⟩
  | _ => exact .inl hl

theorem dead_move {process : Nat} (h : LeaseMove s a s') (hd : s.alive process = false) :
    s'.alive process = false := by
  by_contra ha
  rw [alive_of_move h ((Bool.not_eq_false _).mp ha)] at hd
  cases hd

theorem file_move (hs : Sound s) (h : LeaseMove s a s') {lease : Lease} (hl : s'.lease = some lease) :
    Known s' lease := by
  cases h with
  | created _ _ _ =>
    obtain rfl := Option.some.inj hl
    exact (ops_set _ _ _ _).trans (if_pos rfl)
  | unlinked _ _ => cases hl
  | called ha hn hc hw => exact known_move (.called ha hn hc hw) (hs.file _ hl)
  | quiet ha hop hq => exact known_move (a := a) (.quiet ha hop hq) (hs.file _ hl)
  | marked ha hop hn => exact known_move (.marked ha hop hn) (hs.file _ hl)
  | swept ha hop he => exact known_move (.swept ha hop he) (hs.file _ hl)
  | acted ha hop => exact known_move (.acted ha hop) (hs.file _ hl)
  | cleared ha hop => exact known_move (.cleared ha hop) (hs.file _ hl)
  | died => exact known_move .died (hs.file _ hl)

theorem inspected_move (hs : Sound s) (h : LeaseMove s a s') {op process : Nat} {lease : Lease}
    {state : LeaseState} (hk : s'.ops op = some ⟨process, .inspected lease state⟩) :
    Known s' lease ∧ (state = .dead → s'.alive lease.owner = false) := by
  obtain hold | ⟨hjudged, rfl⟩ := inspected_origin h hk
  · obtain ⟨hknown, hdead⟩ := hs.inspected _ _ _ _ hold
    exact ⟨known_move h hknown, fun he => dead_move h (hdead he)⟩
  · refine ⟨known_move h (hs.judging _ _ _ hjudged), fun he => dead_move h ?_⟩
    grind [leaseState]

theorem target_move (hs : Sound s) (h : LeaseMove s a s') {op process : Nat} {lease : Lease} {b : Bool}
    {stage : RetireStage} (hk : s'.ops op = some ⟨process, .retiring lease b stage⟩) :
    Known s' lease ∧ (s'.alive lease.owner = true → lease.owner = process) := by
  obtain ⟨_, _, hold⟩ | ⟨source, o, hsource, rfl, hl⟩ := target_origin h hk
  · obtain ⟨hknown, howner⟩ := hs.target _ _ _ _ _ hold
    exact ⟨known_move h hknown, fun ha => howner (alive_of_move h ha)⟩
  · obtain ⟨hknown, howner⟩ := known_of_releasable hs hsource hl
    exact ⟨known_move h hknown, fun ha => howner (alive_of_move h ha)⟩

theorem sound_move (hs : Sound s) (hm : SparesLiveMarkers s a) (h : LeaseMove s a s') : Sound s' where
  file lease hl := file_move hs h hl
  judging op process lease hk := by
    obtain hold | hl := judging_origin h hk
    · exact known_move h (hs.judging _ _ _ hold)
    · exact known_move h (hs.file _ hl)
  inspected op process lease state hk := inspected_move hs h hk
  target op process lease b stage hk := target_move hs h hk
  guarded op process hc := guarded_move hs hm h hc
  alone op other process process' hc hc' := alone_move hs h hc hc'
  confirmed op process lease hc := confirmed_move hs h hc
  held k process hk ha := held_move hs h hk ha

end KimchiWorkflows.Host
