import KimchiWorkflows.Host.LeaseExclusion

namespace KimchiWorkflows.Host

variable {s s' : LeaseFiles} {a : LeaseAct}

/-- A living process acquired the lease and did not remove it. -/
def HoldsLease (s : LeaseFiles) (process : Nat) (lease : Lease) : Prop :=
  lease.owner = process ∧ s.alive process = true ∧ Known s lease ∧ ¬Released s lease

/-- No process dies between its `beforeRelease` and the removal of the lease. -/
def FinishesRemovals (s : LeaseFiles) (a : LeaseAct) : Prop :=
  ∀ process op lease, a = .die process → s.ops op ≠ some ⟨process, .retiring lease true .unlinking⟩

def Orderly (s : LeaseFiles) (a : LeaseAct) : Prop := SparesLiveMarkers s a ∧ FinishesRemovals s a

/-- A lease whose `beforeRelease` ran is gone, or about to be removed by the process that ran it. -/
structure Once (s : LeaseFiles) : Prop where
  nodup : s.performed.Nodup
  known : ∀ lease ∈ s.performed, Known s lease
  last : ∀ lease ∈ s.performed, s.lease = some lease →
    ∃ op process, s.alive process = true ∧ s.ops op = some ⟨process, .retiring lease true .unlinking⟩

theorem sound_start : Sound LeaseFiles.start := by
  constructor <;> simp [LeaseFiles.start, Critical, Confirmed]

theorem once_start : Once LeaseFiles.start := by
  constructor <;> simp [LeaseFiles.start]

theorem unlinking_move {op process : Nat} {lease : Lease} (hf : FinishesRemovals s a) (h : LeaseMove s a s')
    (ha : s.alive process = true) (hop : s.ops op = some ⟨process, .retiring lease true .unlinking⟩) :
    (s'.alive process = true ∧ s'.ops op = some ⟨process, .retiring lease true .unlinking⟩) ∨ s'.lease = none := by
  cases h with
  | called _ hn _ _ => exact .inl ⟨ha, by grind⟩
  | quiet _ hop' hq => cases hq <;> exact .inl ⟨ha, by grind⟩
  | unlinked _ _ => exact .inr rfl
  | @died dead =>
    have hne : process ≠ dead := by
      rintro rfl
      exact hf _ _ _ rfl hop
    exact .inl ⟨by simpa [hne] using ha, hop⟩
  | _ => exact .inl ⟨ha, by grind⟩

theorem not_performed (hs : Sound s) (ho : Once s) {op process : Nat} {lease : Lease} {b : Bool}
    (ha : s.alive process = true) (hop : s.ops op = some ⟨process, .retiring lease b .acting⟩) :
    lease ∉ s.performed := by
  intro hm
  have hconfirmed : Confirmed s op process lease := ⟨ha, b, .acting, hop, rfl⟩
  obtain ⟨other, owner, hb, hother⟩ := ho.last lease hm (hs.confirmed _ _ _ hconfirmed)
  have hcritical : Critical s other owner := ⟨hb, lease, true, .unlinking, hother, rfl⟩
  obtain rfl := hs.alone _ _ _ _ (critical_of_confirmed hconfirmed) hcritical
  simp [hop] at hother

theorem performed_move {lease : Lease} (h : LeaseMove s a s') (hm : lease ∈ s'.performed) :
    lease ∈ s.performed ∨ s'.lease = s.lease ∧ ∃ op process, s.alive process = true ∧
      s.ops op = some ⟨process, .retiring lease true .acting⟩ ∧ s'.alive process = true ∧
      s'.ops op = some ⟨process, .retiring lease true .unlinking⟩ := by
  cases h with
  | @acted op process acted b ha hop =>
    cases b with
    | false => exact .inl (by simpa using hm)
    | true =>
      obtain hm | hm := List.mem_append.mp (by simpa using hm : lease ∈ s.performed ++ [acted])
      · exact .inl hm
      · obtain rfl := List.mem_singleton.mp hm
        exact .inr ⟨rfl, op, process, ha, hop, ha, by simp⟩
  | _ => exact .inl hm

theorem once_move (hs : Sound s) (ho : Once s) (hf : FinishesRemovals s a) (h : LeaseMove s a s') : Once s' where
  nodup := by
    have hn := ho.nodup
    cases h with
    | @acted op process lease b ha hop =>
      cases b with
      | false => simpa using hn
      | true =>
        have hnew := not_performed hs ho ha hop
        simp only [performed_set, if_true]
        refine List.nodup_append.mpr ⟨hn, by simp, ?_⟩
        intro l hl l' hl' he
        rw [he, List.mem_singleton.mp hl'] at hl
        exact hnew hl
    | _ => exact hn
  known lease hm := by
    obtain hm | ⟨_, op, process, _, hop, _⟩ := performed_move h hm
    · exact known_move h (ho.known lease hm)
    · exact known_move h (hs.target _ _ _ _ _ hop).1
  last lease hm hl := by
    obtain hm | ⟨_, op, process, _, _, ha, hop⟩ := performed_move h hm
    swap
    · exact ⟨op, process, ha, hop⟩
    have hold : s.lease = some lease := by
      have hk := ho.known lease hm
      cases h with
      | created _ hop _ =>
        -- the lease that is created now was not acquired before
        simp only [lease_set, Option.some.injEq] at hl
        subst hl
        simp [Known, hop] at hk
      | unlinked _ _ => simp at hl
      | _ => exact hl
    obtain ⟨op, process, ha, hop⟩ := ho.last lease hm hold
    obtain ⟨ha', hop'⟩ | hn := unlinking_move hf h ha hop
    · exact ⟨op, process, ha', hop'⟩
    · simp [hn] at hl

theorem sound_run {actions : List LeaseAct} (h : Stepping.Run leaseStep SparesLiveMarkers .start actions s) :
    Sound s :=
  h.keeps sound_start (fun _ _ _ hs hm hstep => sound_move hs hm (move_of_step hstep))

theorem once_run {actions : List LeaseAct} (h : Stepping.Run leaseStep Orderly .start actions s) : Once s := by
  have hstep : ∀ s a s', Sound s ∧ Once s → Orderly s a → leaseStep s a = some s' → Sound s' ∧ Once s' := by
    rintro s a s' ⟨hs, ho⟩ ⟨hm, hf⟩ hstep
    have hmove := move_of_step hstep
    exact ⟨sound_move hs hm hmove, once_move hs ho hf hmove⟩
  have hboth : Sound s ∧ Once s := h.keeps ⟨sound_start, once_start⟩ hstep
  exact hboth.2

theorem lease_of_holds (hs : Sound s) {process : Nat} {lease : Lease} (h : HoldsLease s process lease) :
    s.lease = some lease := by
  obtain ⟨rfl, ha, hk, hr⟩ := h
  exact (hs.held _ _ hk ha).resolve_right hr

/-- While no reclaimer removes the marker of a living one, at most one living process holds the lease and
only the lease a retirement was given is removed; if besides none dies before it removes the lease,
`beforeRelease` runs at most once for a lease. -/
theorem lease_excludes (actions : List LeaseAct) (s : LeaseFiles) :
    (Stepping.Run leaseStep SparesLiveMarkers .start actions s →
      (∀ process other lease lease', HoldsLease s process lease → HoldsLease s other lease' →
        process = other ∧ lease = lease') ∧
      (∀ op process lease b, s.ops op = some ⟨process, .retiring lease b .unlinking⟩ → s.alive process = true →
        s.lease = some lease)) ∧
    (Stepping.Run leaseStep Orderly .start actions s → s.performed.Nodup) := by
  refine ⟨fun h => ⟨?_, ?_⟩, fun h => (once_run h).nodup⟩
  · intro process other lease lease' hp ho
    have hs := sound_run h
    have he : lease = lease' := Option.some.inj ((lease_of_holds hs hp).symm.trans (lease_of_holds hs ho))
    exact ⟨by rw [← hp.1, ← ho.1, he], he⟩
  · intro op process lease b hop ha
    exact (sound_run h).confirmed _ _ _ ⟨ha, b, .unlinking, hop, rfl⟩

def LeaseOp.retires (o : LeaseOp) (lease : Lease) : Bool :=
  match o.work with
  | .retiring target _ _ => decide (target = lease)
  | _ => false

theorem called_move {k : Nat} (h : LeaseMove s a s') (hk : s'.ops k ≠ none) :
    s.ops k ≠ none ∨ a.called = some k := by
  cases h with
  | died => exact .inl hk
  | _ => grind

theorem called_run {Meets : LeaseFiles → LeaseAct → Prop} {actions : List LeaseAct}
    (h : Stepping.Run leaseStep Meets .start actions s) {k : Nat} (hk : s.ops k ≠ none) :
    k ∈ actions.filterMap LeaseAct.called := by
  induction h with
  | nil => exact absurd rfl hk
  | @snoc actions s s' a h hs hm ih =>
    rw [List.filterMap_append, List.mem_append]
    obtain hold | hnew := called_move (move_of_step hs) hk
    · exact .inl (ih hold)
    · exact .inr (by simp [hnew])

theorem not_released {Meets : LeaseFiles → LeaseAct → Prop} {actions : List LeaseAct} {lease : Lease}
    (h : Stepping.Run leaseStep Meets .start actions s)
    (hnone : ∀ k ∈ actions.filterMap LeaseAct.called, ((s.ops k).any (fun o => o.retires lease)) = false) :
    ¬Released s lease := by
  rintro ⟨op, b, stage, hop, _⟩
  have hm := called_run h (by simp [hop] : s.ops op ≠ none)
  simpa [hop, LeaseOp.retires] using hnone op hm

/-- Whether the action is no removal of a living reclaimer's marker. -/
def spares (s : LeaseFiles) : LeaseAct → Bool
  | .advance op => (s.ops op).all fun o =>
    match o.work with
    | .retiring _ _ (.removing _) => s.marker.all (fun marker => !s.alive marker.owner)
    | _ => true
  | _ => true

theorem spares_live_markers (h : spares s a = true) : SparesLiveMarkers s a := by
  rintro op process lease b retry marker rfl hop hm
  simpa [spares, hop, hm] using h

theorem orderly_of_spares (h : spares s a = true) (ha : ∀ process, a ≠ .die process) : Orderly s a :=
  ⟨spares_live_markers h, fun process _ _ he => absurd he (ha process)⟩

/-- A process dies while it holds the lease, and another retires it. -/
def reclaiming : List LeaseAct :=
  [.acquire 0 0, .advance 0, .die 0, .inspect 1 1, .advance 1, .advance 1, .retire 2 1, .advance 2, .advance 2,
    .advance 2, .advance 2, .advance 2]

theorem reclaiming_once : ∃ s, Stepping.Run leaseStep Orderly .start reclaiming s ∧ s.performed = [⟨0, 0⟩] ∧
    s.lease = none ∧ s.performed.Nodup := by
  obtain ⟨s, hrun, hp, hl⟩ : ∃ s, Stepping.Run leaseStep Orderly .start reclaiming s ∧
      s.performed = [⟨0, 0⟩] ∧ s.lease = none := by
    have go : ∀ {s : LeaseFiles} {a : LeaseAct}, spares s a = true → (∀ process, a ≠ .die process) → Orderly s a :=
      orderly_of_spares
    refine ⟨_, .snoc (.snoc (.snoc (.snoc (.snoc (.snoc (.snoc (.snoc (.snoc (.snoc (.snoc (.snoc .nil
      rfl (go rfl (by simp))) rfl (go rfl (by simp))) rfl ⟨spares_live_markers rfl, ?_⟩) rfl (go rfl (by simp)))
      rfl (go rfl (by simp))) rfl (go rfl (by simp))) rfl (go rfl (by simp))) rfl (go rfl (by simp)))
      rfl (go rfl (by simp))) rfl (go rfl (by simp))) rfl (go rfl (by simp))) rfl (go rfl (by simp)), rfl, rfl⟩
    intro process op lease _ hop
    simp only [ops_set] at hop
    split at hop
    · simp at hop
    · simp [LeaseFiles.start, *] at hop
  exact ⟨s, hrun, hp, hl, (lease_excludes reclaiming s).2 hrun⟩

/-- A process dies while it holds the lease, and so does one that was about to retire it; two others read the
marker of the latter, and the second removes the marker that the first wrote meanwhile. -/
def racingReclaimers : List LeaseAct :=
  [.acquire 0 0, .advance 0, .die 0, .inspect 1 1, .advance 1, .advance 1, .retire 2 1, .advance 2, .die 1,
    .inspect 3 2, .advance 3, .advance 3, .retire 4 3, .advance 4, .advance 4, .advance 4,
    .inspect 5 3, .advance 5, .advance 5, .retire 6 5, .advance 6, .advance 6, .advance 6,
    .advance 4, .advance 4, .advance 4, .advance 6, .advance 6, .advance 6,
    .advance 4, .advance 4, .acquire 7 4, .advance 7, .advance 6]

def secondOwner : List LeaseAct := [.advance 6, .acquire 8 5, .advance 8]

theorem racing_reclaimers : ∃ s s', Stepping.Run leaseStep Stepping.Unconditional .start racingReclaimers s ∧
    s.ops 6 = some ⟨3, .retiring ⟨0, 0⟩ true .unlinking⟩ ∧ s.alive 3 = true ∧ s.lease = some ⟨7, 4⟩ ∧
    s.performed = [⟨0, 0⟩, ⟨0, 0⟩] ∧
    Stepping.steps leaseStep s secondOwner = some s' ∧ HoldsLease s' 4 ⟨7, 4⟩ ∧ HoldsLease s' 5 ⟨8, 5⟩ := by
  obtain ⟨s, hs⟩ : ∃ s, Stepping.steps leaseStep .start racingReclaimers = some s := ⟨_, rfl⟩
  obtain ⟨s', hs'⟩ : ∃ s', Stepping.steps leaseStep s secondOwner = some s' := by
    obtain rfl := Option.some.inj hs
    exact ⟨_, rfl⟩
  have hrun := Stepping.run_of_steps hs
  have hlater := Stepping.Run.of_steps hrun hs'
  obtain rfl := Option.some.inj hs
  obtain rfl := Option.some.inj hs'
  refine ⟨_, _, hrun, rfl, rfl, rfl, rfl, rfl, ⟨rfl, rfl, rfl, ?_⟩, ⟨rfl, rfl, rfl, ?_⟩⟩
  · exact not_released hlater (by decide)
  · exact not_released hlater (by decide)

end KimchiWorkflows.Host
