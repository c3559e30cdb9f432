import Mathlib.Data.List.Induction
import KimchiWorkflows.Engine.KeyHistory
import KimchiWorkflows.Lib.Registers
import KimchiWorkflows.Progress.UniqueRows

/-!
Entries of constructs and foreach items in a log: what opens one, what closes it, what is done since.
-/

namespace KimchiWorkflows.Progress

open KimchiWorkflows.Flow KimchiWorkflows.Engine Registers

def entersKey : RunEvent → Option NodePath
  | .nodeStarted path _ => some (staticKeyOf path)
  | .foreachStarted path _ => some (staticKeyOf path)
  | .foreachItemStarted path _ => (splitItemPath path).map ItemAddress.itemKey
  | _ => none

def closesKey : RunEvent → Option NodePath
  | .nodeCompleted path _ => some (staticKeyOf path)
  | .foreachItemCompleted path _ _ => (splitItemPath path).map ItemAddress.itemKey
  | _ => none

def startsForeach : RunEvent → Option NodePath
  | .foreachStarted path _ => some (staticKeyOf path)
  | _ => none

def finishesItem (foreachKey : NodePath) : RunEvent → Option Nat
  | .foreachItemCompleted path _ _ => (splitItemPath path).bind (seesItem.at? foreachKey)
  | _ => none

def keyed (event : RunEvent) : Option NodePath :=
  (match event with
  | .runCrashed path _ => path
  | .runCancelled path _ => path
  | event => event.subject).map staticKeyOf

/-- What an event says of the run's end: its terminal state, or that it goes on. -/
def endsRun : RunEvent → Option (Option StepState)
  | .runStarted _ _ _ => some none
  | .runResumed _ => some none
  | .runCompleted _ => some (some .completed)
  | .runCrashed _ _ => some (some .crashed)
  | .runCancelled _ _ => some (some .cancelled)
  | _ => none

def Closed (log : List RunEvent) (key : NodePath) : Prop := ∃ event ∈ log, closesKey event = some key

def ClosedLast (log : List RunEvent) (key : NodePath) : Prop :=
  ∃ before event after, log = before ++ event :: after ∧ closesKey event = some key ∧
    ∀ later ∈ after, entersKey later ≠ some key

def doneNext (foreachKey : NodePath) (done : List Nat) (event : RunEvent) : List Nat :=
  if startsForeach event = some foreachKey then []
  else (finishesItem foreachKey event).elim done (fun index => done.insert index)

def doneSince (log : List RunEvent) (foreachKey : NodePath) : List Nat := log.foldl (doneNext foreachKey) []

def Open (log : List RunEvent) (key : NodePath) : Prop :=
  (Dict.get (deriveStepStates log) key).any StepState.isOpen = true

def RunFinished (log : List RunEvent) : Prop := lastSaid endsRun log = some (some .completed)

variable {fold : Fold} {log : List RunEvent} {event : RunEvent} {key : NodePath}

theorem closed_next (fold : Fold) (event : RunEvent) :
    key ∈ (fold.next event).closed ↔ key ∈ fold.closed ∨ closesKey event = some key := by
  cases event with
  | nodeCompleted path output => simp [Fold.next, closesKey, or_comm, eq_comm]
  | foreachItemCompleted path index output =>
    cases hs : splitItemPath path with
    | none => simp [Fold.next, closesKey, hs]
    | some item =>
      simp only [Fold.next, hs, Fold.finishItem, List.mem_insert_iff, closesKey, Option.map_some, Option.some.injEq]
      rw [or_comm, eq_comm]
      rfl
  | foreachItemStarted path index =>
    cases hs : splitItemPath path with
    | none => simp [Fold.next, closesKey, hs]
    | some item => simp [Fold.next, hs, closesKey, Fold.touch, Fold.statsFor, Fold.seeItem]
  | _ => simp [Fold.next, closesKey, Fold.touch, Fold.settle, Fold.statsFor]

theorem mem_closed : key ∈ (log.foldl Fold.next {}).closed ↔ Closed log key := by
  induction log using List.reverseRecOn with
  | nil => simp [Closed]
  | append_singleton log event ih =>
    rw [List.foldl_append, List.foldl_cons, List.foldl_nil, closed_next, ih]
    simp [Closed, or_and_right, exists_or]

theorem done_next (fold : Fold) (event : RunEvent) : (fold.next event).done key =
    (finishesItem key event).elim (fold.done key) (fun index => (fold.done key).insert index) := by
  cases event with
  | foreachItemCompleted path index output =>
    cases hs : splitItemPath path with
    | none => simp [Fold.next, finishesItem, hs]
    | some item =>
      by_cases hk : item.foreachKey = key
      · subst hk
        simp [Fold.next, hs, finishesItem, seesItem.at?, Fold.finishItem, Fold.done, Fold.touch, Fold.statsFor,
          Fold.seeItem]
      · simp [Fold.next, hs, finishesItem, seesItem.at?, Fold.finishItem, Fold.done, Fold.touch, Fold.statsFor,
          Fold.seeItem, hk, Dict.get_set, Ne.symm hk]
  | foreachItemStarted path index =>
    cases hs : splitItemPath path with
    | none => simp [Fold.next, finishesItem, hs]
    | some item => simp [Fold.next, hs, finishesItem, Fold.touch, Fold.statsFor, Fold.seeItem, Fold.done]
  | _ => rfl

theorem runTerminal_foldl (log : List RunEvent) :
    (log.foldl Fold.next {}).runTerminal = (lastSaid endsRun log).getD none := by
  refine read_foldl Fold.runTerminal ?_ {} log
  intro fold event
  cases event with
  | foreachItemStarted path index =>
    cases hs : splitItemPath path <;> simp [Fold.next, hs, endsRun, Fold.touch, Fold.statsFor, Fold.seeItem]
  | foreachItemCompleted path index output =>
    cases hs : splitItemPath path <;>
      simp [Fold.next, hs, endsRun, Fold.touch, Fold.statsFor, Fold.seeItem, Fold.finishItem]
  | _ => rfl

theorem splitItemPath_some {path : NodePath} {item : ItemAddress} (h : splitItemPath path = some item) :
    item.itemKey = staticKeyOf path ∧ ∃ parent name, item.foreachKey = appendSegment parent name ∧
      item.itemKey = itemScope parent name item.index := by
  unfold splitItemPath at h
  split at h
  · rename_i name kind index hleaf
    cases h
    refine ⟨rfl, (staticPathOf path).dropLast, name, rfl, ?_⟩
    have hmem := List.mem_of_getLast? hleaf
    obtain ⟨segment, -, hsegment⟩ := List.mem_map.mp hmem
    have hkind : kind = .foreach := by
      unfold staticSegmentOf at hsegment
      split at hsegment
      · rename_i heq
        rw [hsegment] at heq
        simpa using congrArg (fun o => o.map Prod.fst) heq
      · cases hsegment
    subst hkind
    exact (List.dropLast_append_getLast? _ hleaf).symm
  · cases h

theorem keyed_of_stats (h : (Dict.get (log.foldl Fold.next {}).stats key).isSome) :
    ∃ event ∈ log, keyed event = some key := by
  induction log using List.reverseRecOn with
  | nil => cases h
  | append_singleton log event ih =>
    rw [List.foldl_append, List.foldl_cons, List.foldl_nil] at h
    generalize log.foldl Fold.next {} = fold at h ih
    have hstep : keyed event = some key ∨ (Dict.get fold.stats key).isSome := by
      have hstats : ∀ (fold : Fold) path change, (Dict.get (fold.statsFor path change).stats key).isSome →
          staticKeyOf path = key ∨ (Dict.get fold.stats key).isSome := by
        intro fold path change hs
        by_cases hk : key = staticKeyOf path
        · exact .inl hk.symm
        · right
          simpa [Fold.statsFor, Dict.get_set, hk] using hs
      cases event with
      | foreachItemStarted path index =>
        cases hi : splitItemPath path with
        | none => exact .inr (by simpa [Fold.next, hi] using h)
        | some item =>
          simp only [Fold.next, hi] at h
          exact (hstats _ _ _ h).imp_left (congrArg some)
      | foreachItemCompleted path index output =>
        cases hi : splitItemPath path with
        | none => exact .inr (by simpa [Fold.next, hi] using h)
        | some item =>
          simp only [Fold.next, hi] at h
          exact (hstats _ _ _ h).imp_left (congrArg some)
      | agentUsage path totalTokens =>
        exact (hstats fold path (fun stats => { stats with tokens := stats.tokens + totalTokens }) h).imp_left
          (congrArg some)
      | runMeta | runExecutionStarted | runStarted | runResumed | agentError | stepLog | runCompleted | runCrashed
          | runCancelled => exact .inr h
      | _ => exact (hstats _ _ _ h).imp_left (congrArg some)
    obtain hkey | hold := hstep
    · exact ⟨event, by simp, hkey⟩
    · obtain ⟨other, ho, hkey⟩ := ih hold
      exact ⟨other, List.mem_append_left _ ho, hkey⟩

theorem keyed_of_seen {parent : NodePath} {name : String} {index : Nat}
    (h : index ∈ (log.foldl Fold.next {}).seen (appendSegment parent name)) :
    ∃ event ∈ log, keyed event = some (itemScope parent name index) := by
  rw [mem_seen_foldl] at h
  obtain h | ⟨event, hmem, hsees⟩ := h
  · cases h
  · refine ⟨event, hmem, ?_⟩
    have hitem : ∀ path, (splitItemPath path).bind (seesItem.at? (appendSegment parent name)) = some index →
        staticKeyOf path = itemScope parent name index := by
      intro path hs
      obtain ⟨item, hi, hat⟩ := Option.bind_eq_some_iff.mp hs
      obtain ⟨hkey, other, otherName, hforeach, hitemKey⟩ := splitItemPath_some hi
      unfold seesItem.at? at hat
      split_ifs at hat with hsame
      rw [hforeach] at hsame
      have hindex := Option.some.inj hat
      obtain ⟨rfl, hname⟩ := List.append_inj' hsame rfl
      simp only [List.cons.injEq, PathSegment.mk.injEq, and_true] at hname
      rw [← hkey, hitemKey, hname, hindex]
    cases event with
    | foreachItemStarted path i => exact congrArg some (hitem path hsees)
    | foreachItemCompleted path i output => exact congrArg some (hitem path hsees)
    | _ => cases hsees

theorem state_of_unkeyed (h : ∀ event ∈ log, keyed event ≠ some key) : Dict.get (deriveStepStates log) key = none := by
  rw [get_deriveStepStates]
  suffices Engine.viewOf key log = {} by rw [this]
  induction log using List.reverseRecOn with
  | nil => rfl
  | append_singleton log event ih =>
    rw [viewOf_append, ih (fun e he => h e (List.mem_append_left _ he))]
    have hevent := h event (by simp)
    show KeyView.next key {} event = {}
    have htouch : ∀ path touch, staticKeyOf path ≠ key → touchAt key path touch = none :=
      fun path touch hne => if_neg hne
    cases event with
    | runCrashed path error =>
      cases path with
      | none => rfl
      | some path =>
        have hne : staticKeyOf path ≠ key := fun heq => hevent (congrArg some heq)
        simp [KeyView.next, touchOf, htouch path _ hne, KeyView.touch, KeyView.isOpen]
    | runCancelled path source =>
      cases path with
      | none => rfl
      | some path =>
        have hne : staticKeyOf path ≠ key := fun heq => hevent (congrArg some heq)
        simp [KeyView.next, touchOf, htouch path _ hne, KeyView.touch, KeyView.isOpen]
    | runMeta | runExecutionStarted | runStarted | runResumed | runCompleted => rfl
    | _ =>
      have hne : staticKeyOf _ ≠ key := fun heq => hevent (congrArg some heq)
      first
        | rfl
        | simp [KeyView.next, touchOf, htouch _ _ hne]

end KimchiWorkflows.Progress
