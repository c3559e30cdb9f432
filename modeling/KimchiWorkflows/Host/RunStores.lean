import Mathlib.Data.List.Perm.Basic
import Mathlib.Data.List.Nodup
import KimchiWorkflows.Host.RunLog
import KimchiWorkflows.Lib.Dict

/-!
The two stores of runs: the one in memory, and the one with a file for each run, whose appends wait for each other.
-/

namespace KimchiWorkflows.Host.RunStores

open Json Stepping

structure StoredEvent where
  runId : Text
  record : EventRecord

def runLogSuffix : Text := ".events.jsonl".toList

def logFileName (runId : Text) : Text := runId ++ runLogSuffix

section Listing

-- what is shown of a log is derived the same way for both stores, and sorted by when the run started
variable {Summary : Type} (summarizeRun : List Value → Option Summary) (startedBefore : Summary → Summary → Bool)

structure MemoryStore where
  eventsByRun : List (Text × List StoredEvent) := []
  log : List StoredEvent := []

def MemoryStore.appendEvent (store : MemoryStore) (event : StoredEvent) : MemoryStore where
  log := store.log ++ [event]
  eventsByRun :=
    match Dict.get store.eventsByRun event.runId with
    | some existing => Dict.set store.eventsByRun event.runId (existing ++ [event])
    | none => Dict.set store.eventsByRun event.runId [event]

def MemoryStore.loadEvents (store : MemoryStore) (runId : Text) : List StoredEvent :=
  (Dict.get store.eventsByRun runId).getD []

def MemoryStore.delete (store : MemoryStore) (runId : Text) : MemoryStore where
  eventsByRun := Dict.restrict (fun key => decide (key ≠ runId)) store.eventsByRun
  log := store.log.filter (fun event => decide (event.runId ≠ runId))

def valuesOf (events : List StoredEvent) : List Value := events.map (fun event => event.record.value)

def MemoryStore.list (store : MemoryStore) : List Summary :=
  (store.eventsByRun.filterMap (fun entry => summarizeRun (valuesOf entry.2))).mergeSort startedBefore

/-- The directory, once it is there, and for each file the appends that have not been carried out. -/
structure FsStore where
  dir : Option (List (Text × Text)) := none
  fileTails : List (Text × List StoredEvent) := []

/-- What can happen to the directory: an append is asked for, the first append waiting for a file is carried out or
fails, perhaps with a part of its line in the file, a log is removed, and another artifact is written. -/
inductive StoreStep where
  | appendEvent (event : StoredEvent)
  | written (runId : Text)
  | failed (runId : Text) (kept : Option Nat)
  | delete (runId : Text)
  | artifact (name content : Text)

def FsStore.entries (store : FsStore) : List (Text × Text) := store.dir.getD []

def FsStore.waiting (store : FsStore) (name : Text) : List StoredEvent := (Dict.get store.fileTails name).getD []

def FsStore.content (store : FsStore) (runId : Text) : Text := (Dict.get store.entries (logFileName runId)).getD []

def settleTail (fileTails : List (Text × List StoredEvent)) (name : Text) :
    List StoredEvent → List (Text × List StoredEvent)
  | [] => Dict.restrict (fun key => decide (key ≠ name)) fileTails
  | rest => Dict.set fileTails name rest

def FsStore.step (store : FsStore) : StoreStep → Option FsStore
  | .appendEvent event =>
    let name := logFileName event.runId
    some { store with fileTails := Dict.set store.fileTails name (store.waiting name ++ [event]) }
  | .written runId =>
    let name := logFileName runId
    match store.waiting name with
    | [] => none
    | event :: rest => some {
        dir := some (Dict.set store.entries name (store.content runId ++ event.record.line))
        fileTails := settleTail store.fileTails name rest }
  | .failed runId kept =>
    let name := logFileName runId
    match store.waiting name with
    | [] => none
    | event :: rest => some {
        dir := kept.elim store.dir (fun kept =>
          some (Dict.set store.entries name (store.content runId ++ event.record.line.take kept)))
        fileTails := settleTail store.fileTails name rest }
  | .delete runId =>
    some { store with dir := store.dir.map (Dict.restrict (fun key => decide (key ≠ logFileName runId))) }
  | .artifact name content =>
    if runLogSuffix.isSuffixOf name then none else some { store with dir := some (Dict.set store.entries name content) }

variable (pathOf : Text → String) (reason : Text → String)

def FsStore.loadEvents (store : FsStore) (runId : Text) : Except String (List Value) :=
  readEvents (pathOf (logFileName runId)) reason (store.content runId)

def listEntries : List (Text × Text) → Except String (List Summary)
  | [] => .ok []
  | (name, content) :: rest =>
    if runLogSuffix.isSuffixOf name then
      match readEvents (pathOf name) reason content with
      | .error error => .error error
      | .ok events => (listEntries rest).map ((summarizeRun events).toList ++ ·)
    else listEntries rest

def FsStore.list (store : FsStore) : Except String (List Summary) :=
  (listEntries summarizeRun pathOf reason store.entries).map (·.mergeSort startedBefore)

end Listing

/-- Nothing is appended behind a part of a line, and such a part is no JSON text. -/
def Framed (store : FsStore) : StoreStep → Prop
  | .written runId => (splitLines (store.content runId)).getLastD [] = []
  | .failed runId (some kept) => ∀ event ∈ (store.waiting (logFileName runId)).head?,
      kept < event.record.line.length ∧
        read ((splitLines (store.content runId)).getLastD [] ++ event.record.line.take kept) = none
  | _ => True

/-- What the files stand for: the runs as they are recorded, and the events that are still to be. -/
structure Promised where
  recorded : MemoryStore := {}
  awaited : List StoredEvent := []

def ofRun (runId : Text) (event : StoredEvent) : Bool := decide (event.runId = runId)

def Promised.next (promised : Promised) : StoreStep → Promised
  | .appendEvent event => { promised with awaited := promised.awaited ++ [event] }
  | .written runId => {
      recorded := (promised.awaited.find? (ofRun runId)).elim promised.recorded promised.recorded.appendEvent
      awaited := promised.awaited.eraseP (ofRun runId) }
  | .failed runId _ => { promised with awaited := promised.awaited.eraseP (ofRun runId) }
  | .delete runId => { promised with recorded := promised.recorded.delete runId }
  | .artifact _ _ => promised

variable {Summary : Type} {summarizeRun : List Value → Option Summary} {startedBefore : Summary → Summary → Bool}
  {pathOf : Text → String} {reason : Text → String} {store store' : FsStore} {promised : Promised}
  {runId other name : Text} {steps : List StoreStep}

theorem logFileName_inj : logFileName runId = logFileName other ↔ runId = other := List.append_left_inj runLogSuffix

theorem isLog_iff : runLogSuffix.isSuffixOf name = true ↔ ∃ runId, logFileName runId = name :=
  List.isSuffixOf_iff_suffix

theorem get_appendEvent (store : MemoryStore) (event : StoredEvent) (runId : Text) :
    Dict.get (store.appendEvent event).eventsByRun runId =
      if event.runId = runId then some (store.loadEvents runId ++ [event]) else Dict.get store.eventsByRun runId := by
  unfold MemoryStore.appendEvent MemoryStore.loadEvents
  split
  · rename_i existing he
    rw [Dict.get_set]
    split_ifs with hr hs hs
    · rw [hr, he]
      rfl
    · exact absurd hr.symm hs
    · exact absurd hs.symm hr
    · rfl
  · rename_i he
    rw [Dict.get_set]
    split_ifs with hr hs hs
    · rw [hr, he]
      rfl
    · exact absurd hr.symm hs
    · exact absurd hs.symm hr
    · rfl

theorem nodup_appendEvent (store : MemoryStore) (event : StoredEvent) (h : (store.eventsByRun.map Prod.fst).Nodup) :
    ((store.appendEvent event).eventsByRun.map Prod.fst).Nodup := by
  unfold MemoryStore.appendEvent
  split
  · exact Dict.nodup_set h _ _
  · exact Dict.nodup_set h _ _

theorem filter_eraseP_self {α : Type} (p : α → Bool) (l : List α) : (l.eraseP p).filter p = (l.filter p).tail := by
  induction l with
  | nil => rfl
  | cons a rest ih =>
    by_cases hp : p a = true
    · simp [hp]
    · simp [hp, ih]

theorem filter_eraseP_of_disjoint {α : Type} {p q : α → Bool} (h : ∀ a, p a = true → q a = false) (l : List α) :
    (l.eraseP p).filter q = l.filter q := by
  induction l with
  | nil => rfl
  | cons a rest ih =>
    by_cases hp : p a = true
    · simp [hp, h a hp]
    · simp [hp, List.filter_cons, ih]

theorem ofRun_disjoint (h : runId ≠ other) (event : StoredEvent) (hr : ofRun runId event = true) :
    ofRun other event = false := by
  simp only [ofRun, decide_eq_true_eq, decide_eq_false_iff_not] at hr ⊢
  rw [hr]
  exact h

theorem waiting_settleTail (rest : List StoredEvent) (other : Text) :
    (Dict.get (settleTail store.fileTails name rest) other).getD [] =
      if other = name then rest else store.waiting other := by
  unfold settleTail
  split
  · rw [Dict.get_restrict]
    by_cases ho : other = name
    · simp [ho]
    · simp [ho, FsStore.waiting]
  · rw [Dict.get_set]
    by_cases ho : other = name
    · simp [ho]
    · simp [ho, FsStore.waiting]

/-- A file that holds the lines of some events, and after them perhaps a part of a line, which is no JSON text. -/
structure Holds (content : Text) (events : List StoredEvent) (tail : Text) : Prop where
  lines : content = events.flatMap (fun event => event.record.line) ++ tail
  newline : '\n' ∉ tail
  unread : read tail = none

/-- The files of a store hold the recorded runs, and its queues the awaited events of each run. -/
structure Refines (store : FsStore) (promised : Promised) : Prop where
  content : ∀ runId, ∃ tail, Holds (store.content runId) (promised.recorded.loadEvents runId) tail
  present : ∀ runId, (Dict.get promised.recorded.eventsByRun runId).isSome = true →
    (Dict.get store.entries (logFileName runId)).isSome = true
  waiting : ∀ runId, store.waiting (logFileName runId) = promised.awaited.filter (ofRun runId)
  names : (store.entries.map Prod.fst).Nodup
  runs : (promised.recorded.eventsByRun.map Prod.fst).Nodup

theorem holds_empty : Holds [] [] [] := ⟨rfl, by simp, rfl⟩

theorem Holds.lastLine {content tail : Text} {events : List StoredEvent} (h : Holds content events tail) :
    (splitLines content).getLastD [] = tail := by
  have hsplit := splitLines_events (events.map StoredEvent.record) h.newline
  rw [List.flatMap_map] at hsplit
  rw [h.lines, hsplit]
  simp

theorem Holds.readEvents {content tail : Text} {events : List StoredEvent} (h : Holds content events tail)
    (filePath : String) : readEvents filePath reason content = .ok (valuesOf events) := by
  have hread : Host.readEvents filePath reason ((events.map StoredEvent.record).flatMap EventRecord.line ++ tail) =
      .ok ((events.map StoredEvent.record).map EventRecord.value) := readEvents_events h.newline h.unread
  rw [List.flatMap_map] at hread
  rw [h.lines, hread, valuesOf, List.map_map]
  rfl

theorem refines_empty : Refines {} {} where
  content := fun _ => ⟨[], holds_empty⟩
  present := nofun
  waiting := fun _ => rfl
  names := List.nodup_nil
  runs := List.nodup_nil

/-- An append that is asked for waits behind those of its run. -/
theorem refines_appendEvent (h : Refines store promised) (event : StoredEvent) :
    let name := logFileName event.runId
    Refines { store with fileTails := Dict.set store.fileTails name (store.waiting name ++ [event]) }
      (promised.next (.appendEvent event)) where
  content := h.content
  present := h.present
  names := h.names
  runs := h.runs
  waiting := by
    intro runId
    simp only [FsStore.waiting, Promised.next, Dict.get_set, logFileName_inj, List.filter_append]
    by_cases hr : runId = event.runId
    · have hw := h.waiting event.runId
      rw [FsStore.waiting] at hw
      simp [hr, hw, ofRun]
    · have hw := h.waiting runId
      rw [FsStore.waiting] at hw
      simp [hr, Ne.symm hr, hw, ofRun]

theorem waiting_settled (h : Refines store promised) {event : StoredEvent} {rest : List StoredEvent}
    (hw : store.waiting (logFileName runId) = event :: rest) (other : Text) :
    (Dict.get (settleTail store.fileTails (logFileName runId) rest) (logFileName other)).getD [] =
      (promised.awaited.eraseP (ofRun runId)).filter (ofRun other) := by
  rw [waiting_settleTail]
  simp only [logFileName_inj]
  split_ifs with ho
  · rw [ho, filter_eraseP_self, ← h.waiting, hw]
    rfl
  · rw [filter_eraseP_of_disjoint (ofRun_disjoint (Ne.symm ho)), h.waiting]

theorem content_set {content : Text} (other : Text) :
    (Dict.get (Dict.set store.entries (logFileName runId) content) (logFileName other)).getD [] =
      if other = runId then content else store.content other := by
  rw [Dict.get_set]
  simp only [logFileName_inj]
  split_ifs <;> rfl

theorem present_set {content : Text} (other : Text) (h : other = runId ∨
    (Dict.get store.entries (logFileName other)).isSome = true) :
    (Dict.get (Dict.set store.entries (logFileName runId) content) (logFileName other)).isSome = true := by
  rw [Dict.get_set]
  simp only [logFileName_inj]
  split_ifs with ho
  · rfl
  · exact h.resolve_left ho

theorem newline_notMem_take {record : EventRecord} {kept : Nat} (h : kept < record.line.length) :
    '\n' ∉ record.line.take kept := by
  have hno : '\n' ∉ torn record kept false := newline_notMem_torn h
  rwa [torn, if_neg Bool.false_ne_true, List.append_nil] at hno

/-- A failed append is awaited no longer, and what it leaves of its line is not read. -/
theorem refines_failed (h : Refines store promised) {event : StoredEvent} {rest : List StoredEvent}
    (hw : store.waiting (logFileName runId) = event :: rest) (kept : Option Nat)
    (hm : Framed store (.failed runId kept)) :
    Refines { dir := kept.elim store.dir (fun kept => some (Dict.set store.entries (logFileName runId)
                (store.content runId ++ event.record.line.take kept)))
              fileTails := settleTail store.fileTails (logFileName runId) rest }
      (promised.next (.failed runId kept)) := by
  have hwaiting := waiting_settled h hw
  cases kept with
  | none =>
    exact ⟨h.content, h.present, hwaiting, h.names, h.runs⟩
  | some kept =>
    obtain ⟨hkept, hread⟩ := hm event (by rw [hw]; rfl)
    refine ⟨fun other => ?_, fun other ho => present_set other (.inr (h.present other ho)), hwaiting,
      Dict.nodup_set h.names _ _, h.runs⟩
    show ∃ tail, Holds ((Dict.get (Dict.set store.entries (logFileName runId) _) _).getD []) _ tail
    rw [content_set]
    split_ifs with ho
    · subst ho
      obtain ⟨tail, htail⟩ := h.content other
      rw [htail.lastLine] at hread
      refine ⟨tail ++ event.record.line.take kept, ?_, ?_, hread⟩
      · rw [htail.lines, List.append_assoc]
        rfl
      · rw [List.mem_append, not_or]
        exact ⟨htail.newline, newline_notMem_take hkept⟩
    · exact h.content other

/-- What is written is the first event awaited of its run. -/
theorem refines_written (h : Refines store promised) {event : StoredEvent} {rest : List StoredEvent}
    (hw : store.waiting (logFileName runId) = event :: rest) (hm : Framed store (.written runId)) :
    let name := logFileName runId
    Refines { dir := some (Dict.set store.entries name (store.content runId ++ event.record.line))
              fileTails := settleTail store.fileTails name rest } (promised.next (.written runId)) := by
  intro name
  have hfind : promised.awaited.find? (ofRun runId) = some event := by
    rw [← List.head?_filter, ← h.waiting, hw]
    rfl
  have hrun : event.runId = runId := by simpa [ofRun] using List.find?_some hfind
  have hnext : promised.next (.written runId) =
      { recorded := promised.recorded.appendEvent event, awaited := promised.awaited.eraseP (ofRun runId) } := by
    rw [Promised.next, hfind]
    rfl
  rw [hnext]
  refine ⟨fun other => ?_, fun other ho => present_set other ?_, waiting_settled h hw, Dict.nodup_set h.names _ _,
    nodup_appendEvent _ _ h.runs⟩
  · show ∃ tail, Holds ((Dict.get (Dict.set store.entries (logFileName runId) _) _).getD []) _ tail
    rw [content_set, MemoryStore.loadEvents, get_appendEvent, hrun]
    split_ifs with ho ho' ho'
    · subst ho
      obtain ⟨tail, htail⟩ := h.content other
      -- the file ends where a line ends, so the new line stands alone
      have hnil : tail = [] := htail.lastLine.symm.trans hm
      refine ⟨[], ?_, by simp, rfl⟩
      rw [htail.lines, hnil]
      simp
    · exact absurd ho.symm ho'
    · exact absurd ho'.symm ho
    · exact h.content other
  · rw [get_appendEvent, hrun] at ho
    by_cases hr : runId = other
    · exact .inl hr.symm
    · rw [if_neg hr] at ho
      exact .inr (h.present other ho)

theorem loadEvents_delete (store : MemoryStore) (runId other : Text) :
    (store.delete other).loadEvents runId = if runId = other then [] else store.loadEvents runId := by
  rw [MemoryStore.loadEvents, MemoryStore.delete, Dict.get_restrict]
  by_cases ho : runId = other <;> simp [ho, MemoryStore.loadEvents]

theorem entries_delete (runId : Text) :
    ({ store with dir := store.dir.map (Dict.restrict (fun key => decide (key ≠ logFileName runId))) } : FsStore).entries =
      Dict.restrict (fun key => decide (key ≠ logFileName runId)) store.entries := by
  simp only [FsStore.entries]
  cases store.dir <;> rfl

theorem refines_delete (h : Refines store promised) (runId : Text) :
    Refines { store with dir := store.dir.map (Dict.restrict (fun key => decide (key ≠ logFileName runId))) }
      (promised.next (.delete runId)) where
  content := by
    intro other
    rw [FsStore.content, entries_delete, Dict.get_restrict, Promised.next, loadEvents_delete]
    by_cases ho : other = runId
    · exact ⟨[], by simpa [ho] using holds_empty⟩
    · simpa [ho, logFileName_inj, FsStore.content] using h.content other
  present := by
    intro other
    rw [entries_delete, Dict.get_restrict, Promised.next, MemoryStore.delete, Dict.get_restrict]
    by_cases ho : other = runId
    · simp [ho]
    · simpa [ho, logFileName_inj] using h.present other
  waiting := h.waiting
  names := by
    rw [entries_delete]
    exact h.names.sublist (List.filter_sublist.map _)
  runs := h.runs.sublist (List.filter_sublist.map _)

theorem refines_artifact (h : Refines store promised) (content : Text) (hn : runLogSuffix.isSuffixOf name = false) :
    Refines { store with dir := some (Dict.set store.entries name content) } promised := by
  have hget : ∀ runId, Dict.get (Dict.set store.entries name content) (logFileName runId) =
      Dict.get store.entries (logFileName runId) := by
    intro runId
    have hne : logFileName runId ≠ name := by
      intro he
      rw [isLog_iff.mpr ⟨runId, he⟩] at hn
      cases hn
    exact Dict.get_set_of_ne hne _ _
  refine ⟨fun runId => ?_, fun runId hr => ?_, h.waiting, Dict.nodup_set h.names _ _, h.runs⟩
  · show ∃ tail, Holds ((Dict.get (Dict.set store.entries name content) _).getD []) _ tail
    rw [hget]
    exact h.content runId
  · show (Dict.get (Dict.set store.entries name content) _).isSome = true
    rw [hget]
    exact h.present runId hr

theorem refines_step {step : StoreStep} (h : Refines store promised) (hm : Framed store step)
    (hs : store.step step = some store') : Refines store' (promised.next step) := by
  cases step with
  | appendEvent event =>
    cases hs
    exact refines_appendEvent h event
  | written runId =>
    simp only [FsStore.step] at hs
    split at hs
    · cases hs
    · rename_i event rest hw
      cases hs
      exact refines_written h hw hm
  | failed runId kept =>
    simp only [FsStore.step] at hs
    split at hs
    · cases hs
    · rename_i event rest hw
      cases hs
      exact refines_failed h hw kept hm
  | delete runId =>
    cases hs
    exact refines_delete h runId
  | artifact name content =>
    simp only [FsStore.step] at hs
    split_ifs at hs with hn
    cases hs
    exact refines_artifact h content (Bool.eq_false_iff.mpr hn)

theorem refines_run (h : Run FsStore.step Framed {} steps store) :
    Refines store (steps.foldl Promised.next {}) := by
  induction h with
  | nil => exact refines_empty
  | snoc _ hs hm ih =>
    rw [List.foldl_append]
    exact refines_step ih hm hs

theorem loadEvents_of_refines (h : Refines store promised) (runId : Text) :
    store.loadEvents pathOf reason runId = .ok (valuesOf (promised.recorded.loadEvents runId)) := by
  obtain ⟨tail, htail⟩ := h.content runId
  exact htail.readEvents _

def runOf (name : Text) : Text := name.take (name.length - runLogSuffix.length)

theorem runOf_logFileName (runId : Text) : runOf (logFileName runId) = runId := by
  rw [runOf, logFileName, List.length_append, Nat.add_sub_cancel, List.take_left']
  rfl

/-- A directory whose logs can be read is listed as what they hold, in the order of its entries. -/
theorem listEntries_eq (eventsOf : Text → List StoredEvent) (entries : List (Text × Text))
    (h : ∀ entry ∈ entries, runLogSuffix.isSuffixOf entry.1 = true →
      ∃ tail, Holds entry.2 (eventsOf entry.1) tail) :
    listEntries summarizeRun pathOf reason entries =
      .ok (((entries.map Prod.fst).filter runLogSuffix.isSuffixOf).filterMap
        (fun name => summarizeRun (valuesOf (eventsOf name)))) := by
  induction entries with
  | nil => rfl
  | cons entry rest ih =>
    obtain ⟨name, content⟩ := entry
    rw [List.forall_mem_cons] at h
    obtain ⟨hfirst, hrest⟩ := h
    rw [listEntries, List.map_cons]
    split_ifs with hn
    · obtain ⟨tail, htail⟩ := hfirst hn
      rw [List.filter_cons_of_pos hn, htail.readEvents, ih hrest]
      cases hsum : summarizeRun (valuesOf (eventsOf name)) <;> simp [hsum, Except.map]
    · rw [List.filter_cons_of_neg hn]
      exact ih hrest

/-- The logs of the directory are those of the recorded runs, and perhaps some of which nothing is recorded. -/
theorem logs_perm (h : Refines store promised) :
    (((store.entries.map Prod.fst).filter runLogSuffix.isSuffixOf).filter
        (fun name => (Dict.get promised.recorded.eventsByRun (runOf name)).isSome)).Perm
      (promised.recorded.eventsByRun.map (fun entry => logFileName entry.1)) := by
  have hinj : Function.Injective logFileName := fun _ _ he => logFileName_inj.mp he
  have hruns : (promised.recorded.eventsByRun.map (fun entry => logFileName entry.1)).Nodup := by
    have := h.runs.map hinj
    rwa [List.map_map] at this
  rw [List.perm_ext_iff_of_nodup ((h.names.filter _).filter _) hruns]
  intro name
  rw [List.mem_filter, List.mem_filter, isLog_iff]
  constructor
  · rintro ⟨⟨hm, runId, rfl⟩, hget⟩
    rw [runOf_logFileName] at hget
    obtain ⟨events, hevents⟩ := Option.isSome_iff_exists.mp hget
    exact List.mem_map.mpr ⟨(runId, events), Dict.mem_of_get hevents, rfl⟩
  · intro hm
    obtain ⟨⟨runId, events⟩, hentry, rfl⟩ := List.mem_map.mp hm
    have hget : (Dict.get promised.recorded.eventsByRun runId).isSome = true := by
      rw [Dict.get_of_mem h.runs hentry]
      rfl
    obtain ⟨content, hcontent⟩ := Option.isSome_iff_exists.mp (h.present runId hget)
    refine ⟨⟨List.mem_map_of_mem (f := Prod.fst) (Dict.mem_of_get hcontent), runId, rfl⟩, ?_⟩
    rw [runOf_logFileName]
    exact hget

theorem filterMap_filter_of_none {α β : Type} {f : α → Option β} {p : α → Bool} (l : List α)
    (h : ∀ a, p a = false → f a = none) : (l.filter p).filterMap f = l.filterMap f := by
  induction l with
  | nil => rfl
  | cons a rest ih =>
    cases hp : p a with
    | true => simp [hp, List.filterMap_cons, ih]
    | false => simp [hp, ih, h a hp]

theorem list_of_refines (h : Refines store promised) (hempty : summarizeRun [] = none) :
    ∃ summaries, store.list summarizeRun startedBefore pathOf reason = .ok summaries ∧
      summaries.Perm (promised.recorded.list summarizeRun startedBefore) := by
  let eventsOf := fun name => promised.recorded.loadEvents (runOf name)
  have hlogs : ∀ entry ∈ store.entries, runLogSuffix.isSuffixOf entry.1 = true →
      ∃ tail, Holds entry.2 (eventsOf entry.1) tail := by
    rintro ⟨name, content⟩ hm hn
    obtain ⟨runId, rfl⟩ := isLog_iff.mp hn
    have hcontent := h.content runId
    rw [FsStore.content, Dict.get_of_mem h.names hm] at hcontent
    simpa only [eventsOf, runOf_logFileName, Option.getD_some] using hcontent
  have hrecorded : promised.recorded.eventsByRun.filterMap (fun entry => summarizeRun (valuesOf entry.2)) =
      (promised.recorded.eventsByRun.map (fun entry => logFileName entry.1)).filterMap
        (fun name => summarizeRun (valuesOf (eventsOf name))) := by
    rw [List.filterMap_map]
    refine List.filterMap_congr ?_
    rintro ⟨runId, events⟩ hm
    have hget := Dict.get_of_mem h.runs hm
    simp only [Function.comp_apply, eventsOf, runOf_logFileName, MemoryStore.loadEvents, hget, Option.getD_some]
  have hnothing : ∀ name, (Dict.get promised.recorded.eventsByRun (runOf name)).isSome = false →
      summarizeRun (valuesOf (eventsOf name)) = none := by
    intro name hn
    have hload : eventsOf name = [] := by
      simp only [eventsOf, MemoryStore.loadEvents, Option.isSome_eq_false_iff.mp hn |> Option.isNone_iff_eq_none.mp]
      rfl
    rw [hload]
    exact hempty
  refine ⟨_, by rw [FsStore.list, listEntries_eq eventsOf _ hlogs]; rfl, ?_⟩
  rw [MemoryStore.list, hrecorded, ← filterMap_filter_of_none _ hnothing]
  refine (List.mergeSort_perm _ _).trans (List.Perm.trans ?_ (List.mergeSort_perm _ _).symm)
  exact (logs_perm h).filterMap _

def Flat (store : MemoryStore) : Prop := ∀ runId, store.loadEvents runId = store.log.filter (ofRun runId)

theorem flat_appendEvent {store : MemoryStore} (h : Flat store) (event : StoredEvent) :
    Flat (store.appendEvent event) := by
  intro runId
  have hlog : (store.appendEvent event).log = store.log ++ [event] := rfl
  rw [MemoryStore.loadEvents, get_appendEvent, hlog, List.filter_append, ← h runId]
  by_cases hr : event.runId = runId
  · simp [hr, ofRun]
  · simp [hr, ofRun, MemoryStore.loadEvents]

theorem flat_delete {store : MemoryStore} (h : Flat store) (other : Text) : Flat (store.delete other) := by
  intro runId
  have hlog : (store.delete other).log = store.log.filter (fun event => decide (event.runId ≠ other)) := rfl
  rw [loadEvents_delete, hlog, List.filter_filter]
  split_ifs with ho
  · rw [eq_comm, List.filter_eq_nil_iff]
    intro event _
    simp [ofRun, ho]
  · rw [h runId]
    refine List.filter_congr ?_
    intro event _
    by_cases hr : event.runId = runId <;> simp [ofRun, hr, ho]

theorem flat_run (steps : List StoreStep) : Flat (steps.foldl Promised.next {}).recorded := by
  induction steps using List.reverseRecOn with
  | nil => exact fun _ => rfl
  | append_singleton steps step ih =>
    rw [List.foldl_append]
    cases step with
    | appendEvent event => exact ih
    | written runId =>
      simp only [List.foldl_cons, List.foldl_nil, Promised.next]
      cases ((steps.foldl Promised.next {}).awaited.find? (ofRun runId)) with
      | none => exact ih
      | some event => exact flat_appendEvent ih event
    | failed runId kept => exact ih
    | delete runId => exact flat_delete ih runId
    | artifact name content => exact ih

def eventOf (runId : Text) (record : EventRecord) : StoredEvent := { runId := runId, record := record }

/-- Two runs, the first of which has a write waiting when the second, whose last write was cut short, is deleted. -/
def interleaved : List StoreStep :=
  [.appendEvent (eventOf ['a'] runStarted), .appendEvent (eventOf ['b'] runStarted), .artifact ['s'] ['x'],
    .appendEvent (eventOf ['b'] stepLog), .written ['b'], .appendEvent (eventOf ['a'] stepLog), .written ['a'],
    .failed ['b'] (some 3), .delete ['b']]

def interleavedStore : FsStore where
  dir := some [(['s'], ['x']), (logFileName ['a'], runStarted.line)]
  fileTails := [(logFileName ['a'], [eventOf ['a'] stepLog])]

theorem run_interleaved : Run FsStore.step Framed {} interleaved interleavedStore := by
  have hempty : Run FsStore.step Framed {} [] {} := .nil
  have hasked := ((hempty.snoc (a := StoreStep.appendEvent (eventOf ['a'] runStarted)) rfl trivial).snoc
    (a := StoreStep.appendEvent (eventOf ['b'] runStarted)) rfl trivial).snoc (a := StoreStep.artifact ['s'] ['x']) rfl trivial
  have hwritten := (hasked.snoc (a := StoreStep.appendEvent (eventOf ['b'] stepLog)) rfl trivial).snoc
    (a := StoreStep.written ['b']) rfl rfl
  have hlast := (hwritten.snoc (a := StoreStep.appendEvent (eventOf ['a'] stepLog)) rfl trivial).snoc
    (a := StoreStep.written ['a']) rfl rfl
  refine (hlast.snoc (a := StoreStep.failed ['b'] (some 3)) rfl ?_).snoc (a := StoreStep.delete ['b']) rfl trivial
  rintro event ⟨⟩
  exact ⟨by decide, rfl⟩

/-- As long as nothing is appended behind a part of a line, the files are read and listed as the store in memory is
that was given each event when it was written, whatever the appends, deletions and other artifacts are interleaved
like. -/
theorem stores_agree (h : Run FsStore.step Framed {} steps store) (hempty : summarizeRun [] = none) :
    let recorded := (steps.foldl Promised.next {}).recorded
    (∀ runId, store.loadEvents pathOf reason runId = .ok (valuesOf (recorded.loadEvents runId)) ∧
      recorded.loadEvents runId = recorded.log.filter (ofRun runId)) ∧
    ∃ summaries, store.list summarizeRun startedBefore pathOf reason = .ok summaries ∧
      summaries.Perm (recorded.list summarizeRun startedBefore) :=
  ⟨fun runId => ⟨loadEvents_of_refines (refines_run h) runId, flat_run steps runId⟩,
    list_of_refines (refines_run h) hempty⟩

theorem stores_agree_interleaved :
    let recorded := (interleaved.foldl Promised.next {}).recorded
    (∀ runId,
      interleavedStore.loadEvents String.ofList (fun _ => "") runId = .ok (valuesOf (recorded.loadEvents runId)) ∧
      recorded.loadEvents runId = recorded.log.filter (ofRun runId)) ∧
    ∃ summaries, interleavedStore.list List.head? (fun _ _ => true) String.ofList (fun _ => "") = .ok summaries ∧
      summaries.Perm (recorded.list List.head? (fun _ _ => true)) :=
  stores_agree run_interleaved rfl

def acceptedOf (runId : Text) (steps : List StoreStep) : List StoredEvent :=
  steps.filterMap (fun
    | .appendEvent event => if event.runId = runId then some event else none
    | _ => none)

inductive Fate where
  | recorded | failed | deleted
  deriving DecidableEq

def Fate.removed : Fate → Fate
  | .recorded => .deleted
  | fate => fate

def nextFates (runId : Text) (fates : List Fate) : StoreStep → List Fate
  | .written other => if other = runId then fates ++ [.recorded] else fates
  | .failed other _ => if other = runId then fates ++ [.failed] else fates
  | .delete other => if other = runId then fates.map Fate.removed else fates
  | _ => fates

def fatesOf (runId : Text) (steps : List StoreStep) : List Fate := steps.foldl (nextFates runId) []

def survivors (settled : List StoredEvent) (fates : List Fate) : List StoredEvent :=
  ((settled.zip fates).filter (fun entry => entry.2 = .recorded)).map Prod.fst

theorem survivors_concat {settled : List StoredEvent} {fates : List Fate} (h : settled.length = fates.length)
    (event : StoredEvent) (fate : Fate) : survivors (settled ++ [event]) (fates ++ [fate]) =
      survivors settled fates ++ if fate = .recorded then [event] else [] := by
  rw [survivors, List.zip_append h, List.filter_append, List.map_append]
  cases fate <;> rfl

theorem survivors_removed (settled : List StoredEvent) (fates : List Fate) :
    survivors settled (fates.map Fate.removed) = [] := by
  rw [survivors, List.map_eq_nil_iff, List.filter_eq_nil_iff]
  rintro ⟨event, fate⟩ hm
  obtain ⟨before, _, rfl⟩ := List.mem_map.mp (List.of_mem_zip hm).2
  cases before <;> simp [Fate.removed]

/-- The accepted events of a run, divided into the settled ones, each with its fate, and the awaited ones. -/
structure Divided (runId : Text) (promised : Promised) (accepted settled : List StoredEvent) (fates : List Fate) :
    Prop where
  inOrder : accepted = settled ++ promised.awaited.filter (ofRun runId)
  fated : settled.length = fates.length
  recorded : promised.recorded.loadEvents runId = survivors settled fates

theorem acceptedOf_append (runId : Text) (before after : List StoreStep) :
    acceptedOf runId (before ++ after) = acceptedOf runId before ++ acceptedOf runId after := List.filterMap_append

theorem fatesOf_concat (runId : Text) (steps : List StoreStep) (step : StoreStep) :
    fatesOf runId (steps ++ [step]) = nextFates runId (fatesOf runId steps) step := by
  rw [fatesOf, List.foldl_append]
  rfl

theorem waiting_cons {step : StoreStep} (hr : Refines store promised) (hs : store.step step = some store')
    (hstep : step = .written runId ∨ ∃ kept, step = .failed runId kept) :
    ∃ event rest, promised.awaited.filter (ofRun runId) = event :: rest := by
  rw [← hr.waiting]
  rcases hstep with rfl | ⟨kept, rfl⟩
  all_goals
    simp only [FsStore.step] at hs
    split at hs
    · cases hs
    · exact ⟨_, _, ‹_›⟩

theorem loadEvents_written {event : StoredEvent} {rest : List StoredEvent}
    (hw : promised.awaited.filter (ofRun runId) = event :: rest) :
    (promised.next (.written runId)).recorded.loadEvents runId = promised.recorded.loadEvents runId ++ [event] := by
  have hfind : promised.awaited.find? (ofRun runId) = some event := by
    rw [← List.head?_filter, hw]
    rfl
  have hrun : event.runId = runId := by simpa [ofRun] using List.find?_some hfind
  rw [Promised.next, hfind, MemoryStore.loadEvents]
  show (Dict.get (promised.recorded.appendEvent event).eventsByRun runId).getD [] = _
  rw [get_appendEvent, if_pos hrun]
  rfl

theorem loadEvents_written_other {other : Text} (h : other ≠ runId) :
    (promised.next (.written other)).recorded.loadEvents runId = promised.recorded.loadEvents runId := by
  rw [Promised.next]
  cases hf : promised.awaited.find? (ofRun other) with
  | none => rfl
  | some event =>
    have hrun : event.runId = other := by simpa [ofRun] using List.find?_some hf
    show (Dict.get (promised.recorded.appendEvent event).eventsByRun runId).getD [] = _
    rw [get_appendEvent, if_neg (fun he => h (hrun.symm.trans he))]
    rfl

theorem divided_step {step : StoreStep} {accepted settled : List StoredEvent} {fates : List Fate}
    (h : Divided runId promised accepted settled fates) (hr : Refines store promised)
    (hs : store.step step = some store') :
    ∃ settled', Divided runId (promised.next step) (accepted ++ acceptedOf runId [step]) settled'
      (nextFates runId fates step) := by
  obtain ⟨haccepted, hsettled, hrecorded⟩ := h
  cases step with
  | appendEvent event =>
    refine ⟨settled, ?_, hsettled, hrecorded⟩
    rw [haccepted, List.append_assoc]
    by_cases he : event.runId = runId <;> simp [Promised.next, acceptedOf, ofRun, he]
  | written other =>
    by_cases ho : other = runId
    · subst ho
      obtain ⟨event, rest, hw⟩ := waiting_cons hr hs (.inl rfl)
      refine ⟨settled ++ [event], ?_, by simp [nextFates, hsettled], ?_⟩
      · have hawaited : (promised.next (.written other)).awaited.filter (ofRun other) = rest := by
          rw [Promised.next, filter_eraseP_self, hw]
          rfl
        rw [hawaited, haccepted, hw]
        simp [acceptedOf]
      · rw [loadEvents_written hw, hrecorded, nextFates, if_pos rfl, survivors_concat hsettled]
        rfl
    · refine ⟨settled, ?_, by simp [nextFates, ho, hsettled], ?_⟩
      · have hawaited : (promised.next (.written other)).awaited.filter (ofRun runId) =
            promised.awaited.filter (ofRun runId) := filter_eraseP_of_disjoint (ofRun_disjoint ho) _
        rw [hawaited, haccepted]
        simp [acceptedOf]
      · rw [loadEvents_written_other ho, hrecorded, nextFates, if_neg ho]
  | failed other kept =>
    by_cases ho : other = runId
    · subst ho
      obtain ⟨event, rest, hw⟩ := waiting_cons hr hs (.inr ⟨kept, rfl⟩)
      refine ⟨settled ++ [event], ?_, by simp [nextFates, hsettled], ?_⟩
      · have hawaited : (promised.next (.failed other kept)).awaited.filter (ofRun other) = rest := by
          rw [Promised.next, filter_eraseP_self, hw]
          rfl
        rw [hawaited, haccepted, hw]
        simp [acceptedOf]
      · rw [nextFates, if_pos rfl, survivors_concat hsettled, ← hrecorded]
        exact (List.append_nil _).symm
    · refine ⟨settled, ?_, by simp [nextFates, ho, hsettled], ?_⟩
      · have hawaited : (promised.next (.failed other kept)).awaited.filter (ofRun runId) =
            promised.awaited.filter (ofRun runId) := filter_eraseP_of_disjoint (ofRun_disjoint ho) _
        rw [hawaited, haccepted]
        simp [acceptedOf]
      · rw [nextFates, if_neg ho, ← hrecorded]
        rfl
  | delete other =>
    have hload := loadEvents_delete promised.recorded runId other
    refine ⟨settled, ?_, ?_, ?_⟩
    · rw [haccepted]
      simp [acceptedOf, Promised.next]
    · simp only [nextFates]
      split_ifs
      · rw [List.length_map, hsettled]
      · exact hsettled
    · simp only [nextFates, Promised.next, hload]
      by_cases ho : other = runId
      · rw [if_pos ho.symm, if_pos ho, survivors_removed]
      · rw [if_neg (Ne.symm ho), if_neg ho, hrecorded]
  | artifact name content => exact ⟨settled, by simpa [acceptedOf, Promised.next] using haccepted, hsettled, hrecorded⟩

theorem divided_run (h : Run FsStore.step Framed {} steps store) (runId : Text) :
    ∃ settled, Divided runId (steps.foldl Promised.next {}) (acceptedOf runId steps) settled (fatesOf runId steps) := by
  induction h with
  | nil => exact ⟨[], rfl, rfl, rfl⟩
  | snoc hrun hs _ ih =>
    obtain ⟨settled, hdivided⟩ := ih
    rw [List.foldl_append, acceptedOf_append, fatesOf_concat]
    exact divided_step hdivided (refines_run hrun) hs

/-- The events of a run were accepted in one order: first the settled ones, then those that still wait. Of the settled
ones just those are read whose own write was done, and which no deletion has removed since; each once, in that
order. -/
theorem read_in_order (h : Run FsStore.step Framed {} steps store) (runId : Text) :
    ∃ settled, acceptedOf runId steps = settled ++ store.waiting (logFileName runId) ∧
      settled.length = (fatesOf runId steps).length ∧
      store.loadEvents pathOf reason runId = .ok (valuesOf (survivors settled (fatesOf runId steps))) := by
  have hr := refines_run h
  obtain ⟨settled, hdivided⟩ := divided_run h runId
  refine ⟨settled, ?_, hdivided.fated, ?_⟩
  · rw [hr.waiting]
    exact hdivided.inOrder
  · rw [loadEvents_of_refines hr, hdivided.recorded]

theorem read_in_order_interleaved :
    ∃ settled, acceptedOf ['a'] interleaved = settled ++ interleavedStore.waiting (logFileName ['a']) ∧
      settled.length = (fatesOf ['a'] interleaved).length ∧
      interleavedStore.loadEvents String.ofList (fun _ => "") ['a'] =
        .ok (valuesOf (survivors settled (fatesOf ['a'] interleaved))) :=
  read_in_order run_interleaved ['a']

end KimchiWorkflows.Host.RunStores
