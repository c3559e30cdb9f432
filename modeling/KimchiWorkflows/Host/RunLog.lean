import Mathlib.Data.List.Induction
import KimchiWorkflows.Lib.JsonReading
import KimchiWorkflows.Lib.Stepping

/-!
The file of a run's log: each event is appended as one line, a killed process may leave a part of one, and
the reader drops a last line it cannot parse.
-/

namespace KimchiWorkflows.Host

open Json Stepping

structure EventRecord where
  members : List (Text × Value)

def EventRecord.value (event : EventRecord) : Value := .object event.members

def EventRecord.line (event : EventRecord) : Text := write event.value ++ ['\n']

structure LogFile where
  content : Text := []
  completed : List EventRecord := []

inductive Write where
  | append (event : EventRecord)
  | tear (event : EventRecord) (kept : Nat) (broken : Bool)

/-- What a killed process leaves of a line; a character cut in two is read as the replacement character. -/
def torn (event : EventRecord) (kept : Nat) (broken : Bool) : Text :=
  event.line.take kept ++ if broken then ['\ufffd'] else []

def LogFile.step (file : LogFile) : Write → Option LogFile
  | .append event => some { content := file.content ++ event.line, completed := file.completed ++ [event] }
  | .tear event kept broken =>
    if kept < event.line.length then some { file with content := file.content ++ torn event kept broken }
    else none

def splitLines : Text → List Text
  | [] => [[]]
  | c :: rest =>
    if c = '\n' then [] :: splitLines rest
    else match splitLines rest with
      | line :: lines => (c :: line) :: lines
      | [] => [[c]]

def isSpace (c : Char) : Bool :=
  c ∈ ['\t', '\n', '\x0b', '\x0c', '\r', ' ', '\u00a0', '\u1680', '\u2028', '\u2029', '\u202f', '\u205f',
    '\u3000', '\ufeff'] || ('\u2000' ≤ c && c ≤ '\u200a')

def parseLines (filePath : String) (reason : Text → String) : Nat → List Text → Except String (List Value)
  | _, [] => .ok []
  | index, line :: rest =>
    match read line with
    | some event => (parseLines filePath reason (index + 1) rest).map (event :: ·)
    | none =>
      if rest = [] then .ok []
      else .error ("corrupt run log " ++ filePath ++ " at line " ++ toString (index + 1) ++ ": " ++ reason line)

def readEvents (filePath : String) (reason : Text → String) (content : Text) : Except String (List Value) :=
  parseLines filePath reason 0 ((splitLines content).filter (fun line => !line.all isSpace))

def LogFile.tail (file : LogFile) : Text := (splitLines file.content).getLastD []

/-- Lines are appended where a line begins, and what a killed process leaves is no JSON text. -/
def Framed (file : LogFile) : Write → Prop
  | .append _ => file.tail = []
  | .tear event kept broken => read (file.tail ++ torn event kept broken) = none

variable {file : LogFile} {line rest tail : Text} {event : EventRecord} {events : List EventRecord}
  {filePath : String} {reason : Text → String}

theorem splitLines_line (h : '\n' ∉ line) : splitLines (line ++ '\n' :: rest) = line :: splitLines rest := by
  induction line with
  | nil => rfl
  | cons c line ih =>
    rw [List.mem_cons, not_or] at h
    rw [List.cons_append, splitLines, if_neg (Ne.symm h.1), ih h.2]

theorem splitLines_last (h : '\n' ∉ tail) : splitLines tail = [tail] := by
  induction tail with
  | nil => rfl
  | cons c tail ih =>
    rw [List.mem_cons, not_or] at h
    rw [splitLines, if_neg (Ne.symm h.1), ih h.2]

theorem newline_notMem_value (event : EventRecord) : '\n' ∉ write event.value := newline_notMem_write event.value

theorem splitLines_events (events : List EventRecord) (h : '\n' ∉ tail) :
    splitLines (events.flatMap EventRecord.line ++ tail) = events.map (fun event => write event.value) ++ [tail] := by
  induction events with
  | nil => exact splitLines_last h
  | cons event rest ih =>
    have hline : (event :: rest).flatMap EventRecord.line ++ tail =
        write event.value ++ '\n' :: (rest.flatMap EventRecord.line ++ tail) := by
      simp [EventRecord.line, List.append_assoc]
    rw [hline, splitLines_line (newline_notMem_value event), ih]
    rfl

theorem all_isSpace_event (event : EventRecord) : (write event.value).all isSpace = false := by
  rw [EventRecord.value, write, List.all_cons]
  rfl

theorem parseLines_events (index : Nat) (lines : List Text) (events : List EventRecord) :
    parseLines filePath reason index (events.map (fun event => write event.value) ++ lines) =
      (parseLines filePath reason (index + events.length) lines).map (events.map EventRecord.value ++ ·) := by
  induction events generalizing index with
  | nil =>
    show parseLines filePath reason index lines = _
    cases parseLines filePath reason index lines <;> rfl
  | cons event rest ih =>
    have hindex : index + 1 + rest.length = index + (event :: rest).length := by
      rw [List.length_cons]
      omega
    rw [List.map_cons, List.cons_append, parseLines, read_write, ih, hindex]
    cases parseLines filePath reason (index + (event :: rest).length) lines <;> rfl

/-- Whole lines and a rest that is no JSON text are read as the events of the lines. -/
theorem readEvents_events (h : '\n' ∉ tail) (hr : read tail = none) :
    readEvents filePath reason (events.flatMap EventRecord.line ++ tail) = .ok (events.map EventRecord.value) := by
  have hkept : (events.map (fun event => write event.value)).filter (fun line => !line.all isSpace) =
      events.map (fun event => write event.value) := by
    refine List.filter_eq_self.mpr ?_
    intro line hm
    obtain ⟨event, -, rfl⟩ := List.mem_map.mp hm
    rw [all_isSpace_event]
    rfl
  rw [readEvents, splitLines_events events h, List.filter_append, hkept, parseLines_events]
  by_cases hb : tail.all isSpace = true
  · simp [hb, parseLines, Except.map]
  · simp [hb, parseLines, hr, Except.map]

/-- The file holds the lines of the completed appends, and after them nothing that could be parsed. -/
structure WellFramed (file : LogFile) : Prop where
  content : file.content = file.completed.flatMap EventRecord.line ++ file.tail
  newline : '\n' ∉ file.tail
  unread : read file.tail = none

theorem tail_of_content (hc : file.content = events.flatMap EventRecord.line ++ tail) (h : '\n' ∉ tail) :
    file.tail = tail := by
  rw [LogFile.tail, hc, splitLines_events events h]
  simp

theorem wellFramed_of (tail : Text) (hc : file.content = file.completed.flatMap EventRecord.line ++ tail)
    (h : '\n' ∉ tail) (hr : read tail = none) : WellFramed file := by
  have ht := tail_of_content hc h
  exact ⟨ht.symm ▸ hc, ht.symm ▸ h, ht.symm ▸ hr⟩

theorem newline_notMem_torn {kept : Nat} {broken : Bool} (h : kept < event.line.length) : '\n' ∉ torn event kept broken := by
  have hlen : kept ≤ (write event.value).length := by
    rw [EventRecord.line, List.length_append] at h
    simp at h
    omega
  rw [torn, EventRecord.line, List.take_append_of_le_length hlen, List.mem_append, not_or]
  refine ⟨fun hm => newline_notMem_value event (List.mem_of_mem_take hm), ?_⟩
  cases broken <;> simp

theorem wellFramed_step {file' : LogFile} {w : Write} (h : WellFramed file) (hf : Framed file w)
    (hs : file.step w = some file') : WellFramed file' := by
  cases w with
  | append event =>
    cases hs
    refine wellFramed_of [] ?_ (by simp) rfl
    have htail : file.tail = [] := hf
    show file.content ++ event.line = (file.completed ++ [event]).flatMap EventRecord.line ++ []
    rw [h.content, htail]
    simp
  | tear event kept broken =>
    simp only [LogFile.step] at hs
    split_ifs at hs with hk
    cases hs
    refine wellFramed_of _ ?_ ?_ hf
    · show file.content ++ torn event kept broken = file.completed.flatMap EventRecord.line ++ _
      rw [← List.append_assoc, ← h.content]
    · rw [List.mem_append, not_or]
      exact ⟨h.newline, newline_notMem_torn hk⟩

/-- A log whose lines are appended at line starts, and whose torn ends are no JSON texts, is read as the
events whose appends completed. -/
theorem readEvents_of_framed {writes : List Write} (h : Run LogFile.step Framed {} writes file) :
    readEvents filePath reason file.content = .ok (file.completed.map EventRecord.value) := by
  have hframed : WellFramed file := by
    refine h.keeps (wellFramed_of [] rfl (by simp) rfl) ?_
    intro s a s' hs hm hstep
    exact wellFramed_step hs hm hstep
  rw [hframed.content]
  exact readEvents_events hframed.newline hframed.unread

/-- At a line start, a line that stops short of the record's end leaves no JSON text. -/
theorem framed_tear (ht : file.tail = []) {kept : Nat} (h : kept < (write event.value).length) :
    Framed file (.tear event kept false) := by
  have htake : torn event kept false = (write event.value).take kept := by
    rw [torn, EventRecord.line, List.take_append_of_le_length h.le]
    simp
  show read (file.tail ++ torn event kept false) = none
  rw [ht, List.nil_append, htake]
  refine read_eq_none_of_prefix (List.take_prefix _ _) ?_
  intro he
  have := congrArg List.length he
  rw [List.length_take, EventRecord.value] at this
  rw [EventRecord.value] at h
  omega

section Sample

def typed (kind : Text) : EventRecord := { members := [(['t', 'y', 'p', 'e'], .string kind)] }

def stepLog : EventRecord := typed ['s', 't', 'e', 'p', '-', 'l', 'o', 'g']

def runStarted : EventRecord := typed ['r', 'u', 'n', '-', 's', 't', 'a', 'r', 't', 'e', 'd']

/-- A run whose last event was cut off is read up to it. -/
theorem readEvents_cutOff :
    ∃ file, Run LogFile.step Framed {} [.append runStarted, .tear stepLog 12 false] file ∧
      readEvents "run.events.jsonl" (fun _ => "") file.content = .ok [runStarted.value] := by
  have hstart : Run LogFile.step Framed {} ([] ++ [.append runStarted])
      { content := runStarted.line, completed := [runStarted] } := .snoc .nil rfl rfl
  have htail : ({ content := runStarted.line, completed := [runStarted] } : LogFile).tail = [] := by decide
  have hshort : 12 < (write stepLog.value).length := by decide
  have hrun := hstart.snoc rfl (framed_tear htail hshort)
  exact ⟨_, hrun, readEvents_of_framed hrun⟩

/-- An event appended after a torn one is lost. -/
theorem torn_append_loses_event : ¬ ∀ (filePath : String) (reason : Text → String) (writes : List Write) (file : LogFile),
    Run LogFile.step Unconditional {} writes file →
      readEvents filePath reason file.content = .ok (file.completed.map EventRecord.value) := by
  intro h
  obtain ⟨file, hs, hread⟩ : ∃ file, steps LogFile.step {} [.tear runStarted 12 false, .append stepLog] = some file ∧
      readEvents "run.events.jsonl" (fun _ => "") file.content = .ok [] ∧ file.completed = [stepLog] :=
    ⟨_, rfl, rfl, rfl⟩
  have := h "run.events.jsonl" (fun _ => "") _ file (run_of_steps hs)
  rw [hread.1, hread.2] at this
  cases this

end Sample

end KimchiWorkflows.Host
