import Mathlib
import KimchiWorkflows.Host.Commands
import KimchiWorkflows.Host.RunLog
import KimchiWorkflows.Host.Telemetry
import KimchiWorkflows.Lib.Words

/-!
Command lines: how the text after `/workflow` is dispatched, and what completion offers for one.
-/

namespace KimchiWorkflows.Host.Completions

open Json KimchiWorkflows.Engine KimchiWorkflows.Host.Telemetry

structure RunSummary where
  runId : Text
  workflowName : Text
  status : RunStatus
  startedAt : Text
  currentStep : Option Text

structure CompletionItem where
  value : Text
  label : Text
  description : Option Text := none

structure CompletionSources where
  workflows : List Text
  runs : List RunSummary

structure Verb where
  name : Text
  takesArgument : Bool
  description : Text

def run : Verb := ⟨"run".toList, true, "start a workflow, or `run list` for recorded runs".toList⟩

def create : Verb := ⟨"create".toList, false, "generate a new workflow by interview".toList⟩

def list : Verb := ⟨"list".toList, false, "the workflows this project defines".toList⟩

def status : Verb := ⟨"status".toList, true, "show a run's tree — the executing one when bare".toList⟩

def resume : Verb := ⟨"resume".toList, true, "continue a blocked, crashed, or cancelled run".toList⟩

def cancel : Verb := ⟨"cancel".toList, true, "stop an executing or blocked run".toList⟩

def delete : Verb := ⟨"delete".toList, true, "permanently remove a stopped run".toList⟩

def verbs : List Verb := [run, create, list, status, resume, cancel, delete]

@[simp] theorem run_name : run.name = "run".toList := rfl

@[simp] theorem create_name : create.name = "create".toList := rfl

@[simp] theorem list_name : list.name = "list".toList := rfl

@[simp] theorem status_name : status.name = "status".toList := rfl

@[simp] theorem resume_name : resume.name = "resume".toList := rfl

@[simp] theorem cancel_name : cancel.name = "cancel".toList := rfl

@[simp] theorem delete_name : delete.name = "delete".toList := rfl

def reservedRunList : Text := "list".toList

def maxRunItems : Nat := 20

def statusText : RunStatus → Text
  | .inProgress => "in_progress".toList
  | .blocked => "blocked".toList
  | .completed => "completed".toList
  | .cancelled => "cancelled".toList
  | .crashed => "crashed".toList

def isLiveRun (status : RunStatus) : Bool := status = .inProgress || status = .blocked

def isError : ResumeAction → Bool
  | .error _ => true
  | _ => false

def tokensOf (text : Text) : List Text := Words.wordsOf (fun c => !isSpace c) text

def trim (text : Text) : Text := (text.dropWhile isSpace).rdropWhile isSpace

section Offers

-- Case folding and the order of the locale are the platform's.
variable (lower : Text → Text) (localeOrder : Text → Text → Bool)

/-- The candidates that begin with the typed text, or those that hold it where none begins with it. -/
def matching {α : Type} (key : α → Text) (candidates : List α) (typed : Text) : List α :=
  if typed = [] then candidates
  else
    let needle := lower typed
    let prefixed := candidates.filter (fun candidate => needle.isPrefixOf (lower (key candidate)))
    if prefixed.length > 0 then prefixed
    else candidates.filter (fun candidate => decide (needle <:+: lower (key candidate)))

def popup (items : List CompletionItem) : Option (List CompletionItem) :=
  if items.length > 0 then some items else none

def verbItems (typed : Text) : Option (List CompletionItem) :=
  popup ((matching lower Verb.name verbs typed).map (fun verb =>
    { value := if verb.takesArgument then verb.name ++ [' '] else verb.name
      label := verb.name
      description := some verb.description }))

def workflowItems (verb typed : Text) (workflows : List Text) : Option (List CompletionItem) :=
  let sorted := workflows.mergeSort (fun a b => decide (a.flatMap codeUnits ≤ b.flatMap codeUnits))
  popup ((matching lower id (reservedRunList :: sorted).eraseDups typed).map (fun name =>
    { value := verb ++ ' ' :: name, label := name }))

def runItems (verb typed : Text) (runs : List RunSummary) (accepts : RunStatus → Bool) :
    Option (List CompletionItem) :=
  let eligible := (runs.filter (fun run => accepts run.status)).mergeSort
    (fun a b => localeOrder b.startedAt a.startedAt)
  popup (((matching lower RunSummary.runId eligible typed).take maxRunItems).map (fun run =>
    { value := verb ++ ' ' :: run.runId
      label := run.runId
      description := some (run.workflowName ++ "  ".toList ++ statusText run.status ++ "  step=".toList ++
        run.currentStep.getD ['-']) }))

def accepts (verb : Text) (status : RunStatus) : Bool :=
  if verb = Completions.status.name then true
  else if verb = resume.name then !isError (resumeAction status)
  else if verb = cancel.name then isLiveRun status
  else !isLiveRun status

def argumentItems (verb typed : Text) (sources : CompletionSources) : Option (List CompletionItem) :=
  if verb = run.name then workflowItems lower verb typed sources.workflows
  else if verb = status.name ∨ verb = resume.name ∨ verb = cancel.name ∨ verb = delete.name then
    runItems lower localeOrder verb typed sources.runs (accepts verb)
  else none

def settledOf (argumentPrefix : Text) : List Text :=
  if argumentPrefix.getLast?.any isSpace then tokensOf argumentPrefix else (tokensOf argumentPrefix).dropLast

def typedOf (argumentPrefix : Text) : Text :=
  if argumentPrefix.getLast?.any isSpace then [] else (tokensOf argumentPrefix).getLast?.getD []

def completeWorkflowArgument (argumentPrefix : Text) (sources : CompletionSources) :
    Option (List CompletionItem) :=
  match settledOf argumentPrefix with
  | [] => verbItems lower (typedOf argumentPrefix)
  | [verb] => argumentItems lower localeOrder verb (typedOf argumentPrefix) sources
  | _ => none

end Offers

inductive Command where
  | welcome
  | listRuns
  | run (target : Text) (inputArg : Option Text)
  | create
  | list
  | resume (runRef : Text)
  | status (runRef : Option Text)
  | cancel (runRef : Option Text)
  | delete (runRef : Text)
  | notify (text : Text)
  deriving DecidableEq

structure ParsedRunArgs where
  target : Option Text := none
  inputArg : Option Text := none
  error : Option Text := none

def inputFlag : Text := "--input".toList

/-- Where the first flag stands that is a word of its own; `bounded` tells that a word may begin here. -/
def findInputFlag (bounded : Bool) : Text → Option Nat
  | [] => none
  | c :: rest =>
    if bounded && inputFlag.isPrefixOf (c :: rest) && ((c :: rest).drop inputFlag.length).head?.all isSpace then some 0
    else (findInputFlag (isSpace c) rest).map (· + 1)

def nonempty (text : Text) : Option Text := if text = [] then none else some text

def parseRunArgs (raw : Text) : ParsedRunArgs :=
  let trimmed := trim raw
  match findInputFlag true trimmed with
  | none => { target := nonempty trimmed }
  | some flagStart =>
    let target := nonempty (trim (trimmed.take flagStart))
    match nonempty (trim (trimmed.drop (flagStart + inputFlag.length))) with
    | none => { target := target, error := some "--input requires a value: inline JSON, or @<file>".toList }
    | some inputArg => { target := target, inputArg := some inputArg }

def runUsage : Text :=
  "usage: /workflow run <file-name|file.ts> [--input <json>|@<file>]  |  /workflow run list".toList

def unknownSubcommand (sub : Text) : Text :=
  "workflow: unknown subcommand \"".toList ++ sub ++
    "\". Try run | create | list | status | resume | cancel | delete.".toList

/-- `run` with what follows it, as it was typed: the white space of an input is kept. -/
def startCommand (runArgs : Text) : Command :=
  let parsed := parseRunArgs runArgs
  match parsed.error, parsed.target with
  | some error, _ => .notify ("workflow: ".toList ++ error)
  | none, none => .notify runUsage
  | none, some target => .run target parsed.inputArg

def dispatch (args : Text) : Command :=
  let trimmedArgs := trim args
  match tokensOf trimmedArgs with
  | [] => .welcome
  | sub :: rest =>
    if sub = run.name then
      if rest.head? = some reservedRunList then .listRuns
      else startCommand (trim (trimmedArgs.drop sub.length))
    else if sub = create.name then .create
    else if sub = resume.name then
      rest.head?.elim (.notify "usage: /workflow resume <run-id>".toList) .resume
    else if sub = status.name then .status rest.head?
    else if sub = cancel.name then .cancel rest.head?
    else if sub = delete.name then
      rest.head?.elim (.notify "usage: /workflow delete <run-id>".toList) .delete
    else if sub = list.name then .list
    else .notify (unknownSubcommand sub)

def OneWord (text : Text) : Prop := text ≠ [] ∧ ∀ c ∈ text, isSpace c = false

/-- A workflow's name that is read back as it is typed after `run`. -/
structure Typeable (name : Text) : Prop where
  nonempty : name ≠ []
  trimmed : trim name = name
  free : (tokensOf name).head? ≠ some reservedRunList
  flagless : findInputFlag true name = none

def commandOf (verb argument : Text) : Command :=
  if verb = run.name then if argument = reservedRunList then .listRuns else .run argument none
  else if verb = status.name then .status (some argument)
  else if verb = resume.name then .resume argument
  else if verb = cancel.name then .cancel (some argument)
  else .delete argument

section Reading

variable {text word rest name id : Text} {c : Char}

theorem OneWord.keeps (h : OneWord word) : ∀ c ∈ word, (!isSpace c) = true := by
  intro c hc
  simp [h.2 c hc]

theorem tokensOf_cons (h : isSpace c = true) : tokensOf (c :: text) = tokensOf text := by
  apply Words.wordsOf_cons_of_neg
  simp [h]

theorem tokensOf_word (h : OneWord word) : tokensOf word = [word] := by
  have hwords : tokensOf (word ++ []) = word :: tokensOf [] := Words.wordsOf_append h.1 h.keeps rfl
  rwa [List.append_nil] at hwords

theorem tokensOf_append (h : OneWord word) : tokensOf (word ++ ' ' :: rest) = word :: tokensOf rest := by
  have hspace : isSpace ' ' = true := by decide
  rw [← tokensOf_cons hspace]
  exact Words.wordsOf_append h.1 h.keeps (by simp [hspace])

theorem tokensOf_trim (text : Text) : tokensOf (trim text) = tokensOf text := by
  have hback : ∀ text : Text, tokensOf (text.rdropWhile isSpace) = tokensOf text := by
    intro text
    have h : tokensOf (text.rdropWhile (fun c => !(!isSpace c))) = tokensOf text := Words.wordsOf_rdropWhile
    simpa using h
  have hfront : ∀ text : Text, tokensOf (text.dropWhile isSpace) = tokensOf text := by
    intro text
    have h : tokensOf (text.dropWhile (fun c => !(!isSpace c))) = tokensOf text := Words.wordsOf_dropWhile
    simpa using h
  exact (hback _).trans (hfront _)

theorem trim_cons (h : isSpace c = true) : trim (c :: text) = trim text := by
  unfold trim
  rw [List.dropWhile_cons_of_pos h]

theorem trim_concat (h : isSpace c = true) : trim (text ++ [c]) = trim text := by
  unfold trim
  rw [List.dropWhile_append]
  split_ifs with he
  · have hnil : text.dropWhile isSpace = [] := by simpa using he
    simp [hnil, h]
  · rw [List.rdropWhile_concat_pos _ _ _ h]

theorem trim_rdropWhile (text : Text) : trim (text.rdropWhile isSpace) = trim text := by
  induction text using List.reverseRecOn with
  | nil => rfl
  | append_singleton text c ih =>
    by_cases hc : isSpace c = true
    · rw [List.rdropWhile_concat_pos _ _ _ hc, ih, trim_concat hc]
    · rw [List.rdropWhile_concat_neg _ _ _ hc]

theorem trim_trim (text : Text) : trim (trim text) = trim text := by
  have h : trim ((text.dropWhile isSpace).rdropWhile isSpace) = trim (text.dropWhile isSpace) := trim_rdropWhile _
  have hdrop : trim (text.dropWhile isSpace) = trim text := by
    unfold trim
    rw [List.dropWhile_idempotent]
  exact h.trans hdrop

theorem rdropWhile_append (h : OneWord word) (rest : Text) :
    (word ++ rest).rdropWhile isSpace = word ++ rest.rdropWhile isSpace := by
  induction rest using List.reverseRecOn with
  | nil =>
    rw [List.append_nil, List.rdropWhile_nil, List.append_nil, List.rdropWhile_eq_self_iff]
    intro hne
    simp [h.2 _ (List.getLast_mem hne)]
  | append_singleton rest c ih =>
    rw [← List.append_assoc]
    by_cases hc : isSpace c = true
    · rw [List.rdropWhile_concat_pos _ _ _ hc, List.rdropWhile_concat_pos _ _ _ hc, ih]
    · rw [List.rdropWhile_concat_neg _ _ _ hc, List.rdropWhile_concat_neg _ _ _ hc, List.append_assoc]

theorem trim_append (h : OneWord word) (rest : Text) : trim (word ++ rest) = word ++ rest.rdropWhile isSpace := by
  have hfront : (word ++ rest).dropWhile isSpace = word ++ rest := by
    cases word with
    | nil => exact absurd rfl h.1
    | cons c more => rw [List.cons_append, List.dropWhile_cons_of_neg (by simp [h.2 c List.mem_cons_self])]
  unfold trim
  rw [hfront, rdropWhile_append h]

theorem trim_remainder (h : OneWord word) : trim ((trim (word ++ ' ' :: rest)).drop word.length) = trim rest := by
  rw [trim_append h, List.drop_left, trim_rdropWhile, trim_cons (by decide)]

theorem oneWord_verb {verb : Verb} (h : verb ∈ verbs) : OneWord verb.name := by
  simp only [verbs, List.mem_cons, List.not_mem_nil, or_false] at h
  obtain rfl | rfl | rfl | rfl | rfl | rfl | rfl := h <;>
    exact ⟨by simp, by simp [isSpace]⟩

theorem tokensOf_line (h : OneWord word) : tokensOf (trim (word ++ ' ' :: rest)) = word :: tokensOf rest := by
  rw [tokensOf_trim, tokensOf_append h]

theorem run_mem : run ∈ verbs := List.mem_cons_self

theorem list_mem : list ∈ verbs := List.mem_cons_of_mem _ (List.mem_cons_of_mem _ List.mem_cons_self)

theorem dispatch_run : dispatch (run.name ++ ' ' :: rest) =
    if (tokensOf rest).head? = some reservedRunList then .listRuns else startCommand (trim rest) := by
  have hword : OneWord run.name := oneWord_verb run_mem
  simp only [dispatch, tokensOf_line hword, trim_remainder hword, if_true]

theorem dispatch_run_list : dispatch (run.name ++ ' ' :: reservedRunList) = .listRuns := by
  have hlist : OneWord reservedRunList := oneWord_verb list_mem
  rw [dispatch_run, tokensOf_word hlist, List.head?_cons, if_pos rfl]

theorem startCommand_eq_iff :
    startCommand (trim name) = .run name none ↔
      name ≠ [] ∧ trim name = name ∧ findInputFlag true name = none := by
  simp only [startCommand, parseRunArgs, trim_trim]
  constructor
  · intro h
    cases hflag : findInputFlag true (trim name) with
    | none =>
      simp only [hflag, nonempty] at h
      by_cases hnil : trim name = []
      · simp [hnil] at h
      · have htrim : trim name = name := by simpa [hnil] using h
        rw [htrim] at hnil hflag
        exact ⟨hnil, htrim, hflag⟩
    | some flagStart =>
      simp only [hflag] at h
      cases hinput : nonempty (trim ((trim name).drop (flagStart + inputFlag.length))) with
      | none => simp [hinput] at h
      | some inputArg => cases ht : nonempty (trim ((trim name).take flagStart)) <;> simp [hinput, ht] at h
  · rintro ⟨hne, htrim, hflag⟩
    simp [htrim, hflag, nonempty, hne]

theorem dispatch_run_iff : dispatch (run.name ++ ' ' :: name) = .run name none ↔ Typeable name := by
  rw [dispatch_run]
  split_ifs with hlist
  · simp only [false_iff]
    exact fun h => h.free hlist
  · rw [startCommand_eq_iff]
    exact ⟨fun ⟨hne, htrim, hflag⟩ => ⟨hne, htrim, hlist, hflag⟩, fun h => ⟨h.nonempty, h.trimmed, h.flagless⟩⟩

def runVerbs : List Verb := [status, resume, cancel, delete]

theorem mem_runVerbs {verb : Verb} :
    verb ∈ runVerbs ↔ verb = status ∨ verb = resume ∨ verb = cancel ∨ verb = delete := by
  simp only [runVerbs, List.mem_cons, List.not_mem_nil, or_false]

theorem runVerbs_subset : runVerbs ⊆ verbs := by
  intro verb h
  exact List.mem_cons_of_mem _ (List.mem_cons_of_mem _ (List.mem_cons_of_mem _ h))

theorem dispatch_ref {verb : Verb} (hverb : verb ∈ runVerbs) (hid : OneWord id) :
    dispatch (verb.name ++ ' ' :: id) = commandOf verb.name id := by
  have hword : tokensOf (trim (verb.name ++ ' ' :: id)) = verb.name :: tokensOf id :=
    tokensOf_line (oneWord_verb (runVerbs_subset hverb))
  simp only [dispatch, hword, tokensOf_word hid]
  obtain rfl | rfl | rfl | rfl := mem_runVerbs.mp hverb <;>
    simp [commandOf]

theorem dispatch_bare {verb : Verb} (hverb : verb = create ∨ verb = list) :
    dispatch verb.name = if verb.name = create.name then .create else .list := by
  have hword : OneWord verb.name := by
    obtain rfl | rfl := hverb
    · exact oneWord_verb (List.mem_cons_of_mem _ List.mem_cons_self)
    · exact oneWord_verb list_mem
  simp only [dispatch, tokensOf_trim, tokensOf_word hword]
  obtain rfl | rfl := hverb <;> simp

end Reading

section Completing

variable {lower : Text → Text} {localeOrder : Text → Text → Bool} {sources : CompletionSources}
  {verb typed name : Text} {items : List CompletionItem} {item : CompletionItem}

theorem mem_matching {α : Type} {key : α → Text} {candidates : List α} {candidate : α}
    (h : candidate ∈ matching lower key candidates typed) : candidate ∈ candidates := by
  unfold matching at h
  split_ifs at h
  · exact h
  · simp only at h
    split_ifs at h
    · exact List.mem_of_mem_filter h
    · exact List.mem_of_mem_filter h

theorem popup_eq {offered : List CompletionItem} (h : popup offered = some items) : offered = items := by
  unfold popup at h
  split_ifs at h
  exact Option.some.inj h

theorem mem_verbItems (h : verbItems lower typed = some items) (hi : item ∈ items) :
    ∃ verb ∈ verbs, item.label = verb.name ∧
      item.value = if verb.takesArgument then verb.name ++ [' '] else verb.name := by
  obtain rfl := popup_eq h
  obtain ⟨verb, hverb, rfl⟩ := List.mem_map.mp hi
  exact ⟨verb, mem_matching hverb, rfl, rfl⟩

theorem mem_workflowItems {workflows : List Text} (h : workflowItems lower verb typed workflows = some items)
    (hi : item ∈ items) :
    item.value = verb ++ ' ' :: item.label ∧ (item.label = reservedRunList ∨ item.label ∈ workflows) := by
  obtain rfl := popup_eq h
  obtain ⟨name, hname, rfl⟩ := List.mem_map.mp hi
  refine ⟨rfl, ?_⟩
  have hmem := List.mem_eraseDups.mp (mem_matching hname)
  simpa using hmem

theorem mem_runItems {runs : List RunSummary} {accepts : RunStatus → Bool}
    (h : runItems lower localeOrder verb typed runs accepts = some items) (hi : item ∈ items) :
    item.value = verb ++ ' ' :: item.label ∧
      ∃ run ∈ runs, run.runId = item.label ∧ accepts run.status = true := by
  obtain rfl := popup_eq h
  obtain ⟨run, hrun, rfl⟩ := List.mem_map.mp hi
  have hmem := mem_matching (List.mem_of_mem_take hrun)
  rw [List.mem_mergeSort, List.mem_filter] at hmem
  exact ⟨rfl, run, hmem.1, rfl, hmem.2⟩

def Candidate (sources : CompletionSources) (verb argument : Text) : Prop :=
  if verb = run.name then argument = reservedRunList ∨ argument ∈ sources.workflows
  else verb ∈ runVerbs.map Verb.name ∧
    ∃ run ∈ sources.runs, run.runId = argument ∧ accepts verb run.status = true

theorem mem_argumentItems (h : argumentItems lower localeOrder verb typed sources = some items)
    (hi : item ∈ items) : item.value = verb ++ ' ' :: item.label ∧ Candidate sources verb item.label := by
  unfold argumentItems at h
  split_ifs at h with hrun hverb
  · obtain ⟨hvalue, hlabel⟩ := mem_workflowItems h hi
    refine ⟨hvalue, ?_⟩
    rw [Candidate, if_pos hrun]
    exact hlabel
  · obtain ⟨hvalue, hlabel⟩ := mem_runItems h hi
    refine ⟨hvalue, ?_⟩
    rw [Candidate, if_neg hrun]
    refine ⟨?_, hlabel⟩
    simpa only [runVerbs, List.map_cons, List.map_nil, List.mem_cons, List.not_mem_nil, or_false] using hverb

theorem complete_verb {verb : Verb} (h : verb ∈ verbs) :
    completeWorkflowArgument lower localeOrder (verb.name ++ [' ']) sources =
      argumentItems lower localeOrder verb.name [] sources := by
  have hspace : (verb.name ++ [' ']).getLast?.any isSpace = true := by
    rw [List.getLast?_concat]
    decide
  have htokens : tokensOf (verb.name ++ [' ']) = [verb.name] := by
    rw [tokensOf_append (oneWord_verb h)]
    rfl
  simp only [completeWorkflowArgument, settledOf, typedOf, hspace, htokens, if_true]

theorem offered_run (h : name ∈ sources.workflows) :
    ∃ items, completeWorkflowArgument lower localeOrder (run.name ++ [' ']) sources = some items ∧
      ({ value := run.name ++ ' ' :: name, label := name } : CompletionItem) ∈ items := by
  rw [complete_verb run_mem]
  simp only [argumentItems, if_true, workflowItems, matching, popup]
  rw [if_pos]
  · refine ⟨_, rfl, List.mem_map.mpr ⟨name, ?_, rfl⟩⟩
    rw [List.mem_eraseDups]
    exact List.mem_cons_of_mem _ (List.mem_mergeSort.mpr h)
  · have hmem : reservedRunList ∈ (reservedRunList :: sources.workflows.mergeSort
        (fun a b => decide (a.flatMap codeUnits ≤ b.flatMap codeUnits))).eraseDups :=
      List.mem_eraseDups.mpr List.mem_cons_self
    rw [List.length_map]
    exact List.length_pos_of_mem hmem

/-- A completed text reads as what it was offered for: a verb, ready for its arguments or complete
without one, or the command of its verb on one of the candidates. -/
def Understood (lower : Text → Text) (localeOrder : Text → Text → Bool) (sources : CompletionSources)
    (text : Text) (item : CompletionItem) : Prop :=
  match settledOf text with
  | [] => ∃ verb ∈ verbs, item.label = verb.name ∧
      if verb.takesArgument then
        completeWorkflowArgument lower localeOrder item.value sources =
          argumentItems lower localeOrder verb.name [] sources
      else dispatch item.value = if verb.name = create.name then .create else .list
  | verb :: _ => Candidate sources verb item.label ∧ dispatch item.value = commandOf verb item.label

theorem commandOf_run (h : name ≠ reservedRunList) : commandOf run.name name = .run name none := by
  rw [commandOf, if_pos rfl, if_neg h]

theorem understood_argument (hruns : ∀ run ∈ sources.runs, OneWord run.runId)
    (hnames : ∀ name ∈ sources.workflows, name = reservedRunList ∨ Typeable name)
    (hvalue : item.value = verb ++ ' ' :: item.label) (hc : Candidate sources verb item.label) :
    dispatch item.value = commandOf verb item.label := by
  rw [hvalue]
  unfold Candidate at hc
  split_ifs at hc with hrun
  · subst hrun
    by_cases hlist : item.label = reservedRunList
    · rw [hlist, dispatch_run_list, commandOf, if_pos rfl, if_pos rfl]
    · rw [commandOf_run hlist]
      have hname : Typeable item.label := by
        apply (hnames _ _).resolve_left hlist
        exact hc.resolve_left hlist
      exact dispatch_run_iff.mpr hname
  · obtain ⟨hverb, summary, hsummary, hid, _⟩ := hc
    obtain ⟨verb, hmem, rfl⟩ := List.mem_map.mp hverb
    rw [← hid]
    exact dispatch_ref hmem (hruns _ hsummary)

theorem understood_verb {verb : Verb} (hverb : verb ∈ verbs) (hlabel : item.label = verb.name)
    (hvalue : item.value = if verb.takesArgument then verb.name ++ [' '] else verb.name) :
    if verb.takesArgument then
      completeWorkflowArgument lower localeOrder item.value sources =
        argumentItems lower localeOrder verb.name [] sources
    else dispatch item.value = if verb.name = create.name then .create else .list := by
  by_cases htakes : verb.takesArgument = true
  · rw [if_pos htakes] at hvalue ⊢
    rw [hvalue]
    exact complete_verb hverb
  · rw [if_neg htakes] at hvalue ⊢
    rw [hvalue]
    apply dispatch_bare
    simp only [verbs, List.mem_cons, List.not_mem_nil, or_false] at hverb
    obtain rfl | rfl | rfl | rfl | rfl | rfl | rfl := hverb
    all_goals first | exact absurd rfl htakes | exact .inl rfl | exact .inr rfl

/-- Whatever is typed, every text that completion offers is read back as the command it was offered for,
exactly where each workflow's name is typeable or is the reserved word. -/
theorem completions_understood_iff (hruns : ∀ run ∈ sources.runs, OneWord run.runId) :
    (∀ text items, completeWorkflowArgument lower localeOrder text sources = some items →
      ∀ item ∈ items, Understood lower localeOrder sources text item) ↔
    ∀ name ∈ sources.workflows, name = reservedRunList ∨ Typeable name := by
  constructor
  · intro h name hname
    by_cases hlist : name = reservedRunList
    · exact .inl hlist
    have hoffered : ∃ items, completeWorkflowArgument lower localeOrder (run.name ++ [' ']) sources = some items ∧
        ({ value := run.name ++ ' ' :: name, label := name } : CompletionItem) ∈ items := offered_run hname
    obtain ⟨items, hitems, hitem⟩ := hoffered
    have hread := h _ _ hitems _ hitem
    have hsettled : settledOf (run.name ++ [' ']) = [run.name] := by decide
    rw [Understood, hsettled] at hread
    exact .inr (dispatch_run_iff.mp (hread.2.trans (commandOf_run hlist)))
  · intro hnames text items hitems item hitem
    unfold completeWorkflowArgument at hitems
    unfold Understood
    cases hsettled : settledOf text with
    | nil =>
      simp only [hsettled] at hitems
      obtain ⟨verb, hverb, hlabel, hvalue⟩ := mem_verbItems hitems hitem
      exact ⟨verb, hverb, hlabel, understood_verb hverb hlabel hvalue⟩
    | cons verb more =>
      simp only [hsettled] at hitems
      cases more with
      | nil =>
        obtain ⟨hvalue, hc⟩ := mem_argumentItems hitems hitem
        exact ⟨hc, understood_argument hruns hnames hvalue hc⟩
      | cons second more => simp at hitems

/-- Two workflows, one of them with a name of two words, and a blocked run. -/
def shelf : CompletionSources where
  workflows := ["release notes".toList, "list".toList]
  runs := [⟨"workflow-review-3f2a1c4b".toList, "review".toList, .blocked, "2026".toList, none⟩]

theorem typeable_notes : Typeable "release notes".toList := ⟨by decide, by decide, by decide, by decide⟩

theorem named_shelf : ∀ name ∈ shelf.workflows, name = reservedRunList ∨ Typeable name := by
  intro name hname
  simp only [shelf, List.mem_cons, List.not_mem_nil, or_false] at hname
  obtain rfl | rfl := hname
  · exact .inr typeable_notes
  · exact .inl rfl

theorem oneWord_shelf : ∀ run ∈ shelf.runs, OneWord run.runId := by
  intro run hrun
  simp only [shelf, List.mem_cons, List.not_mem_nil, or_false] at hrun
  subst hrun
  exact ⟨by simp, by simp [isSpace]⟩

theorem completions_understood_iff_shelf :
    (∀ name ∈ shelf.workflows, name = reservedRunList ∨ Typeable name) ∧
    ∀ text items,
      completeWorkflowArgument (List.map Char.toLower) (fun a b => decide (a ≤ b)) text shelf = some items →
      ∀ item ∈ items, Understood (List.map Char.toLower) (fun a b => decide (a ≤ b)) shelf text item :=
  ⟨named_shelf, (completions_understood_iff oneWord_shelf).mpr named_shelf⟩

/-- A file whose name begins with the reserved word is offered, and lists the runs. -/
example : dispatch (run.name ++ ' ' :: "list drafts".toList) = .listRuns := by decide

end Completing

end KimchiWorkflows.Host.Completions
