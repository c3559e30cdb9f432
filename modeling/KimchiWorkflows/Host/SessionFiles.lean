import KimchiWorkflows.Host.SessionNames
import KimchiWorkflows.Flow.Commit

namespace KimchiWorkflows.Host

open Words

/-- What a background subagent's session records: the executions of one key, or one attempt of a run. -/
inductive Conversation where
  | keyed (workflowName resumeKey : String)
  | trace (workflowName runId nodePath : String) (attempt : Nat)
  deriving DecidableEq

section Files

variable (hashOf : List Char → Nat → List Char)

def sessionFile : Conversation → List Char
  | .keyed workflowName resumeKey => resumeSessionFile hashOf workflowName resumeKey
  | .trace workflowName runId nodePath attempt => traceSessionFile hashOf workflowName runId nodePath attempt

def Minted : Conversation → Prop
  | .keyed _ _ => True
  | .trace workflowName runId _ _ => ∃ hex : List Char, hex.length = runHashLength ∧
      (∀ c ∈ hex, isHexDigit c = true) ∧ runId = candidateRunId hashOf workflowName hex

def workflowWords (workflowName : String) : List (List Char) := fileWords hashOf id workflowNameMax workflowName

def pathWords (path : String) : List (List Char) := fileWords hashOf flattenSeparator nodePathMax path

def keyWord : List Char := ['k', 'e', 'y']

def runWord : List Char := ['r', 'u', 'n']

def attemptWord (attempt : Nat) : List Char := 'a' :: (toString attempt).toList

/-- Two conversations are confused if their names are written alike, or if one workflow's name continues
the other's as far as the word that was to keep them apart. -/
inductive Confused : Conversation → Conversation → Prop where
  | keys {workflowName workflowName' key key' : String} :
      WrittenAlike hashOf id workflowNameMax workflowName workflowName' →
      WrittenAlike hashOf flattenSeparator nodePathMax key key' →
      Confused (.keyed workflowName key) (.keyed workflowName' key')
  | paths {workflowName workflowName' runId path path' : String} {attempt : Nat} :
      WrittenAlike hashOf id workflowNameMax workflowName workflowName' →
      WrittenAlike hashOf flattenSeparator nodePathMax path path' →
      Confused (.trace workflowName runId path attempt) (.trace workflowName' runId path' attempt)
  | keyWithin {workflowName workflowName' key key' : String} (middle : List (List Char)) :
      workflowWords hashOf workflowName' = workflowWords hashOf workflowName ++ keyWord :: middle →
      pathWords hashOf key = middle ++ keyWord :: pathWords hashOf key' →
      Confused (.keyed workflowName key) (.keyed workflowName' key')
  | runWithin {workflowName workflowName' runId runId' path path' : String} {attempt : Nat}
      (middle : List (List Char)) :
      workflowWords hashOf workflowName' = workflowWords hashOf workflowName ++ runWord :: runIdHash runId :: middle →
      pathWords hashOf path = middle ++ runWord :: runIdHash runId' :: pathWords hashOf path' →
      Confused (.trace workflowName runId path attempt) (.trace workflowName' runId' path' attempt)
  | traceWithinKey {workflowName workflowName' key runId path : String} {attempt : Nat}
      (middle : List (List Char)) :
      workflowWords hashOf workflowName' = workflowWords hashOf workflowName ++ keyWord :: middle →
      pathWords hashOf key =
        middle ++ runWord :: runIdHash runId :: (pathWords hashOf path ++ [attemptWord attempt]) →
      Confused (.keyed workflowName key) (.trace workflowName' runId path attempt)
  | keyWithinPath {workflowName workflowName' key runId path : String} {attempt : Nat}
      (middle keyed : List (List Char)) :
      workflowWords hashOf workflowName = workflowWords hashOf workflowName' ++ runWord :: runIdHash runId :: middle →
      pathWords hashOf key = keyed ++ [attemptWord attempt] →
      pathWords hashOf path = middle ++ keyWord :: keyed →
      Confused (.keyed workflowName key) (.trace workflowName' runId path attempt)

def stem : Conversation → List Char
  | .keyed workflowName resumeKey =>
    sanitizeWorkflowName hashOf workflowName ++ '-' :: (keyWord ++ '-' :: sanitizeNodePath hashOf resumeKey)
  | .trace workflowName runId nodePath attempt =>
    sanitizeWorkflowName hashOf workflowName ++ '-' :: (runWord ++ '-' :: (runIdHash runId ++
      '-' :: (sanitizeNodePath hashOf nodePath ++ '-' :: attemptWord attempt)))

def stemWords : Conversation → List (List Char)
  | .keyed workflowName resumeKey => workflowWords hashOf workflowName ++ keyWord :: pathWords hashOf resumeKey
  | .trace workflowName runId nodePath attempt => workflowWords hashOf workflowName ++
      runWord :: runIdHash runId :: (pathWords hashOf nodePath ++ [attemptWord attempt])

def names : Conversation → List String
  | .keyed workflowName resumeKey => [workflowName, resumeKey]
  | .trace workflowName _ nodePath _ => [workflowName, nodePath]

end Files

variable {hashOf : List Char → Nat → List Char} {workflowName workflowName' runId runId' path path' : String}
  {attempt attempt' : Nat} {c c' : Conversation}

theorem keyedFile_eq {start name infixed key ending : List Char} (h : infixed = '-' :: (keyWord ++ ['-'])) :
    start ++ name ++ infixed ++ key ++ ending = start ++ (name ++ '-' :: (keyWord ++ '-' :: key)) ++ ending := by
  subst h
  simp

theorem traceFile_eq {start name infixed run path mark digits ending : List Char}
    (h : infixed = '-' :: (runWord ++ ['-'])) (hm : mark = ['-', 'a']) :
    start ++ name ++ infixed ++ run ++ '-' :: path ++ mark ++ digits ++ ending =
      start ++ (name ++ '-' :: (runWord ++ '-' :: (run ++ '-' :: (path ++ '-' :: 'a' :: digits)))) ++ ending := by
  subst h hm
  simp

theorem sessionFile_eq (c : Conversation) :
    sessionFile hashOf c = "workflow-".toList ++ stem hashOf c ++ ".jsonl".toList := by
  cases c with
  | keyed workflowName resumeKey => exact keyedFile_eq rfl
  | trace workflowName runId path attempt => exact traceFile_eq rfl rfl

theorem dash_notMem_attemptWord (attempt : Nat) : '-' ∉ attemptWord attempt := by
  intro hm
  obtain hm | hm := List.mem_cons.mp hm
  · simp at hm
  · rw [show toString attempt = attempt.repr from rfl, Nat.toList_repr] at hm
    have := Nat.isDigit_of_mem_toDigits (by omega) (by omega) hm
    simp at this

theorem attemptWord_inj : attemptWord attempt = attemptWord attempt' ↔ attempt = attempt' := by
  constructor
  · intro h
    have hdigits : Nat.toDigits 10 attempt = Nat.toDigits 10 attempt' := by
      have := (List.cons.inj h).2
      simpa only [show ∀ n : Nat, toString n = n.repr from fun _ => rfl, Nat.toList_repr] using this
    rw [← Nat.ofDigitChars_ten_toDigits (n := attempt), hdigits, Nat.ofDigitChars_ten_toDigits]
  · rintro rfl
    rfl

theorem rtake_append_length (front back : List Char) : (front ++ back).rtake back.length = back := by
  simp [List.rtake]

theorem runIdHash_candidate {hex : List Char} (h : hex.length = runHashLength) (workflowName : String) :
    runIdHash (candidateRunId hashOf workflowName hex) = hex := by
  have hlist : (candidateRunId hashOf workflowName hex).toList =
      "workflow-".toList ++ sanitizeWorkflowName hashOf workflowName ++ ['-'] ++ hex :=
    String.toList_ofList.trans (List.append_cons _ _ _)
  rw [runIdHash, hlist, ← h]
  exact rtake_append_length _ _

theorem Minted.hash (h : Minted hashOf (.trace workflowName runId path attempt)) :
    (runIdHash runId).length = runHashLength ∧ '-' ∉ runIdHash runId := by
  obtain ⟨hex, hlength, hdigits, rfl⟩ := h
  rw [runIdHash_candidate hlength]
  refine ⟨hlength, ?_⟩
  intro hm
  have := hdigits _ hm
  simp [isHexDigit] at this

theorem splitOn_stem (h : HexHash hashOf) (hm : Minted hashOf c) : (stem hashOf c).splitOn '-' = stemWords hashOf c := by
  cases c with
  | keyed workflowName resumeKey =>
    rw [stem, List.splitOn_append_cons_self, List.splitOn_append_cons_self_of_not_mem (by decide),
      sanitizeWorkflowName_eq, sanitizeNodePath_eq, splitOn_sanitizeName h, splitOn_sanitizeName h]
    rfl
  | trace workflowName runId path attempt =>
    rw [stem, List.splitOn_append_cons_self, List.splitOn_append_cons_self_of_not_mem (by decide),
      List.splitOn_append_cons_self_of_not_mem hm.hash.2, List.splitOn_append_cons_self,
      List.splitOn_eq_singleton (dash_notMem_attemptWord attempt), sanitizeWorkflowName_eq, sanitizeNodePath_eq,
      splitOn_sanitizeName h, splitOn_sanitizeName h]
    rfl

theorem sessionFile_eq_iff_stemWords (h : HexHash hashOf) (hm : Minted hashOf c) (hm' : Minted hashOf c') :
    sessionFile hashOf c = sessionFile hashOf c' ↔ stemWords hashOf c = stemWords hashOf c' := by
  rw [sessionFile_eq, sessionFile_eq, List.append_cancel_right_eq, List.append_cancel_left_eq,
    ← splitOn_stem h hm, ← splitOn_stem h hm', splitOn_inj]

/-- The names of two conversations that a hash would have to tell apart, and does. -/
def NoCollision (hashOf : List Char → Nat → List Char) (c c' : Conversation) : Prop :=
  ∀ name ∈ names c, ∀ name' ∈ names c',
    hashOf name.toList nameHashLength = hashOf name'.toList nameHashLength → name = name'

theorem workflowWords_eq_iff (h : HexHash hashOf)
    (hinj : hashOf workflowName.toList nameHashLength = hashOf workflowName'.toList nameHashLength →
      workflowName = workflowName') :
    workflowWords hashOf workflowName = workflowWords hashOf workflowName' ↔
      WrittenAlike hashOf id workflowNameMax workflowName workflowName' :=
  (fileWords_inj h).trans (sanitizeName_eq_iff h (by decide) hinj)

theorem pathWords_eq_iff (h : HexHash hashOf)
    (hinj : hashOf path.toList nameHashLength = hashOf path'.toList nameHashLength → path = path') :
    pathWords hashOf path = pathWords hashOf path' ↔ WrittenAlike hashOf flattenSeparator nodePathMax path path' :=
  (fileWords_inj h).trans (sanitizeName_eq_iff h (by decide) hinj)

theorem Minted.ne_word (h : Minted hashOf (.trace workflowName runId path attempt)) :
    runIdHash runId ≠ runWord ∧ runIdHash runId ≠ keyWord := by
  have := h.hash.1
  constructor <;>
  · intro he
    simp [he, runWord, keyWord, runHashLength] at this

theorem Minted.runId_eq (h : Minted hashOf (.trace workflowName runId path attempt))
    (h' : Minted hashOf (.trace workflowName' runId' path' attempt'))
    (hname : sanitizeWorkflowName hashOf workflowName = sanitizeWorkflowName hashOf workflowName')
    (hhash : runIdHash runId = runIdHash runId') : runId = runId' := by
  obtain ⟨hex, hlength, -, hr⟩ := h
  obtain ⟨hex', hlength', -, hr'⟩ := h'
  have hhex : hex = hex' := by
    have hfirst : runIdHash (candidateRunId hashOf workflowName hex) = hex := runIdHash_candidate hlength workflowName
    have hsecond : runIdHash (candidateRunId hashOf workflowName' hex') = hex' :=
      runIdHash_candidate hlength' workflowName'
    rw [← hr] at hfirst
    rw [← hr'] at hsecond
    exact hfirst.symm.trans (hhash.trans hsecond)
  subst hhex
  refine hr.trans (Eq.trans ?_ hr'.symm)
  unfold candidateRunId
  rw [hname]

theorem confused_of_keyed {key key' : String} (h : HexHash hashOf)
    (hn : NoCollision hashOf (.keyed workflowName key) (.keyed workflowName' key'))
    (he : stemWords hashOf (.keyed workflowName key) = stemWords hashOf (.keyed workflowName' key')) :
    Confused hashOf (.keyed workflowName key) (.keyed workflowName' key') ∨
      Confused hashOf (.keyed workflowName' key') (.keyed workflowName key) := by
  obtain ⟨hw, -, hk⟩ | ⟨middle, hw, hk⟩ | ⟨middle, hw, hk⟩ := append_cons_eq_iff.mp he
  · refine .inl (.keys ?_ ?_)
    · exact (workflowWords_eq_iff h (hn _ (by simp [names]) _ (by simp [names]))).mp hw
    · exact (pathWords_eq_iff h (hn _ (by simp [names]) _ (by simp [names]))).mp hk
  · exact .inl (.keyWithin middle hw hk)
  · exact .inr (.keyWithin middle hw hk)

theorem split_run {hash hash' mark mark' : List Char} {before after middle : List (List Char)}
    (hne : hash ≠ runWord) (he : hash :: (before ++ [mark]) = middle ++ runWord :: hash' :: (after ++ [mark'])) :
    ∃ rest, middle = hash :: rest ∧ before = rest ++ runWord :: hash' :: after ∧ mark = mark' := by
  cases middle with
  | nil => exact absurd (List.cons.inj he).1 hne
  | cons first rest =>
    obtain ⟨rfl, hrest⟩ := List.cons.inj he
    have hsnoc : before ++ [mark] = (rest ++ runWord :: hash' :: after) ++ [mark'] := by simpa using hrest
    obtain ⟨rfl, hmark⟩ := List.append_inj' hsnoc rfl
    exact ⟨rest, rfl, rfl, (List.cons.inj hmark).1⟩

theorem confused_of_trace (h : HexHash hashOf)
    (hm : Minted hashOf (.trace workflowName runId path attempt))
    (hm' : Minted hashOf (.trace workflowName' runId' path' attempt'))
    (hn : NoCollision hashOf (.trace workflowName runId path attempt) (.trace workflowName' runId' path' attempt'))
    (he : stemWords hashOf (.trace workflowName runId path attempt) =
      stemWords hashOf (.trace workflowName' runId' path' attempt')) :
    Confused hashOf (.trace workflowName runId path attempt) (.trace workflowName' runId' path' attempt') ∨
      Confused hashOf (.trace workflowName' runId' path' attempt') (.trace workflowName runId path attempt) := by
  obtain ⟨hw, -, hr⟩ | ⟨middle, hw, hr⟩ | ⟨middle, hw, hr⟩ := append_cons_eq_iff.mp he
  · obtain ⟨hhash, hrest⟩ := List.cons.inj hr
    obtain ⟨hp, hmark⟩ := List.append_inj' hrest rfl
    obtain rfl := attemptWord_inj.mp (List.cons.inj hmark).1
    have hsame : sanitizeWorkflowName hashOf workflowName = sanitizeWorkflowName hashOf workflowName' := by
      rw [sanitizeWorkflowName_eq, sanitizeWorkflowName_eq]
      exact (fileWords_inj h).mp hw
    obtain rfl := hm.runId_eq hm' hsame hhash
    refine .inl (.paths ?_ ?_)
    · exact (workflowWords_eq_iff h (hn _ (by simp [names]) _ (by simp [names]))).mp hw
    · exact (pathWords_eq_iff h (hn _ (by simp [names]) _ (by simp [names]))).mp hp
  · obtain ⟨rest, rfl, hp, hmark⟩ := split_run hm.ne_word.1 hr
    obtain rfl := attemptWord_inj.mp hmark
    exact .inl (.runWithin rest hw hp)
  · obtain ⟨rest, rfl, hp, hmark⟩ := split_run hm'.ne_word.1 hr
    obtain rfl := attemptWord_inj.mp hmark
    exact .inr (.runWithin rest hw hp)

theorem confused_of_mixed {key : String} (h : HexHash hashOf)
    (hm : Minted hashOf (.trace workflowName' runId path attempt))
    (he : stemWords hashOf (.keyed workflowName key) = stemWords hashOf (.trace workflowName' runId path attempt)) :
    Confused hashOf (.keyed workflowName key) (.trace workflowName' runId path attempt) := by
  obtain ⟨-, hmark, -⟩ | ⟨middle, hw, hk⟩ | ⟨middle, hw, hr⟩ := append_cons_eq_iff.mp he
  · exact absurd hmark (by decide)
  · exact .traceWithinKey middle hw hk
  · cases middle with
    | nil => exact absurd (List.cons.inj hr).1 hm.ne_word.2
    | cons first rest =>
      obtain ⟨rfl, hrest⟩ := List.cons.inj hr
      have hne : pathWords hashOf key ≠ [] := fileWords_ne_nil h
      have hlast := List.dropLast_concat_getLast hne
      have hsnoc : pathWords hashOf path ++ [attemptWord attempt] =
          (rest ++ keyWord :: (pathWords hashOf key).dropLast) ++ [(pathWords hashOf key).getLast hne] := by
        rw [List.append_assoc, List.cons_append, hlast]
        exact hrest
      obtain ⟨hp, hend⟩ := List.append_inj' hsnoc rfl
      refine .keyWithinPath rest _ hw ?_ hp
      rw [(List.cons.inj hend).1, hlast]

theorem stemWords_of_confused (h : HexHash hashOf) (hn : NoCollision hashOf c c') (hc : Confused hashOf c c') :
    stemWords hashOf c = stemWords hashOf c' := by
  cases hc with
  | keys hw hk =>
    rw [stemWords, stemWords, (workflowWords_eq_iff h (hn _ (by simp [names]) _ (by simp [names]))).mpr hw,
      (pathWords_eq_iff h (hn _ (by simp [names]) _ (by simp [names]))).mpr hk]
  | paths hw hp =>
    rw [stemWords, stemWords, (workflowWords_eq_iff h (hn _ (by simp [names]) _ (by simp [names]))).mpr hw,
      (pathWords_eq_iff h (hn _ (by simp [names]) _ (by simp [names]))).mpr hp]
  | keyWithin middle hw hk => simp [stemWords, hw, hk]
  | runWithin middle hw hp => simp [stemWords, hw, hp]
  | traceWithinKey middle hw hk => simp [stemWords, hw, hk]
  | keyWithinPath middle keyed hw hk hp => simp [stemWords, hw, hk, hp]

theorem NoCollision.symm (h : NoCollision hashOf c c') : NoCollision hashOf c' c :=
  fun name hm name' hm' he => (h name' hm' name hm he.symm).symm

theorem confused_iff_sessionFile (h : HexHash hashOf) (hm : Minted hashOf c) (hm' : Minted hashOf c')
    (hn : NoCollision hashOf c c') :
    sessionFile hashOf c = sessionFile hashOf c' ↔ Confused hashOf c c' ∨ Confused hashOf c' c := by
  rw [sessionFile_eq_iff_stemWords h hm hm']
  constructor
  · intro he
    cases c with
    | keyed workflowName key =>
      cases c' with
      | keyed workflowName' key' => exact confused_of_keyed h hn he
      | trace workflowName' runId path attempt => exact .inl (confused_of_mixed h hm' he)
    | trace workflowName runId path attempt =>
      cases c' with
      | keyed workflowName' key => exact .inr (confused_of_mixed h hm he.symm)
      | trace workflowName' runId' path' attempt' => exact confused_of_trace h hm hm' hn he
  · rintro (hc | hc)
    · exact stemWords_of_confused h hn hc
    · exact (stemWords_of_confused h hn.symm hc).symm

end KimchiWorkflows.Host

namespace KimchiWorkflows.Host

variable {hashOf : List Char → Nat → List Char} {c c' : Conversation}

/-- Distinct conversations have distinct files as long as their names are not confused. -/
theorem sessionFiles_distinct_iff (hash : HexHash hashOf) (hm : Minted hashOf c) (hm' : Minted hashOf c')
    (hn : NoCollision hashOf c c') :
    (c ≠ c' → sessionFile hashOf c ≠ sessionFile hashOf c') ↔
      (c ≠ c' → ¬(Confused hashOf c c' ∨ Confused hashOf c' c)) := by
  have he := not_congr (confused_iff_sessionFile hash hm hm' hn)
  exact ⟨fun h hne => he.mp (h hne), fun h hne => he.mpr (h hne)⟩

def sampleHash (raw : List Char) (length : Nat) : List Char :=
  (if raw = ['w', 'f'] then ['5', '5', 'c', 'f', '1', '7']
    else if raw = ['A'] then ['5', '5', '9', 'a', 'e', 'a']
    else if raw = ['b'] then ['3', 'e', '2', '3', 'e', '8']
    else ['c', 'a', '9', '7', '8', '1']).take length

theorem hexHash_sampleHash : HexHash sampleHash := by
  intro raw
  unfold sampleHash
  split
  · exact ⟨rfl, List.all_eq_true.mp (by decide)⟩
  · split
    · exact ⟨rfl, List.all_eq_true.mp (by decide)⟩
    · split <;> exact ⟨rfl, List.all_eq_true.mp (by decide)⟩

theorem sessionFiles_distinct_iff_keys :
    (Conversation.keyed "wf" "A" ≠ .keyed "wf" "b" →
      sessionFile sampleHash (.keyed "wf" "A") ≠ sessionFile sampleHash (.keyed "wf" "b")) ↔
      (Conversation.keyed "wf" "A" ≠ .keyed "wf" "b" →
        ¬(Confused sampleHash (.keyed "wf" "A") (.keyed "wf" "b") ∨
          Confused sampleHash (.keyed "wf" "b") (.keyed "wf" "A"))) := by
  refine sessionFiles_distinct_iff hexHash_sampleHash trivial trivial ?_
  intro name hm name' hm' he
  simp only [names, List.mem_cons, List.not_mem_nil, or_false] at hm hm'
  obtain rfl | rfl := hm <;> obtain rfl | rfl := hm' <;> revert he <;> decide

theorem minted_sample (path : String) : Minted sampleHash (.trace "wf" "workflow-wf-1a2b3c4d" path 1) :=
  ⟨['1', 'a', '2', 'b', '3', 'c', '4', 'd'], rfl, List.all_eq_true.mp (by decide), by decide +kernel⟩

/-- Two keys that differ in case, two paths of which one writes an index, and a trace that reads as a key. -/
theorem sessionFiles_confused :
    (Flow.isValidNodeName "A" = true ∧ Flow.isValidNodeName "a" = true ∧
      sessionFile sampleHash (.keyed "wf" "A") = sessionFile sampleHash (.keyed "wf" "a")) ∧
    (Minted sampleHash (.trace "wf" "workflow-wf-1a2b3c4d" "x#1/y" 1) ∧
      Minted sampleHash (.trace "wf" "workflow-wf-1a2b3c4d" "x-1.y" 1) ∧
      sessionFile sampleHash (.trace "wf" "workflow-wf-1a2b3c4d" "x#1/y" 1) =
        sessionFile sampleHash (.trace "wf" "workflow-wf-1a2b3c4d" "x-1.y" 1)) ∧
    (Flow.isValidNodeName "y-a1" = true ∧ Minted sampleHash (.trace "wf" "workflow-wf-1a2b3c4d" "x-key-y" 1) ∧
      sessionFile sampleHash (.keyed "wf-run-1a2b3c4d-x" "y-a1") =
        sessionFile sampleHash (.trace "wf" "workflow-wf-1a2b3c4d" "x-key-y" 1)) := by
  refine ⟨⟨by decide, by decide, by decide +kernel⟩, ⟨minted_sample _, minted_sample _, by decide +kernel⟩,
    by decide, minted_sample _, by decide +kernel⟩

end KimchiWorkflows.Host
