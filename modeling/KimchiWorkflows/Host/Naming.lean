import Mathlib.Data.List.DropRight

namespace KimchiWorkflows.Host

def workflowNameMax : Nat := 40

def nodePathMax : Nat := 120

def nameHashLength : Nat := 6

def runHashLength : Nat := 8

/-- Lower case, as far as the characters a file name keeps are concerned. -/
def toLowerCase (c : Char) : List Char :=
  if c = Char.ofNat 0x212A then ['k']
  else if c = Char.ofNat 0x0130 then ['i', Char.ofNat 0x0307]
  else [c.toLower]

def isSegmentChar (c : Char) : Bool := c.isLower || c.isDigit || c = '.' || c = '_' || c = '-'

def dashRuns (replaced : Char → Bool) : List Char → List Char
  | [] => []
  | c :: rest =>
    if replaced c then
      if rest.head?.any replaced then dashRuns replaced rest else '-' :: dashRuns replaced rest
    else c :: dashRuns replaced rest

def sanitizeSegment (raw : List Char) : List Char :=
  let lowered := raw.flatMap toLowerCase
  ((dashRuns (· = '-') (dashRuns (fun c => !isSegmentChar c) lowered)).dropWhile (· = '-')).rdropWhile (· = '-')

section Hash

-- the first characters of the SHA-256 of a name, in hexadecimal
variable (hashOf : List Char → Nat → List Char)

def orHash (sanitized raw : List Char) : List Char :=
  if sanitized = [] then hashOf raw nameHashLength else sanitized

def capWithHash (sanitized raw : List Char) (max : Nat) : List Char :=
  if sanitized.length ≤ max then sanitized
  else (sanitized.take max).rdropWhile (· = '-') ++ '-' :: hashOf raw nameHashLength

def sanitizeWorkflowName (identity : String) : List Char :=
  capWithHash hashOf (orHash hashOf (sanitizeSegment identity.toList) identity.toList) identity.toList workflowNameMax

def flattenSeparator (c : Char) : Char :=
  if c = '/' then '.' else if c = '#' || c = '@' then '-' else c

def sanitizeNodePath (nodePath : String) : List Char :=
  let flattened := nodePath.toList.map flattenSeparator
  capWithHash hashOf (orHash hashOf (sanitizeSegment flattened) nodePath.toList) nodePath.toList nodePathMax

def resumeSessionFile (workflowName resumeKey : String) : List Char :=
  "workflow-".toList ++ sanitizeWorkflowName hashOf workflowName ++ "-key-".toList ++
    sanitizeNodePath hashOf resumeKey ++ ".jsonl".toList

def runIdHash (runId : String) : List Char := runId.toList.rtake runHashLength

/-- A run id that is tried for a workflow, with random hexadecimal digits. -/
def candidateRunId (workflowIdentity : String) (hex : List Char) : String :=
  String.ofList ("workflow-".toList ++ sanitizeWorkflowName hashOf workflowIdentity ++ '-' :: hex)

/-- The session file of a step's attempt that no other execution continues. -/
def traceSessionFile (workflowName runId nodePath : String) (attempt : Nat) : List Char :=
  "workflow-".toList ++ sanitizeWorkflowName hashOf workflowName ++ "-run-".toList ++ runIdHash runId ++
    '-' :: sanitizeNodePath hashOf nodePath ++ "-a".toList ++ (toString attempt).toList ++ ".jsonl".toList

theorem resumeSessionFile_inj {workflowName key key' : String} :
    resumeSessionFile hashOf workflowName key = resumeSessionFile hashOf workflowName key' ↔
      sanitizeNodePath hashOf key = sanitizeNodePath hashOf key' := by
  unfold resumeSessionFile
  constructor
  · exact fun h => List.append_cancel_left (List.append_cancel_right h)
  · exact fun h => by rw [h]

end Hash

end KimchiWorkflows.Host
