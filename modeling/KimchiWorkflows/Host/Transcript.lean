import KimchiWorkflows.Host.AgentMessages
import KimchiWorkflows.Host.RunLog
import KimchiWorkflows.Flow.Questionnaire

/-!
What is read from the output of a subagent: from its lines as they arrive, and from the whole of it.
-/

namespace KimchiWorkflows.Host.Transcript

open Json KimchiWorkflows.Engine KimchiWorkflows.Engine.StepRunner

structure Runtime where
  parse : Text → Option Value
  numberText : Numeral → Text
  isZero : Numeral → Bool

structure SubmittedCall where
  tool : Text
  arguments : Value

/-- The last of a name's values counts; only an object has members under these names. -/
def member (value : Value) (name : String) : Option Value :=
  match value with
  | .object members => (members.reverse.find? (·.1 = name.toList)).map Prod.snd
  | _ => none

def memberText (value : Value) (name : String) : Option Text :=
  match member value name with
  | some (.string text) => some text
  | _ => none

def isAssistantMessage (value : Value) : Bool := memberText value "role" = some "assistant".toList

section Conversion

variable (js : Runtime)

def truthy : Value → Bool
  | .null => false
  | .bool b => b
  | .number literal => !js.isZero literal
  | .string text => text ≠ []
  | .array _ => true
  | .object _ => true

mutual

/-- A value added to a text; an object with a member for its own conversion cannot be. -/
def textOf : Value → Option Text
  | .null => some "null".toList
  | .bool b => some (toString b).toList
  | .number literal => some (js.numberText literal)
  | .string text => some text
  | .array items => textOfItems items
  | .object members =>
    if members.any (·.1 = "toString".toList) then none else some "[object Object]".toList

def textOfItems : List Value → Option Text
  | [] => some []
  | .null :: rest => textOfMore rest
  | item :: rest => (textOf item).bind (fun text => (textOfMore rest).map (text ++ ·))

def textOfMore : List Value → Option Text
  | [] => some []
  | .null :: rest => (textOfMore rest).map (',' :: ·)
  | item :: rest => (textOf item).bind (fun text => (textOfMore rest).map (fun more => ',' :: (text ++ more)))

end

def partText (part : Value) : Option Text :=
  match member part "text" with
  | some text => if memberText part "type" = some "text".toList ∧ truthy js text then textOf js text else some []
  | none => some []

def messageText (message : Value) : Option Text :=
  match member message "content" with
  | some (.array parts) => (parts.mapM (partText js)).map List.flatten
  | _ => some []

def messageUsage (message : Value) : Option Numeral :=
  match (member message "usage").bind (member · "totalTokens") with
  | some (.number total) => some total
  | _ => none

def isOutputToolName (name : Text) : Bool := name = submitResultTool.toList || name = submitQuestionsTool.toList

def toArguments : Option Value → Value
  | some (.object members) => .object members
  | some (.array items) => .array items
  | some (.string text) =>
    match js.parse text with
    | some (.object members) => .object members
    | some (.array items) => .array items
    | _ => .object []
  | _ => .object []

def submittedInPart (part : Value) : Option SubmittedCall :=
  match memberText part "name" with
  | some name =>
    if memberText part "type" = some "toolCall".toList ∧ isOutputToolName name then
      some { tool := name, arguments := toArguments js (member part "arguments") }
    else none
  | none => none

def submittedFromMessage (message : Value) : Option SubmittedCall :=
  if isAssistantMessage message then
    match member message "content" with
    | some (.array parts) => parts.reverse.findSome? (submittedInPart js)
    | _ => none
  else none

def errorFromMessage (message : Value) : Option AgentTurnError :=
  if isAssistantMessage message ∧ memberText message "stopReason" = some "error".toList then
    let raw := String.ofList ((memberText message "errorMessage").getD [])
    some { kind := classifyAgentError raw
           message := if raw = "" then "the provider reported an error with no message" else raw }
  else none

def lastAssistant (messages : List Value) : Option Value := messages.reverse.find? isAssistantMessage

/-- None stands for the exception of a text that cannot be converted. -/
def lastAssistantText (messages : List Value) : Option Text :=
  match lastAssistant messages with
  | some message => messageText js message
  | none => some []

def lastAssistantUsage (messages : List Value) : Option Numeral := (lastAssistant messages).bind messageUsage

def lastSubmittedOutput (messages : List Value) : Option SubmittedCall :=
  messages.reverse.findSome? (submittedFromMessage js)

def lastAssistantError (messages : List Value) : Option AgentTurnError :=
  (lastAssistant messages).bind errorFromMessage

def messageOfLine (line : Text) : Option Value :=
  if Flow.trimSpacing line = [] then none
  else (js.parse (Flow.trimSpacing line)).bind (fun event =>
    if memberText event "type" = some "message_end".toList then member event "message" else none)

def parseNdjsonMessages (ndjson : Text) : List Value := (splitLines ndjson).filterMap (messageOfLine js)

structure ReadAssistantTurn where
  text : Text
  usage : Option Numeral
  submitted : Option SubmittedCall
  error : Option AgentTurnError

def turnOf (messages : List Value) : Option ReadAssistantTurn :=
  (lastAssistantText js messages).map (fun text =>
    { text := text
      usage := lastAssistantUsage messages
      submitted := lastSubmittedOutput js messages
      error := lastAssistantError messages })

def readWhole (ndjson : Text) : Option ReadAssistantTurn := turnOf js (parseNdjsonMessages js ndjson)

structure Registers where
  last : Option (Text × Option Numeral) := none
  submitted : Option SubmittedCall := none
  error : Option AgentTurnError := none

structure Reader where
  pending : Text := []
  registers : Registers := {}

/-- A message with neither text nor usage leaves the last turn as it was. -/
def lastAfter (last : Option (Text × Option Numeral)) (text : Text) (usage : Option Numeral) :
    Option (Text × Option Numeral) :=
  if text ≠ [] then some (text, usage) else if usage.isSome then some ([], usage) else last

def readMessage (registers : Registers) (message : Value) : Option Registers :=
  if isAssistantMessage message then
    (lastAssistantText js [message]).map (fun text =>
      { last := lastAfter registers.last text (lastAssistantUsage [message])
        submitted := (submittedFromMessage js message).or registers.submitted
        error := errorFromMessage message })
  else some registers

def readLine (registers : Registers) (line : Text) : Option Registers :=
  match messageOfLine js line with
  | some message => readMessage js registers message
  | none => some registers

def push (reader : Reader) (chunk : Text) : Option Reader :=
  ((splitLines (reader.pending ++ chunk)).dropLast.foldlM (readLine js) reader.registers).map (fun registers =>
    { pending := (splitLines (reader.pending ++ chunk)).getLastD [], registers := registers })

def Registers.turn (registers : Registers) : ReadAssistantTurn where
  text := (registers.last.map Prod.fst).getD []
  usage := registers.last.bind Prod.snd
  submitted := registers.submitted
  error := registers.error

def finish (reader : Reader) : Option ReadAssistantTurn :=
  if reader.pending = [] then some reader.registers.turn
  else (readLine js reader.registers reader.pending).map Registers.turn

/-- The turn read from chunks; none stands for an exception on the way. -/
def readChunks (chunks : List Text) : Option ReadAssistantTurn :=
  (chunks.foldlM (push js) {}).bind (finish js)

end Conversion

end KimchiWorkflows.Host.Transcript
