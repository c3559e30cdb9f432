import KimchiWorkflows.Host.AnswerAssembly
import KimchiWorkflows.Lib.Stepping

/-!
The rich questionnaire form: a page for each question and, after several of them, a Submit page.
-/

namespace KimchiWorkflows.Host

open KimchiWorkflows.Flow

inductive Delta where
  | backward
  | forward
  deriving DecidableEq

def Delta.moved : Delta → Nat → Nat
  | .backward, page => page - 1
  | .forward, page => page + 1

inductive FormEvent where
  | keyUp
  | keyDown
  | navigate (delta : Delta) (text : Option String)
  | keyEnter
  | keyEscape
  | keySpace
  | editorSubmit (value : String)
  deriving DecidableEq

inductive FormEffect where
  | render
  | editorSetText (text : String)
  | done (cancelled : Bool)
  deriving DecidableEq

structure FormState where
  questionnaire : Questionnaire
  currentPage : Nat
  optionIndex : Nat
  inputMode : Bool
  answers : RawSelections

structure FormTransition where
  state : FormState
  effects : List FormEffect

structure RenderOption extends QuestionOption where
  isOther : Bool := false

def otherLabel : String := "Other…"

def isText (question : Question) : Bool :=
  match question.kind with
  | .text | .chat => true
  | .single | .multi => false

def isTextQuestion (question : Option Question) : Bool := question.any isText

def initialFormState (questionnaire : Questionnaire) : FormState where
  questionnaire := questionnaire
  currentPage := 0
  optionIndex := 0
  inputMode := isTextQuestion questionnaire.questions[0]?
  answers := []

def currentFormQuestion (state : FormState) : Option Question :=
  state.questionnaire.questions[state.currentPage]?

def hasOther (question : Question) : Bool := question.kind = .single && question.allowOther = some true

def optionsOf (question : Question) : List RenderOption :=
  if isText question then []
  else (orderedOptions question).map ({ toQuestionOption := · }) ++
    if hasOther question then [{ value := otherValue, label := otherLabel, isOther := true }] else []

def currentFormOptions (state : FormState) : List RenderOption :=
  (currentFormQuestion state).elim [] optionsOf

def isMultiPage (state : FormState) : Bool := 1 < state.questionnaire.questions.length

def isSubmitPage (state : FormState) : Bool :=
  isMultiPage state && state.currentPage = state.questionnaire.questions.length

def allQuestionsAnswered (state : FormState) : Bool :=
  state.questionnaire.questions.all (fun question => Dict.has state.answers question.key)

def formAnswers (state : FormState) : Record :=
  assembleAnswers state.questionnaire.questions state.answers

def withAnswer (state : FormState) (key : String) (selection : RawSelection) : FormState :=
  { state with answers := Dict.set state.answers key selection }

def answerText (state : FormState) (question : Question) : String :=
  ((Dict.get state.answers question.key).bind RawSelection.text).getD ""

def enterTextMode (state : FormState) (question : Question) : FormTransition where
  state := { state with inputMode := true }
  effects := [.editorSetText (answerText state question), .render]

def enterPage (state : FormState) (page : Nat) : FormTransition :=
  let question := state.questionnaire.questions[page]?
  { state := { state with currentPage := page, optionIndex := 0, inputMode := isTextQuestion question }
    effects := ((question.filter isText).elim [] (fun question => [.editorSetText (answerText state question)])) ++
      [.render] }

def navigate (state : FormState) (delta : Delta) : FormTransition :=
  let page := min state.questionnaire.questions.length (delta.moved state.currentPage)
  if page = state.currentPage then { state := state, effects := [] } else enterPage state page

def advanceAfterAnswer (state : FormState) (effects : List FormEffect) : FormTransition :=
  if isMultiPage state then
    let lastQuestion := state.questionnaire.questions.length - 1
    let page := if state.currentPage < lastQuestion then state.currentPage + 1
      else state.questionnaire.questions.length
    let transition := enterPage state page
    { state := transition.state, effects := effects ++ transition.effects }
  else { state := state, effects := effects ++ [.done false] }

def typedSelection (question : Question) (text : String) : RawSelection :=
  if question.kind = .single then { option := some otherValue, text := some text } else { text := some text }

def toggle (selected : List String) (value : String) : List String :=
  if value ∈ selected then selected.filter (· ≠ value) else selected ++ [value]

def reduceEditor (state : FormState) : FormEvent → FormTransition
  | .keyEscape => { state := { state with inputMode := false }, effects := [.editorSetText "", .render] }
  | _ => { state := state, effects := [] }

def reduceSubmitPage (state : FormState) : FormEvent → FormTransition
  | .keyEnter => { state := state, effects := if allQuestionsAnswered state then [.done false] else [] }
  | .keyEscape => { state := state, effects := [.done true] }
  | _ => { state := state, effects := [] }

def reduceText (state : FormState) (question : Question) : FormEvent → FormTransition
  | .keyEnter => enterTextMode state question
  | .keyEscape => { state := state, effects := [.done true] }
  | _ => { state := state, effects := [] }

def toggleOption (state : FormState) (question : Question) (option : RenderOption) : FormTransition :=
  let selected := ((Dict.get state.answers question.key).bind RawSelection.options).getD []
  { state := withAnswer state question.key { options := some (toggle selected option.value) }
    effects := [.render] }

def confirmMulti (state : FormState) (question : Question) : FormTransition :=
  advanceAfterAnswer (withAnswer state question.key
    ((Dict.get state.answers question.key).getD { options := some [] })) []

def chooseOption (state : FormState) (question : Question) (option : RenderOption) : FormTransition :=
  if option.isOther then enterTextMode state question
  else advanceAfterAnswer (withAnswer state question.key { option := some option.value }) []

def reduceChoice (state : FormState) (question : Question) : FormEvent → FormTransition
  | .keyUp => { state := { state with optionIndex := state.optionIndex - 1 }, effects := [.render] }
  | .keyDown =>
    { state := { state with optionIndex := min ((optionsOf question).length - 1) (state.optionIndex + 1) }
      effects := [.render] }
  | .keySpace =>
    if question.kind = .multi then
      (optionsOf question)[state.optionIndex]?.elim { state := state, effects := [] } (toggleOption state question)
    else { state := state, effects := [] }
  | .keyEnter =>
    if question.kind = .multi then confirmMulti state question
    else (optionsOf question)[state.optionIndex]?.elim { state := state, effects := [] }
      (chooseOption state question)
  | .keyEscape => { state := state, effects := [.done true] }
  | _ => { state := state, effects := [] }

def reduceKey (state : FormState) (event : FormEvent) : FormTransition :=
  if state.inputMode then reduceEditor state event
  else if isSubmitPage state then reduceSubmitPage state event
  else (currentFormQuestion state).elim { state := state, effects := [] } (fun question =>
    if isText question then reduceText state question event else reduceChoice state question event)

def keepText (state : FormState) (text : String) : FormState :=
  (currentFormQuestion state).elim state (fun question =>
    withAnswer state question.key (typedSelection question text))

def reduceForm (state : FormState) : FormEvent → FormTransition
  | .navigate delta text =>
    if isMultiPage state then navigate (text.elim state (keepText state)) delta
    else { state := state, effects := [] }
  | .editorSubmit value =>
    if (currentFormQuestion state).isSome then
      advanceAfterAnswer { keepText state value with inputMode := false } [.editorSetText ""]
    else { state := state, effects := [] }
  | event => reduceKey state event

/-- What the component can pass on from a key or from its editor, which may hold any text. -/
def Dispatches (state : FormState) : FormEvent → Bool
  | .navigate delta text =>
    if state.inputMode then
      isMultiPage state && text.isSome && match delta with
        | .backward => decide (0 < state.currentPage)
        | .forward => decide (state.currentPage < state.questionnaire.questions.length)
    else text.isNone
  | .editorSubmit _ => state.inputMode
  | .keyEscape => true
  | _ => !state.inputMode

def dispatch (state : FormState) (event : FormEvent) : Option FormState :=
  if Dispatches state event then some (reduceForm state event).state else none

/-- The form goes on: neither answers nor a cancellation have been handed over. -/
def Open (state : FormState) (event : FormEvent) : Prop :=
  ∀ cancelled, .done cancelled ∉ (reduceForm state event).effects

def Finishes (state : FormState) (event : FormEvent) : Prop :=
  Dispatches state event = true ∧ .done false ∈ (reduceForm state event).effects

def answerable (question : Question) : Bool :=
  question.kind ≠ .single || !(question.options.getD []).isEmpty || question.allowOther = some true

def Completable (questionnaire : Questionnaire) : Prop :=
  ∀ question ∈ questionnaire.questions, ∃ other ∈ questionnaire.questions,
    other.key = question.key ∧ answerable other = true

end KimchiWorkflows.Host
