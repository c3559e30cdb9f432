import KimchiWorkflows.Engine.StepNodes
import KimchiWorkflows.Flow.Questionnaire
import Mathlib.Data.List.Sort

/-!
What a renderer captures for each question of a batch, and the answers assembled from it.
-/

namespace KimchiWorkflows.Host

open KimchiWorkflows.Flow KimchiWorkflows.Engine

def otherValue : String := "__other__"

structure RawSelection where
  option : Option String := none
  options : Option (List String) := none
  text : Option String := none

abbrev RawSelections := List (String × RawSelection)

def assembleOne (question : Question) (selection : RawSelection) : Value :=
  match question.kind with
  | .single =>
    if selection.option = some otherValue then .string (selection.text.getD "")
    else .string (selection.option.getD "")
  | .multi => .array ((selection.options.getD []).map .string)
  | .text => .string (selection.text.getD "")
  | .chat => .string (selection.text.getD "")

def assembleAnswers (questions : List Question) (raw : RawSelections) : Record :=
  questions.foldl (fun answers question =>
    assign answers question.key (assembleOne question ((Dict.get raw question.key).getD {}))) []

def optionRank (option : QuestionOption) : Nat := if option.recommended = some true then 1 else 0

def orderedOptions (question : Question) : List QuestionOption :=
  (question.options.getD []).mergeSort (fun a b => decide (optionRank b ≤ optionRank a))

/-- The captures the dialog for a question can return. -/
def Offers (question : Question) (selection : RawSelection) : Prop :=
  match question.kind with
  | .single => (∃ option ∈ orderedOptions question, selection = { option := some option.value }) ∨
      (question.allowOther = some true ∧ ∃ text, selection = { option := some otherValue, text := some text })
  | .multi => ∃ chosen, chosen.Sublist ((orderedOptions question).map QuestionOption.value) ∧
      selection = { options := some chosen }
  | .text => ∃ text, selection = { text := some text }
  | .chat => ∃ text, selection = { text := some text }

def collected (questions : List Question) (selections : List RawSelection) : RawSelections :=
  (questions.zip selections).foldl (fun raw entry => Dict.set raw entry.1.key entry.2) []

/-- Some way to go through the dialogs completes a step that derives its questions from the schema. -/
def CanComplete (validator : Validator) (name : String) (outputSchema : TSchema) : Prop :=
  let questions := (questionnaireFromSchema outputSchema).questions
  ∃ selections, List.Forall₂ Offers questions selections ∧
    ∃ output, answerQuestionnaireStep { name := name, outputSchema := outputSchema.schema validator }
      (assembleAnswers questions (collected questions selections)) = .ok output

/-- A choice with room for another answer, a list of checks, and a note. -/
def releasing : Questionnaire where
  title := some "Release"
  questions :=
    [{ key := "target", header := "Target", question := "Where to?", kind := .single
       options := some [{ value := "staging", label := "Staging" }, { value := "production", label := "Production" }]
       allowOther := some true },
      { key := "checks", header := "Checks", question := "Which checks?", kind := .multi
        options := some [{ value := "lint", label := "Lint" }, { value := "tests", label := "Tests" }] },
      { key := "note", header := "Note", question := "Anything to add?", kind := .text }]

end KimchiWorkflows.Host
