import Mathlib.Data.List.Basic
import Mathlib.Data.List.Forall2
import Mathlib.Tactic.IntervalCases
import KimchiWorkflows.Host.Telemetry
import KimchiWorkflows.Progress.Projection

/-!
The panel: the rows, a width and a theme in, plain lines out. Texts are lists of UTF-16 code units, and a line is
composed of them before any of them is styled.
-/

namespace KimchiWorkflows.Progress.Render

open KimchiWorkflows.Engine KimchiWorkflows.Host.Telemetry

abbrev Units := List Nat

def units (text : String) : Units := text.toList.flatMap codeUnits

inductive ProgressColour where
  | text | muted | dim | accent | success | warning | error | borderMuted
  deriving DecidableEq

structure ProgressTheme where
  fg : ProgressColour → Units → Units
  bold : Units → Units

/-- A part of a line, and how the theme is to wrap it. -/
structure Segment where
  colour : Option ProgressColour := none
  bold : Bool := false
  text : Units

abbrev Line := List Segment

def bare (text : Units) : Segment := { text := text }

def fg (colour : ProgressColour) (text : Units) : Segment := { colour := some colour, text := text }

def Segment.styled (theme : ProgressTheme) (segment : Segment) : Units :=
  let coloured := segment.colour.elim segment.text (fun colour => theme.fg colour segment.text)
  if segment.bold then theme.bold coloured else coloured

def Line.styled (theme : ProgressTheme) (line : Line) : Units := line.flatMap (Segment.styled theme)

def Line.plain (line : Line) : Units := line.flatMap Segment.text

structure RetryBadge where
  attempt : Nat
  of : Option Nat := none
  reason : RetryReason

structure LoopCounter where
  iteration : Nat
  max : Nat

structure DrawnNode where
  name : Units
  state : Option StepState := none
  elapsedMs : Option Nat := none
  live : Bool := false
  tokens : Nat := 0
  optional : Bool := false
  retry : Option RetryBadge := none
  repairs : Option Nat := none
  questions : Option Nat := none
  loop : Option LoopCounter := none
  foreachCounter : Option ForeachCounter := none
  arms : Option Nat := none
  armsTaken : Option Nat := none
  steps : Option Nat := none

structure DrawnRow where
  node : DrawnNode
  guides : List Bool := []
  collapsed : Bool := false
  expanded : Bool := false

structure DrawnView where
  workflowName : Units
  runId : Option Units := none
  status : Option RunStatus := none
  elapsedMs : Option Nat := none
  live : Bool := false
  tokens : Nat := 0
  stepsSettled : Nat := 0
  stepsTotal : Nat := 0

/-- The time since the projection is given in whole milliseconds, which is as fine as any clock here shows. -/
structure RenderOptions where
  width : Nat
  frame : Nat := 0
  elapsedSinceProjectionMs : Nat := 0
  runLabel : Option Units := none

def gutter : Nat := 2

def rowGutter : Nat := gutter + 2

def gap : Nat := 2

def narrowWidth : Nat := 60

def minNameField : Nat := 12

def trackSegments : Nat := 10

def ellipsis : Units := units "…"

def spinner : List String := ["⠋", "⠙", "⠹", "⠸", "⠼", "⠴", "⠦", "⠧", "⠇", "⠏"]

def stateGlyph : Option StepState → Units × ProgressColour
  | none => (units "○", .dim)
  | some .inProgress => ([], .accent)
  | some .blocked => (units "?", .warning)
  | some .completed => (units "✓", .success)
  | some .skipped => (units "⊘", .dim)
  | some .cancelled => (units "■", .muted)
  | some .crashed => (units "✗", .error)

def retryReason : RetryReason → Units
  | .thrownError => units "error"
  | .invalidOutput => units "invalid output"
  | .budgetExceeded => units "budget exceeded"
  | .agentError => units "provider error"

structure RowCells where
  node : DrawnNode
  leading : Units
  glyph : Units
  glyphColour : ProgressColour
  name : Units
  status : Units
  token : Units

/-- Where the columns of the grid fall, computed once for all rows. -/
structure Layout where
  metadata : Bool
  nameField : Nat
  statusField : Nat
  tokenField : Nat
  deriving DecidableEq

section Typography

/-- The double nearest to a number, for numbers below two to the fifty-third. -/
def double (x : Rat) : Rat :=
  if x ≤ 0 then 0
  else
    let shift := 52 + Nat.log2 x.den - Nat.log2 x.num.toNat
    let shift := if x.num.toNat * 2 ^ shift < 2 ^ 52 * x.den then shift + 1 else shift
    let scaled := x.num.toNat * 2 ^ shift
    let whole := scaled / x.den
    let rest := 2 * (scaled % x.den)
    let mantissa := if rest < x.den ∨ (rest = x.den ∧ whole % 2 = 0) then whole else whole + 1
    (mantissa : Rat) / 2 ^ shift

/-- `Math.round` -/
def round (x : Rat) : Nat := (x + 1 / 2).floor.toNat

def digits (n : Nat) : Units := units (toString n)

/-- `(n / unit).toFixed(1)` -/
def toFixed (n unit : Nat) : Units :=
  let tenths := round (10 * double (n / unit))
  digits (tenths / 10) ++ units "." ++ digits (tenths % 10)

def padStart (width : Nat) (text : Units) : Units := List.replicate (width - text.length) 48 ++ text

def pad2 (value : Nat) : Units := padStart 2 (digits value)

def spaces (n : Nat) : Units := List.replicate n 32

def truncate (text : Units) (limit : Nat) : Units :=
  if limit = 0 then []
  else if text.length ≤ limit then text
  else if limit = 1 then ellipsis
  else text.take (limit - 1) ++ ellipsis

def dotted (parts : List (Option Units)) : Units :=
  (units " · ").intercalate (parts.filterMap id |>.filter (fun part => decide (0 < part.length)))

def plural (count : Nat) (noun : String) : Units :=
  digits count ++ units " " ++ units noun ++ if count = 1 then [] else units "s"

def formatWholeSeconds (ms : Nat) : Units :=
  let total := ms / 1000
  let seconds := total % 60
  let minutes := total / 60
  if total < 60 then digits total ++ units "s"
  else if minutes < 60 then digits minutes ++ units "m " ++ pad2 seconds ++ units "s"
  else digits (minutes / 60) ++ units ":" ++ pad2 (minutes % 60) ++ units ":" ++ pad2 seconds

def formatDuration (ms : Nat) : Units :=
  if ms < 60000 then toFixed ms 1000 ++ units "s" else formatWholeSeconds ms

def formatClock (ms : Nat) : Units :=
  let total := ms / 1000
  pad2 (total / 60) ++ units ":" ++ pad2 (total % 60)

def formatTokens (tokens : Nat) : Units :=
  if tokens < 1000 then digits tokens
  else if tokens < 1000000 then toFixed tokens 1000 ++ units "k"
  else toFixed tokens 1000000 ++ units "M"

def durationText (node : DrawnNode) (elapsedDelta : Nat) : Option Units :=
  node.elapsedMs.map (fun elapsedMs =>
    if node.live then formatWholeSeconds (elapsedMs + elapsedDelta) else formatDuration elapsedMs)

end Typography

section Cells

def track (done count : Nat) : Units :=
  let segments := max 1 (min count trackSegments)
  let filled := if 0 < count then min segments (round (double (double (done / count) * segments))) else 0
  (List.replicate filled (units "▰")).flatten ++ (List.replicate (segments - filled) (units "▱")).flatten

def armTally (arms : Nat) (taken : Option Nat) : Units :=
  if taken = none ∨ taken = some arms then plural arms "arm"
  else digits (taken.getD 0) ++ units " of " ++ plural arms "arm"

def collapsedSummary (node : DrawnNode) (elapsedDelta : Nat) : Units :=
  let duration := durationText node elapsedDelta
  match node.loop, node.foreachCounter, node.steps, node.arms with
  | some loop, _, _, _ => dotted [some (units "↻ " ++ plural loop.iteration "iteration"), duration]
  | none, some items, _, _ => dotted [some (units "✓ " ++ plural items.count "item"), duration]
  | none, none, some steps, _ => dotted [some (units "✓ " ++ plural steps "step"), duration]
  | none, none, none, some arms => dotted [some (units "✓ " ++ armTally arms node.armsTaken), duration]
  | none, none, none, none => duration.getD []

def counterCell (node : DrawnNode) : Option Units :=
  match node.loop, node.foreachCounter, node.arms with
  | some loop, _, _ => some (units "↻ " ++ digits loop.iteration ++ units "/" ++ digits loop.max)
  | none, some items, _ => some (track items.done items.count ++ units " " ++ digits items.done ++ units "/" ++
      digits items.count ++ units " items")
  | none, none, some arms => if node.state = none then none else some (plural arms "arm")
  | none, none, none => none

/-- Of what is under way or done: the retries, the repairs, the counter, or the time. -/
def progressCell (node : DrawnNode) (elapsedDelta : Nat) : Units :=
  let duration := durationText node elapsedDelta
  match node.retry with
  | some retry =>
    if node.state = some .inProgress then
      units "retry " ++ digits retry.attempt ++ retry.of.elim [] (fun most => units "/" ++ digits most) ++ units " · " ++
        retryReason retry.reason
    else dotted [some (digits (retry.attempt + 1) ++ units " tries"), duration]
  | none =>
    match node.repairs.filter (fun repairs => decide (0 < repairs)) with
    | some repairs =>
      if node.state = some .inProgress then units "repair " ++ digits repairs
      else dotted [some (plural repairs "repair"), duration]
    | none =>
      match counterCell node with
      | some counter => counter
      | none => if node.live then units "running · " ++ duration.getD (units "undefined") else duration.getD []

def statusCell (row : DrawnRow) (elapsedDelta : Nat) : Units :=
  let node := row.node
  let duration := durationText node elapsedDelta
  if row.collapsed then collapsedSummary node elapsedDelta
  else match node.state with
    | some .crashed => dotted [some (units "failed"), if node.optional then some (units "optional") else none, duration]
    | some .cancelled => dotted [some (units "cancelled"), duration]
    | some .skipped => units "skipped"
    | some .blocked =>
      match node.questions.filter (fun questions => decide (0 < questions)) with
      | some questions => units "waiting · " ++ plural questions "question"
      | none => units "waiting"
    | _ => progressCell node elapsedDelta

def tokenCell (node : DrawnNode) : Units :=
  if 0 < node.tokens then formatTokens node.tokens ++ units " tok" else []

def connectors (row : DrawnRow) : Units :=
  spaces rowGutter ++ (row.guides.zipIdx.map (fun (continues, level) =>
    if continues then units "│ " else if level + 1 = row.guides.length then units "└ " else units "  ")).flatten

def glyphOf (row : DrawnRow) (frame : Nat) : Units × ProgressColour :=
  if row.collapsed then (units "▸", .muted)
  else if row.expanded then (units "▾", .accent)
  else if row.node.state = some .inProgress then (units ((spinner[frame % spinner.length]?).getD ""), .accent)
  else if row.node.state = some .crashed ∧ row.node.optional = true then (units "⚠", .warning)
  else stateGlyph row.node.state

def rowCells (row : DrawnRow) (frame elapsedDelta : Nat) : RowCells where
  node := row.node
  leading := connectors row
  glyph := (glyphOf row frame).1
  glyphColour := (glyphOf row frame).2
  name := row.node.name
  status := statusCell row elapsedDelta
  token := tokenCell row.node

end Cells

section Grid

def headLength (cell : RowCells) : Nat := cell.leading.length + cell.glyph.length + 1 + cell.name.length

def maxOf (values : List Nat) : Nat := values.foldl (fun highest value => if highest < value then value else highest) 0

def room (width statusField token : Nat) : Nat :=
  width - gutter - gap - statusField - if 0 < token then gap + token else 0

def bareLayout (width : Nat) : Layout := { metadata := false, nameField := width, statusField := 0, tokenField := 0 }

/-- The grid fits the width by removing whole cells: the tokens first, then the metadata. -/
def planLayout (cells : List RowCells) (width : Nat) : Layout :=
  if width < narrowWidth then bareLayout width
  else
    let statusField := maxOf (cells.map (fun cell => cell.status.length))
    let wanted := maxOf (cells.map (fun cell => cell.token.length))
    if statusField = 0 ∧ wanted = 0 then bareLayout width
    else
      let tokenField :=
        if 0 < wanted ∧ maxOf (cells.map headLength) ≤ room width statusField wanted ∧
          minNameField ≤ room width statusField wanted then wanted else 0
      let nameField := room width statusField tokenField
      if nameField < minNameField then bareLayout width
      else { metadata := true, nameField := nameField, statusField := statusField, tokenField := tokenField }

def styledName (name : Units) (node : DrawnNode) : Segment :=
  if node.state = some .inProgress ∨ node.state = some .blocked then { colour := some .text, bold := true, text := name }
  else if node.state = some .completed then fg .muted name
  else if node.state = some .crashed then fg .text name
  else fg .dim name

def metaCell (text : Units) (field : Nat) : Line :=
  if text.length = 0 then [bare (spaces (field - text.length))]
  else [bare (spaces (field - text.length)), fg .dim text]

def fixedLength (cell : RowCells) : Nat := cell.leading.length + cell.glyph.length + 1

def nameFieldOf (layout : Layout) (width : Nat) : Nat := if layout.metadata then layout.nameField else width

def rowLine (cell : RowCells) (layout : Layout) (width : Nat) : Line :=
  let fixed := fixedLength cell
  let field := nameFieldOf layout width
  let name := truncate cell.name (field - fixed)
  let head := [fg .borderMuted cell.leading, fg cell.glyphColour cell.glyph, bare (units " "), styledName name cell.node]
  let showToken := 0 < layout.tokenField ∧ 0 < cell.token.length
  if layout.metadata = false ∨ (cell.status.length = 0 ∧ ¬showToken) then head
  else
    let padded := head ++ [bare (spaces (field - fixed - name.length))]
    let status := padded ++ [bare (spaces gap)] ++ metaCell cell.status layout.statusField
    if showToken then status ++ [bare (spaces gap)] ++ metaCell cell.token layout.tokenField else status

end Grid

section Frame

variable (view : DrawnView) (options : RenderOptions)

/-- `slice(-8)` -/
def lastEight (text : Units) : Units := text.drop (text.length - 8)

def headerRight : Units :=
  let label := options.runLabel.or (view.runId.map lastEight)
  let elapsed :=
    if view.elapsedMs = none ∨ view.live = false ∨ view.status ≠ some .inProgress then view.elapsedMs.getD 0
    else view.elapsedMs.getD 0 + options.elapsedSinceProjectionMs
  dotted [label, some (formatClock elapsed)]

def headerLine : Line :=
  let right := headerRight view options
  let overhead := gutter + (units "── ").length + 1 + (units " ──").length + if 0 < right.length then 1 + right.length else 0
  let name := truncate view.workflowName (max 1 (options.width - overhead - 1))
  let fill := max 1 (options.width - overhead - name.length)
  [bare (spaces gutter), fg .borderMuted (units "── "), fg .accent name, bare (units " "),
      fg .borderMuted (List.replicate fill (units "─")).flatten] ++
    (if 0 < right.length then [bare (units " "), fg .dim right] else []) ++ [fg .borderMuted (units " ──")]

def bar (filled width : Nat) : Line :=
  if filled = 0 then [fg .borderMuted (List.replicate width (units "─")).flatten]
  else if width ≤ filled then [fg .accent (List.replicate width (units "━")).flatten]
  else [fg .accent ((List.replicate filled (units "━")).flatten ++ units "╸"),
    fg .borderMuted (List.replicate (width - filled - 1) (units "─")).flatten]

def footerRight : Units :=
  dotted [some (digits view.stepsSettled ++ units " of " ++ digits view.stepsTotal),
    if 0 < view.tokens then some (formatTokens view.tokens ++ units " tok") else none]

def footerLine (width : Nat) : Line :=
  let right := footerRight view
  let barWidth := max 1 (width - gutter - gap - right.length)
  let filled :=
    if 0 < view.stepsTotal then
      min barWidth (round (double (double (view.stepsSettled / view.stepsTotal) * barWidth)))
    else 0
  [bare (spaces gutter)] ++ bar filled barWidth ++ [bare (spaces gap), fg .dim right]

def render (rows : List DrawnRow) : List Line :=
  let cells := rows.map (fun row => rowCells row options.frame options.elapsedSinceProjectionMs)
  let layout := planLayout cells options.width
  [[], headerLine view options, []] ++ cells.map (fun cell => rowLine cell layout options.width) ++ [[]] ++
    if narrowWidth ≤ options.width then [footerLine view options.width, []] else []

end Frame

variable {cell : RowCells} {cells : List RowCells} {layout : Layout} {width : Nat} {row : DrawnRow} {rows : List DrawnRow}

@[simp] theorem plain_nil : Line.plain [] = [] := rfl

@[simp] theorem plain_cons (segment : Segment) (line : Line) :
    Line.plain (segment :: line) = segment.text ++ Line.plain line := rfl

@[simp] theorem plain_append (line line' : Line) : Line.plain (line ++ line') = Line.plain line ++ Line.plain line' :=
  List.flatMap_append

theorem styled_identity (line : Line) : Line.styled { fg := fun _ text => text, bold := id } line = Line.plain line := by
  refine List.flatMap_congr ?_
  intro segment _
  unfold Segment.styled
  cases segment.colour <;> simp

@[simp] theorem spaces_length (n : Nat) : (spaces n).length = n := List.length_replicate

theorem plain_metaCell (text : Units) (field : Nat) :
    Line.plain (metaCell text field) = spaces (field - text.length) ++ text := by
  unfold metaCell
  split_ifs with h
  · rw [List.length_eq_zero_iff] at h
    simp [h, bare]
  · simp [bare, fg]

/-- A name is shown whole, or cut to the limit with an ellipsis at its end, of which nothing may be left. -/
theorem truncate_cases (text : Units) (limit : Nat) : truncate text limit = text ∨
    (limit < text.length ∧ (truncate text limit).length = limit ∧
      (limit = 0 ∨ ∃ cut, cut <+: text ∧ truncate text limit = cut ++ ellipsis)) := by
  unfold truncate
  split_ifs with h0 hle h1
  · cases text with
    | nil => exact .inl rfl
    | cons unit rest => exact .inr ⟨by simp [h0], by simp [h0], .inl h0⟩
  · exact .inl rfl
  · exact .inr ⟨Nat.lt_of_not_le hle, h1 ▸ rfl, .inr ⟨[], List.nil_prefix, rfl⟩⟩
  · refine .inr ⟨Nat.lt_of_not_le hle, ?_, .inr ⟨_, List.take_prefix _ _, rfl⟩⟩
    have hell : ellipsis.length = 1 := rfl
    rw [List.length_append, List.length_take, hell]
    omega

theorem truncate_length_le (text : Units) (limit : Nat) : (truncate text limit).length ≤ limit := by
  have hell : ellipsis.length = 1 := rfl
  unfold truncate
  split_ifs with h0 hle h1
  · exact Nat.zero_le _
  · exact hle
  · rw [hell, h1]
  · rw [List.length_append, List.length_take, hell]
    omega

theorem le_maxOf_from (values : List Nat) (highest : Nat) :
    let most := values.foldl (fun highest value => if highest < value then value else highest) highest
    highest ≤ most ∧ ∀ value ∈ values, value ≤ most := by
  induction values generalizing highest with
  | nil => exact ⟨Nat.le_refl _, fun _ hm => by cases hm⟩
  | cons first rest ih =>
    obtain ⟨hle, hall⟩ := ih (if highest < first then first else highest)
    have hnext : highest ≤ (if highest < first then first else highest) ∧
        first ≤ if highest < first then first else highest := by
      split_ifs with hlt
      · exact ⟨hlt.le, Nat.le_refl _⟩
      · exact ⟨Nat.le_refl _, Nat.le_of_not_lt hlt⟩
    exact ⟨hnext.1.trans hle, List.forall_mem_cons.mpr ⟨hnext.2.trans hle, hall⟩⟩

theorem le_maxOf {values : List Nat} {value : Nat} (h : value ∈ values) : value ≤ maxOf values :=
  (le_maxOf_from values 0).2 value h

/-- A grid for some cells: the fields take up the width but for the gutter, every status and every token has its field,
and there is a field for the tokens only beside whole names. -/
structure LaidOut (cells : List RowCells) (width : Nat) (layout : Layout) : Prop where
  bare : layout.metadata = false → layout.tokenField = 0
  columns : layout.metadata = true →
    layout.nameField + gap + layout.statusField + (if 0 < layout.tokenField then gap + layout.tokenField else 0) + gutter =
      width
  status : layout.metadata = true → ∀ cell ∈ cells, cell.status.length ≤ layout.statusField
  token : 0 < layout.tokenField → ∀ cell ∈ cells, cell.token.length ≤ layout.tokenField ∧ headLength cell ≤ layout.nameField

theorem laidOut_bare (cells : List RowCells) (width : Nat) : LaidOut cells width (bareLayout width) where
  bare := fun _ => rfl
  columns := fun h => by cases h
  status := fun h => by cases h
  token := fun h => by cases h

theorem laidOut_planLayout (cells : List RowCells) (width : Nat) : LaidOut cells width (planLayout cells width) := by
  have hstatus : ∀ cell ∈ cells, cell.status.length ≤ maxOf (cells.map (fun cell => cell.status.length)) :=
    fun cell hm => le_maxOf (List.mem_map_of_mem hm)
  have htoken : ∀ cell ∈ cells, cell.token.length ≤ maxOf (cells.map (fun cell => cell.token.length)) :=
    fun cell hm => le_maxOf (List.mem_map_of_mem hm)
  have hhead : ∀ cell ∈ cells, headLength cell ≤ maxOf (cells.map headLength) :=
    fun cell hm => le_maxOf (List.mem_map_of_mem hm)
  unfold planLayout
  generalize maxOf (cells.map (fun cell => cell.status.length)) = statusField at *
  generalize maxOf (cells.map (fun cell => cell.token.length)) = wanted at *
  generalize maxOf (cells.map headLength) = longest at *
  simp only
  split_ifs with hn he hw hf hf
  · exact laidOut_bare cells width
  · exact laidOut_bare cells width
  · exact laidOut_bare cells width
  · obtain ⟨hpos, hfit, -⟩ := hw
    refine ⟨Bool.noConfusion, fun _ => ?_, fun _ => hstatus, fun _ cell hm => ⟨htoken cell hm, (hhead cell hm).trans hfit⟩⟩
    simp only [room, minNameField, if_pos hpos] at hf ⊢
    omega
  · exact laidOut_bare cells width
  · refine ⟨Bool.noConfusion, fun _ => ?_, fun _ => hstatus, fun h => absurd h (Nat.lt_irrefl 0)⟩
    simp only [room, minNameField, Nat.lt_irrefl, if_false] at hf ⊢
    omega

def headOf (cell : RowCells) (layout : Layout) (width : Nat) : Units :=
  cell.leading ++ cell.glyph ++ units " " ++ truncate cell.name (nameFieldOf layout width - fixedLength cell)

def tokensOf (cell : RowCells) (layout : Layout) : Units :=
  if 0 < layout.tokenField ∧ 0 < cell.token.length then
    spaces gap ++ (spaces (layout.tokenField - cell.token.length) ++ cell.token)
  else []

def metadataOf (cell : RowCells) (layout : Layout) (width : Nat) : Units :=
  spaces (nameFieldOf layout width - (headOf cell layout width).length) ++ spaces gap ++
    (spaces (layout.statusField - cell.status.length) ++ cell.status) ++ tokensOf cell layout

theorem headOf_length (cell : RowCells) (layout : Layout) (width : Nat) : (headOf cell layout width).length =
    fixedLength cell + (truncate cell.name (nameFieldOf layout width - fixedLength cell)).length := by
  have hspace : (units " ").length = 1 := rfl
  simp only [headOf, fixedLength, List.length_append, hspace]

theorem plain_rowLine (cell : RowCells) (layout : Layout) (width : Nat) : Line.plain (rowLine cell layout width) =
    headOf cell layout width ++
      if layout.metadata = false ∨ (cell.status.length = 0 ∧ ¬(0 < layout.tokenField ∧ 0 < cell.token.length)) then []
      else metadataOf cell layout width := by
  have hname : ∀ name, (styledName name cell.node).text = name := by
    intro name
    unfold styledName
    split_ifs <;> rfl
  have hpad : nameFieldOf layout width - (headOf cell layout width).length =
      nameFieldOf layout width - fixedLength cell -
        (truncate cell.name (nameFieldOf layout width - fixedLength cell)).length := by
    rw [headOf_length]
    omega
  unfold rowLine metadataOf tokensOf
  simp only
  rw [hpad]
  split_ifs with hbare ht
  · simp [headOf, hname, bare, fg]
  · simp [headOf, hname, bare, fg, plain_metaCell]
  · simp [headOf, hname, bare, fg, plain_metaCell]

/-- Where the cells of a row stand in its line: the name whole unless there are no tokens beside it, each status up to
one column and each token up to another, which is the same for all rows. -/
structure Placed (layout : Layout) (width : Nat) (cell : RowCells) (line : Units) : Prop where
  fits : line.length ≤ width
  name : ∃ shown, cell.leading ++ cell.glyph ++ units " " ++ shown <+: line ∧ (shown = cell.name ∨
    layout.tokenField = 0 ∧ fixedLength cell + shown.length = nameFieldOf layout width ∧
      (shown = [] ∨ ∃ cut, cut <+: cell.name ∧ shown = cut ++ ellipsis))
  status : layout.metadata = true → 0 < cell.status.length → ∃ before after, line = before ++ cell.status ++ after ∧
    before.length + cell.status.length = layout.nameField + gap + layout.statusField
  token : 0 < layout.tokenField → 0 < cell.token.length → ∃ before, line = before ++ cell.token ∧
    line.length + gutter = width

theorem headOf_length_le (h : fixedLength cell ≤ nameFieldOf layout width) :
    (headOf cell layout width).length ≤ nameFieldOf layout width := by
  have := truncate_length_le cell.name (nameFieldOf layout width - fixedLength cell)
  rw [headOf_length]
  omega

theorem metadataOf_length (hl : LaidOut cells width layout) (hm : cell ∈ cells) (hmeta : layout.metadata = true)
    (h : fixedLength cell ≤ nameFieldOf layout width) :
    (headOf cell layout width ++ metadataOf cell layout width).length = layout.nameField + gap + layout.statusField +
      if 0 < layout.tokenField ∧ 0 < cell.token.length then gap + layout.tokenField else 0 := by
  have hhead := headOf_length_le h
  have hstatus := hl.status hmeta cell hm
  have hfield : nameFieldOf layout width = layout.nameField := if_pos hmeta
  unfold metadataOf tokensOf
  split_ifs with ht
  · have htoken := (hl.token ht.1 cell hm).1
    simp only [List.length_append, spaces_length]
    omega
  · simp only [List.length_append, spaces_length, List.length_nil]
    omega

theorem metadata_of_token (hl : LaidOut cells width layout) (ht : 0 < layout.tokenField) : layout.metadata = true := by
  cases hm : layout.metadata with
  | true => rfl
  | false =>
    rw [hl.bare hm] at ht
    exact absurd ht (Nat.lt_irrefl 0)

theorem line_fits (hl : LaidOut cells width layout) (hm : cell ∈ cells)
    (h : fixedLength cell ≤ nameFieldOf layout width) : (Line.plain (rowLine cell layout width)).length ≤ width := by
  have hhead := headOf_length_le h
  rw [plain_rowLine]
  split_ifs with hbare
  · rw [List.append_nil]
    cases hmeta : layout.metadata with
    | true =>
      have hcolumns := hl.columns hmeta
      rw [nameFieldOf, if_pos hmeta] at hhead
      omega
    | false =>
      rw [nameFieldOf, hmeta] at hhead
      exact hhead
  · rw [not_or, Bool.not_eq_false] at hbare
    have hcolumns := hl.columns hbare.1
    rw [metadataOf_length hl hm hbare.1 h]
    split_ifs at hcolumns ⊢ <;> omega

theorem name_shown (hl : LaidOut cells width layout) (hm : cell ∈ cells)
    (h : fixedLength cell ≤ nameFieldOf layout width) : ∃ shown,
      cell.leading ++ cell.glyph ++ units " " ++ shown <+: Line.plain (rowLine cell layout width) ∧ (shown = cell.name ∨
        layout.tokenField = 0 ∧ fixedLength cell + shown.length = nameFieldOf layout width ∧
          (shown = [] ∨ ∃ cut, cut <+: cell.name ∧ shown = cut ++ ellipsis)) := by
  rw [plain_rowLine]
  refine ⟨_, List.prefix_append _ _, ?_⟩
  obtain hwhole | ⟨hlt, hlen, hcut⟩ := truncate_cases cell.name (nameFieldOf layout width - fixedLength cell)
  · exact .inl hwhole
  · refine .inr ⟨?_, by omega, ?_⟩
    · -- beside tokens there is room for the longest name
      by_contra hne
      have ht : 0 < layout.tokenField := Nat.pos_of_ne_zero hne
      have hroom := (hl.token ht cell hm).2
      rw [nameFieldOf, if_pos (metadata_of_token hl ht)] at hlt
      simp only [headLength, fixedLength] at hroom hlt
      omega
    · obtain h0 | hcut := hcut
      · rw [h0] at hlen
        exact .inl (List.length_eq_zero_iff.mp (h0 ▸ hlen))
      · exact .inr hcut

theorem placed (hl : LaidOut cells width layout) (hm : cell ∈ cells) (h : fixedLength cell ≤ nameFieldOf layout width) :
    Placed layout width cell (Line.plain (rowLine cell layout width)) where
  fits := line_fits hl hm h
  name := name_shown hl hm h
  status := by
    intro hmeta hpos
    have hhead := headOf_length_le h
    have hstatus := hl.status hmeta cell hm
    have hfield : nameFieldOf layout width = layout.nameField := if_pos hmeta
    have hshown : ¬(layout.metadata = false ∨
        (cell.status.length = 0 ∧ ¬(0 < layout.tokenField ∧ 0 < cell.token.length))) := by
      rintro (hbare | ⟨h0, -⟩)
      · rw [hmeta] at hbare
        cases hbare
      · omega
    rw [plain_rowLine, if_neg hshown]
    refine ⟨headOf cell layout width ++ spaces (nameFieldOf layout width - (headOf cell layout width).length) ++
      spaces gap ++ spaces (layout.statusField - cell.status.length), tokensOf cell layout, ?_, ?_⟩
    · simp only [metadataOf, List.append_assoc]
    · simp only [List.length_append, spaces_length]
      omega
  token := by
    intro htoken hpos
    have hmeta := metadata_of_token hl htoken
    have hshown : ¬(layout.metadata = false ∨
        (cell.status.length = 0 ∧ ¬(0 < layout.tokenField ∧ 0 < cell.token.length))) := by
      rintro (hbare | ⟨-, hno⟩)
      · rw [hmeta] at hbare
        cases hbare
      · exact hno ⟨htoken, hpos⟩
    have hcolumns := hl.columns hmeta
    have hlen := metadataOf_length hl hm hmeta h
    rw [if_pos ⟨htoken, hpos⟩] at hlen
    rw [if_pos htoken] at hcolumns
    rw [plain_rowLine, if_neg hshown]
    refine ⟨headOf cell layout width ++ (spaces (nameFieldOf layout width - (headOf cell layout width).length) ++
      spaces gap ++ (spaces (layout.statusField - cell.status.length) ++ cell.status) ++
      (spaces gap ++ spaces (layout.tokenField - cell.token.length))), ?_, by omega⟩
    simp only [metadataOf, tokensOf, if_pos (And.intro htoken hpos), List.append_assoc]

theorem spinner_length (frame : Nat) : (units ((spinner[frame % spinner.length]?).getD "")).length = 1 := by
  have hlt : frame % spinner.length < 10 := Nat.mod_lt _ (by decide)
  generalize frame % spinner.length = index at hlt
  interval_cases index <;> rfl

theorem glyphOf_length (row : DrawnRow) (frame : Nat) : (glyphOf row frame).1.length = 1 := by
  unfold glyphOf
  split_ifs with hc he hp ho
  · rfl
  · rfl
  · exact spinner_length frame
  · rfl
  · unfold stateGlyph
    split
    · rfl
    · rename_i hs
      exact absurd hs hp
    all_goals rfl

theorem connectors_length (row : DrawnRow) : (connectors row).length = rowGutter + 2 * row.guides.length := by
  have hcolumns : ∀ (guides : List Bool) (from_ : Nat), ((guides.zipIdx from_).map (fun (continues, level) =>
      if continues then units "│ " else if level + 1 = row.guides.length then units "└ " else units "  ")).flatten.length =
      2 * guides.length := by
    intro guides
    induction guides with
    | nil => intro from_; rfl
    | cons continues rest ih =>
      intro from_
      have hone : (if continues then units "│ " else if from_ + 1 = row.guides.length then units "└ "
          else units "  ").length = 2 := by
        split_ifs <;> rfl
      rw [List.zipIdx_cons, List.map_cons, List.flatten_cons, List.length_append, ih, List.length_cons, hone]
      omega
  rw [connectors, List.length_append, spaces_length, hcolumns]

theorem fixedLength_rowCells (row : DrawnRow) (frame elapsedDelta : Nat) :
    fixedLength (rowCells row frame elapsedDelta) = rowGutter + 2 * row.guides.length + 2 := by
  simp only [fixedLength, rowCells, connectors_length, glyphOf_length]

def gridOf (options : RenderOptions) (rows : List DrawnRow) : Layout :=
  planLayout (rows.map (fun row => rowCells row options.frame options.elapsedSinceProjectionMs)) options.width

theorem rows_placed (options : RenderOptions) (hm : row ∈ rows)
    (h : rowGutter + 2 * row.guides.length + 2 ≤ nameFieldOf (gridOf options rows) options.width) :
    let cell := rowCells row options.frame options.elapsedSinceProjectionMs
    Placed (gridOf options rows) options.width cell (Line.plain (rowLine cell (gridOf options rows) options.width)) := by
  refine placed (laidOut_planLayout _ _) (List.mem_map_of_mem hm) ?_
  rw [fixedLength_rowCells]
  exact h

theorem rule_length {mark : Units} (h : mark.length = 1) (n : Nat) : (List.replicate n mark).flatten.length = n := by
  rw [List.length_flatten, List.map_replicate, h, List.sum_replicate_nat, Nat.mul_one]

theorem bar_length (filled width : Nat) : (Line.plain (bar filled width)).length = width := by
  have hdone : (units "━").length = 1 := rfl
  have hleft : (units "─").length = 1 := rfl
  have hcap : (units "╸").length = 1 := rfl
  unfold bar
  split_ifs with h0 hw
  · simp [fg, rule_length hleft]
  · simp [fg, rule_length hdone]
  · simp only [fg, plain_cons, plain_nil, List.append_nil, List.length_append, rule_length hleft, rule_length hdone, hcap]
    omega

theorem footerLine_length (view : DrawnView) (h : (footerRight view).length + 5 ≤ width) :
    (Line.plain (footerLine view width)).length = width := by
  simp only [footerLine, plain_append, plain_cons, plain_nil, bare, fg, List.append_nil, List.length_append,
    spaces_length, bar_length, gutter, gap]
  omega

theorem headerLine_length (view : DrawnView) (options : RenderOptions)
    (h : (headerRight view options).length + 12 ≤ options.width) :
    (Line.plain (headerLine view options)).length = options.width := by
  have hopen : (units "── ").length = 3 := rfl
  have hclose : (units " ──").length = 3 := rfl
  have hrule : (units "─").length = 1 := rfl
  have hspace : (units " ").length = 1 := rfl
  unfold headerLine
  generalize headerRight view options = right at *
  simp only [hopen, hclose, gutter]
  generalize hover : 2 + 3 + 1 + 3 + (if 0 < right.length then 1 + right.length else 0) = overhead
  have hname := truncate_length_le view.workflowName (max 1 (options.width - overhead - 1))
  generalize truncate view.workflowName (max 1 (options.width - overhead - 1)) = name at *
  split_ifs at hover ⊢ with hr
  · simp only [plain_append, plain_cons, plain_nil, bare, fg, List.append_nil, List.length_append, spaces_length, hopen,
      hclose, hspace, rule_length hrule]
    omega
  · simp only [plain_append, plain_cons, plain_nil, bare, fg, List.append_nil, List.length_append, spaces_length, hopen,
      hclose, hspace, rule_length hrule]
    omega

/-- The lines of a render, with the layout all its rows share. -/
theorem render_eq (view : DrawnView) (options : RenderOptions) (rows : List DrawnRow) :
    render view options rows = [[], headerLine view options, []] ++
      rows.map (fun row => rowLine (rowCells row options.frame options.elapsedSinceProjectionMs)
        (gridOf options rows) options.width) ++ [[]] ++
      if narrowWidth ≤ options.width then [footerLine view options.width, []] else [] := by
  simp only [render, gridOf, List.map_map, Function.comp_def]

/-- Every row whose connectors fit beside the metadata stands in the grid, and the rules above and below the rows span
the width. -/
theorem panel_aligned (view : DrawnView) (options : RenderOptions) (rows : List DrawnRow) :
    (render view options rows = [[], headerLine view options, []] ++
      rows.map (fun row => rowLine (rowCells row options.frame options.elapsedSinceProjectionMs)
        (gridOf options rows) options.width) ++ [[]] ++
      if narrowWidth ≤ options.width then [footerLine view options.width, []] else []) ∧
    (∀ row ∈ rows, rowGutter + 2 * row.guides.length + 2 ≤ nameFieldOf (gridOf options rows) options.width →
      let cell := rowCells row options.frame options.elapsedSinceProjectionMs
      Placed (gridOf options rows) options.width cell
        (Line.plain (rowLine cell (gridOf options rows) options.width))) ∧
    ((headerRight view options).length + 12 ≤ options.width →
      (Line.plain (headerLine view options)).length = options.width) ∧
    ((footerRight view).length + 5 ≤ options.width →
      (Line.plain (footerLine view options.width)).length = options.width) :=
  ⟨render_eq view options rows, fun _ hm h => rows_placed options hm h, headerLine_length view options,
    footerLine_length view⟩

def linted : DrawnRow where
  node := { name := units "lint", state := some .completed, elapsedMs := some 61000, tokens := 900 }
  guides := [true]

def writing : DrawnRow where
  node := { name := units "write", state := some .inProgress, elapsedMs := some 3100, live := true, tokens := 4100 }

def deploying : DrawnView := { workflowName := units "deploy", stepsTotal := 3 }

/-- Two rows of different depths stand in one grid. -/
theorem panel_aligned_linted :
    Placed (gridOf { width := 72 } [linted, writing]) 72 (rowCells linted 0 0)
        (Line.plain (rowLine (rowCells linted 0 0) (gridOf { width := 72 } [linted, writing]) 72)) ∧
      Placed (gridOf { width := 72 } [linted, writing]) 72 (rowCells writing 0 0)
        (Line.plain (rowLine (rowCells writing 0 0) (gridOf { width := 72 } [linted, writing]) 72)) ∧
      (Line.plain (headerLine deploying { width := 72 })).length = 72 ∧
      (Line.plain (footerLine deploying 72)).length = 72 := by
  obtain ⟨-, hrows, hheader, hfooter⟩ := panel_aligned deploying { width := 72 } [linted, writing]
  refine ⟨hrows linted (by simp) (by decide +kernel), hrows writing (by simp) (by decide +kernel), ?_, ?_⟩
  · exact hheader (by decide +kernel)
  · exact hfooter (by decide +kernel)

/-- The clocks of two renders of a view show the same whole seconds. -/
def SameSeconds (view : DrawnView) (rows : List DrawnRow) (options options' : RenderOptions) : Prop :=
  (∀ ms, view.live = true → view.status = some .inProgress → view.elapsedMs = some ms →
    (ms + options.elapsedSinceProjectionMs) / 1000 = (ms + options'.elapsedSinceProjectionMs) / 1000) ∧
  ∀ row ∈ rows, ∀ ms, row.node.live = true → row.node.elapsedMs = some ms →
    (ms + options.elapsedSinceProjectionMs) / 1000 = (ms + options'.elapsedSinceProjectionMs) / 1000

def Spins (row : DrawnRow) : Prop :=
  row.collapsed = false ∧ row.expanded = false ∧ row.node.state = some .inProgress

/-- Two lines are the same, but for the glyph of a row at work. -/
def Steady (rows : List DrawnRow) (line line' : Line) : Prop :=
  line = line' ∨ ∃ row ∈ rows, Spins row ∧ ∃ first glyph glyph' rest, line = first :: fg .accent glyph :: rest ∧
    line' = first :: fg .accent glyph' :: rest ∧ glyph.length = 1 ∧ glyph'.length = 1

theorem formatWholeSeconds_congr {ms ms' : Nat} (h : ms / 1000 = ms' / 1000) :
    formatWholeSeconds ms = formatWholeSeconds ms' := by
  simp only [formatWholeSeconds, h]

theorem durationText_congr {node : DrawnNode} {delta delta' : Nat}
    (h : ∀ ms, node.live = true → node.elapsedMs = some ms → (ms + delta) / 1000 = (ms + delta') / 1000) :
    durationText node delta = durationText node delta' := by
  unfold durationText
  cases he : node.elapsedMs with
  | none => rfl
  | some ms =>
    rw [Option.map_some, Option.map_some]
    split_ifs with hl
    · rw [formatWholeSeconds_congr (h ms hl he)]
    · rfl

theorem statusCell_congr {delta delta' : Nat} (h : durationText row.node delta = durationText row.node delta') :
    statusCell row delta = statusCell row delta' := by
  simp only [statusCell, collapsedSummary, progressCell, h]

theorem glyphOf_congr (hn : ¬Spins row) (frame frame' : Nat) : glyphOf row frame = glyphOf row frame' := by
  unfold glyphOf
  split_ifs with hc he hp
  · rfl
  · rfl
  · exact absurd ⟨Bool.not_eq_true _ ▸ hc, Bool.not_eq_true _ ▸ he, hp⟩ hn
  · rfl
  · rfl

theorem glyphOf_spins (hs : Spins row) (frame : Nat) : (glyphOf row frame).2 = .accent := by
  obtain ⟨hc, he, hp⟩ := hs
  simp [glyphOf, hc, he, hp]

section Ticking

variable {view : DrawnView} {options options' : RenderOptions}

theorem rowCells_congr (h : SameSeconds view rows options options') (hm : row ∈ rows) :
    rowCells row options'.frame options'.elapsedSinceProjectionMs =
      { rowCells row options.frame options.elapsedSinceProjectionMs with
        glyph := (glyphOf row options'.frame).1, glyphColour := (glyphOf row options'.frame).2 } := by
  have hstatus := statusCell_congr (durationText_congr (h.2 row hm))
  simp only [rowCells, hstatus]

theorem gridOf_congr (h : SameSeconds view rows options options') (hw : options'.width = options.width) :
    gridOf options' rows = gridOf options rows := by
  have hcells : ∀ f : RowCells → Nat, (∀ cell glyph colour, glyph.length = cell.glyph.length →
      f { cell with glyph := glyph, glyphColour := colour } = f cell) →
      (rows.map (fun row => rowCells row options'.frame options'.elapsedSinceProjectionMs)).map f =
        (rows.map (fun row => rowCells row options.frame options.elapsedSinceProjectionMs)).map f := by
    intro f hf
    rw [List.map_map, List.map_map]
    refine List.map_congr_left ?_
    intro row hm
    have hlen : (glyphOf row options'.frame).1.length = (glyphOf row options.frame).1.length := by
      rw [glyphOf_length, glyphOf_length]
    rw [Function.comp_apply, Function.comp_apply, rowCells_congr h hm]
    exact hf _ _ _ hlen
  have hstatus := hcells (fun cell => cell.status.length) (fun _ _ _ _ => rfl)
  have htoken := hcells (fun cell => cell.token.length) (fun _ _ _ _ => rfl)
  have hhead := hcells headLength (fun cell glyph colour hg => by simp only [headLength, hg])
  simp only [gridOf, planLayout, hw, hstatus, htoken, hhead]

theorem rowLine_cons (cell : RowCells) (layout : Layout) (width : Nat) : rowLine cell layout width =
    fg .borderMuted cell.leading :: fg cell.glyphColour cell.glyph :: (rowLine cell layout width).drop 2 := by
  unfold rowLine
  simp only
  split_ifs <;> rfl

theorem rowLine_glyph (cell : RowCells) {glyph : Units} (colour : ProgressColour) (layout : Layout) (width : Nat)
    (hg : glyph.length = cell.glyph.length) :
    (rowLine { cell with glyph := glyph, glyphColour := colour } layout width).drop 2 =
      (rowLine cell layout width).drop 2 := by
  have hfixed : fixedLength { cell with glyph := glyph, glyphColour := colour } = fixedLength cell := by
    simp only [fixedLength, hg]
  simp only [rowLine, hfixed]
  split_ifs <;> rfl

theorem rowLine_steady (h : SameSeconds view rows options options') (hm : row ∈ rows) (layout : Layout) (width : Nat) :
    Steady rows (rowLine (rowCells row options.frame options.elapsedSinceProjectionMs) layout width)
      (rowLine (rowCells row options'.frame options'.elapsedSinceProjectionMs) layout width) := by
  by_cases hs : Spins row
  · refine .inr ⟨row, hm, hs, fg .borderMuted (connectors row), (glyphOf row options.frame).1,
      (glyphOf row options'.frame).1, ?_⟩
    have hlen : (glyphOf row options'.frame).1.length = (glyphOf row options.frame).1.length := by
      rw [glyphOf_length, glyphOf_length]
    refine ⟨(rowLine (rowCells row options.frame options.elapsedSinceProjectionMs) layout width).drop 2, ?_, ?_,
      glyphOf_length _ _, glyphOf_length _ _⟩
    · rw [← glyphOf_spins hs options.frame]
      exact rowLine_cons _ _ _
    · rw [rowCells_congr h hm, rowLine_cons, rowLine_glyph _ _ _ _ hlen, glyphOf_spins hs options'.frame]
      rfl
  · left
    rw [rowCells_congr h hm, glyphOf_congr hs options'.frame options.frame]
    rfl

theorem headerLine_congr (h : SameSeconds view rows options options') (hw : options'.width = options.width)
    (hl : options'.runLabel = options.runLabel) : headerLine view options' = headerLine view options := by
  have hclock : headerRight view options' = headerRight view options := by
    unfold headerRight
    simp only [hl]
    split_ifs with hstill
    · rfl
    · obtain ⟨helapsed, hlive, hstatus⟩ : view.elapsedMs ≠ none ∧ view.live ≠ false ∧ view.status = some .inProgress := by
        push Not at hstill
        exact hstill
      cases he : view.elapsedMs with
      | none => exact absurd he helapsed
      | some ms =>
        simp only [Option.getD_some, formatClock, h.1 ms (Bool.eq_true_of_not_eq_false hlive) hstatus he]
  simp only [headerLine, hclock, hw]

/-- Between two renders within the same seconds nothing moves but the spinners of the rows at work. -/
theorem only_spinner_moves (h : SameSeconds view rows options options') (hw : options'.width = options.width)
    (hl : options'.runLabel = options.runLabel) :
    List.Forall₂ (Steady rows) (render view options rows) (render view options' rows) := by
  have hsame : ∀ lines : List Line, List.Forall₂ (Steady rows) lines lines :=
    fun lines => List.forall₂_same.mpr (fun _ _ => .inl rfl)
  rw [render_eq, render_eq, gridOf_congr h hw, headerLine_congr h hw hl, hw]
  refine List.rel_append (List.rel_append (List.rel_append (hsame _) ?_) (hsame _)) (hsame _)
  rw [List.forall₂_map_left_iff, List.forall₂_map_right_iff, List.forall₂_same]
  intro row hm
  exact rowLine_steady h hm _ _

end Ticking

theorem sameSeconds_writing : SameSeconds deploying [writing] { width := 72 }
    { width := 72, frame := 4, elapsedSinceProjectionMs := 500 } := by
  constructor
  · intro ms _ _ h
    cases h
  · intro row hm ms _ h
    rw [List.mem_singleton.mp hm] at h
    cases h
    rfl

theorem only_spinner_moves_writing : List.Forall₂ (Steady [writing]) (render deploying { width := 72 } [writing])
    (render deploying { width := 72, frame := 4, elapsedSinceProjectionMs := 500 } [writing]) :=
  only_spinner_moves sameSeconds_writing rfl rfl

end KimchiWorkflows.Progress.Render
