import KimchiWorkflows.Engine.LoopVisits

/-!
One execution of a loop over the calls of the engine between which its blocks are answered.
-/

namespace KimchiWorkflows.Engine

open KimchiWorkflows.Flow Process Process.Proc

def iterationOf (parentPath : NodePath) (name : String) (event : RunEvent) : Option Nat :=
  match event with
  | .loopIteration path iteration =>
    if path = appendLoopIteration parentPath name iteration then some iteration else none
  | _ => none

def iterationsOf (parentPath : NodePath) (name : String) (events : List RunEvent) : List Nat :=
  events.filterMap (iterationOf parentPath name)

/-- What the last call found recorded for the tail of the body, and the input of the loop in it. -/
structure Visit where
  iteration : Nat
  recorded : Value
  input : Value

def tailRecord (nodes : List WorkflowNode) (parentPath : NodePath) (name : String) (memory : RunMemory) : Value :=
  (nodes.getLast?).elim .undefined (fun tail => memory.outputAt (tailKey parentPath name tail))

variable {loop : LoopDefinition} {nodes : List WorkflowNode} {parentPath : NodePath} {upstream : Value}

/-- The events, the rounds before the last call and in it, and the end of a chain of calls. Between calls a
block of the iteration that blocked is answered. -/
inductive LoopChain (loop : LoopDefinition) (nodes : List WorkflowNode) (parentPath : NodePath) (upstream : Value) :
    List RunEvent → List Round → List Round → Visit → LoopEnd → Prop where
  | entered {env : RunEnv} {frames : List ScopeFrame} {effects : List Effect} {rounds : List Round}
      {ending : LoopEnd} (henv : PendingByKey env)
      (hvisit : Visited env loop (walked env nodes) parentPath frames loop.maxIterations 1 upstream none effects
        rounds ending) :
      LoopChain loop nodes parentPath upstream (recordedEvents effects) [] rounds ⟨1, .undefined, upstream⟩ ending
  | answered {events : List RunEvent} {earlier rounds more : List Round} {visit : Visit} {iteration : Nat}
      {block : PendingBlock} {env : RunEnv} {frames : List ScopeFrame} {input : Value} {memory : RunMemory}
      {active : Reentry} {effects : List Effect} {ending : LoopEnd}
      (hchain : LoopChain loop nodes parentPath upstream events earlier rounds visit (.blocked iteration block))
      (henv : PendingByKey env) (hpath : active.path.head?.bind PathSegment.index = some (.loop, iteration))
      (hvisit : Visited env loop (walked env nodes) parentPath frames (loop.maxIterations + 1 - iteration) iteration
        (reseededInput (walked env nodes) loop.name parentPath iteration input memory) (some active.descend) effects
        more ending) :
      LoopChain loop nodes parentPath upstream (events ++ recordedEvents effects) (earlier ++ rounds) more
        ⟨iteration, tailRecord nodes parentPath loop.name memory, input⟩ ending

/-- The semantics of a loop, however its iterations are spread over calls. -/
structure LoopSemantics (loop : LoopDefinition) (parentPath : NodePath) (upstream : Value) (events : List RunEvent)
    (rounds : List Round) (ending : LoopEnd) : Prop where
  numbered : ∃ count, iterationsOf parentPath loop.name events = List.range' 1 count ∧ count ≤ loop.maxIterations ∧
    match ending with
    | .blocked iteration _ => iteration = count ∧ count = rounds.length + 1
    | .stopped _ => count = rounds.length
    | .guarded => count = rounds.length ∧ count = loop.maxIterations
    | .left _ => count = rounds.length ∨ count = rounds.length + 1
  judged : ∀ index round, rounds[index]? = some round →
    (∃ env frames input, Judges env loop parentPath frames (index + 1) input round) ∧
      (round.stops = true ↔ index + 1 = rounds.length ∧ ∃ value, ending = .stopped value)
  output : ∀ value, ending = .stopped value → value = fedAfter upstream (rounds.map Round.output)

/-- The value a later iteration is entered with again is the one it would have been fed. -/
def Restores (upstream : Value) (outputs : List Value) (visit : Visit) : Prop :=
  if 1 < visit.iteration ∧ visit.recorded ≠ .undefined then visit.recorded = fedAfter upstream outputs
  else visit.input = fedAfter upstream outputs

theorem reseededInput_eq_ite {env : RunEnv} {iteration : Nat} {input : Value} {memory : RunMemory} :
    reseededInput (walked env nodes) loop.name parentPath iteration input memory =
      if 1 < iteration ∧ tailRecord nodes parentPath loop.name memory ≠ .undefined then
        tailRecord nodes parentPath loop.name memory
      else input := by
  have hwalked := getLast?_walked env nodes
  have hrecord : ((walked env nodes).getLast?).elim Value.undefined (fun last =>
      memory.outputAt (staticChildKey parentPath loop.name ++ [{ name := nodeName last.1 }])) =
        tailRecord nodes parentPath loop.name memory := by
    rw [tailRecord, ← hwalked]
    cases (walked env nodes).getLast? with
    | none => rfl
    | some last => rfl
  unfold reseededInput
  simp only [hrecord]
  by_cases hk : 1 < iteration
  · by_cases hd : tailRecord nodes parentPath loop.name memory = .undefined
    · simp [hk, hd, passThrough_undefined]
    · simp [hk, hd, passThrough_defined hd]
  · simp [hk]

theorem iterationsOf_append (events later : List RunEvent) : iterationsOf parentPath loop.name (events ++ later) =
    iterationsOf parentPath loop.name events ++ iterationsOf parentPath loop.name later := List.filterMap_append

theorem iterationsOf_opened (iteration : Nat) (reentry : Option Reentry) :
    iterationsOf parentPath loop.name (recordedEvents (iterationOpened loop parentPath iteration reentry)) =
      if reentry.isSome then [] else [iteration] := by
  unfold iterationOpened
  split_ifs
  · rfl
  · simp [iterationsOf, iterationOf, recordedEvents]

theorem iterationsOf_body {env : RunEnv} (henv : PendingByKey env) {frames : List ScopeFrame} {iteration : Nat}
    {input : Value} {reentry : Option Reentry} {effects : List Effect} {outcome : ExecOutcome}
    (h : RunsBody loop (walked env nodes) parentPath frames iteration input reentry effects outcome) :
    iterationsOf parentPath loop.name (recordedEvents effects) = [] := by
  obtain ⟨t, ht, rfl⟩ := h
  have hconfined : Confined (fun path =>
      Below (staticPathOf (appendLoopIteration parentPath loop.name iteration)) (staticKeyOf path))
      (runNodeSequence (walked env nodes) input (appendLoopIteration parentPath loop.name iteration)
        (frames ++ [loopFrame loop.name iteration input]) 0 reentry) :=
    confined_runNodeSequence (stays_walked henv nodes) (fun _ hp => hp)
  have hacts := (only_run hconfined ht).1
  rw [iterationsOf, List.filterMap_eq_nil_iff]
  intro event he
  obtain ⟨-, path, hs, hbelow, -⟩ := hacts _ (mem_effectsOf he)
  cases event with
  | loopIteration other number =>
    refine if_neg ?_
    rintro rfl
    cases hs
    have := hbelow.2
    simp [staticKeyOf] at this
  | _ => rfl

/-- What a visit of a loop adds, with `opened` iterations opened before it that it goes on with. -/
structure VisitFacts (loop : LoopDefinition) (parentPath : NodePath) (remaining iteration opened : Nat) (input : Value)
    (events : List RunEvent) (rounds : List Round) (ending : LoopEnd) : Prop where
  numbered : ∃ count, iterationsOf parentPath loop.name events = List.range' (iteration + opened) count ∧
    count + opened ≤ remaining ∧
    match ending with
    | .blocked last _ => last = iteration + rounds.length ∧ count + opened = rounds.length + 1
    | .stopped _ => count + opened = rounds.length ∧ 0 < rounds.length
    | .guarded => count + opened = rounds.length ∧ rounds.length = remaining
    | .left _ => count + opened = rounds.length ∨ count + opened = rounds.length + 1
  judged : ∀ index round, rounds[index]? = some round →
    (∃ env frames input, Judges env loop parentPath frames (iteration + index) input round) ∧
      (round.stops = true ↔ index + 1 = rounds.length ∧ ∃ value, ending = .stopped value)
  output : ∀ value, ending = .stopped value → value = fedAfter input (rounds.map Round.output)

def openedBefore (reentry : Option Reentry) : Nat := if reentry.isSome then 1 else 0

theorem iterationsOf_visit {env : RunEnv} (henv : PendingByKey env) {frames : List ScopeFrame} {iteration : Nat}
    {input : Value} {reentry : Option Reentry} {effects rest : List Effect} {outcome : ExecOutcome}
    (h : RunsBody loop (walked env nodes) parentPath frames iteration input reentry effects outcome) :
    iterationsOf parentPath loop.name
        (recordedEvents (iterationOpened loop parentPath iteration reentry ++ (effects ++ rest))) =
      List.range' (iteration + openedBefore reentry) (1 - openedBefore reentry) ++
        iterationsOf parentPath loop.name (recordedEvents rest) := by
  rw [recordedEvents_append, iterationsOf_append, iterationsOf_opened, recordedEvents_append, iterationsOf_append,
    iterationsOf_body henv h, List.nil_append]
  unfold openedBefore
  split_ifs
  · rfl
  · rfl

theorem openedBefore_le (reentry : Option Reentry) : openedBefore reentry ≤ 1 := by
  unfold openedBefore
  split_ifs
  · exact Nat.le_refl _
  · exact Nat.zero_le _

theorem visitFacts_first {env : RunEnv} (henv : PendingByKey env) {frames : List ScopeFrame} {remaining iteration : Nat}
    {input : Value} {reentry : Option Reentry} {effects : List Effect} {outcome : ExecOutcome} {ending : LoopEnd}
    (h : RunsBody loop (walked env nodes) parentPath frames iteration input reentry effects outcome)
    (hend : (∃ block, ending = .blocked iteration block) ∨ ∃ outcome, ending = .left outcome) :
    VisitFacts loop parentPath (remaining + 1) iteration (openedBefore reentry) input
      (recordedEvents (iterationOpened loop parentPath iteration reentry ++ effects)) [] ending := by
  have hopened : iterationsOf parentPath loop.name
      (recordedEvents (iterationOpened loop parentPath iteration reentry ++ (effects ++ []))) = _ :=
    iterationsOf_visit henv h
  rw [List.append_nil] at hopened
  have hle := openedBefore_le reentry
  refine ⟨⟨1 - openedBefore reentry, ?_, by omega, ?_⟩, by simp, ?_⟩
  · rw [hopened]
    exact List.append_nil _
  · obtain ⟨block, rfl⟩ | ⟨outcome, rfl⟩ := hend
    · exact ⟨rfl, by simp only [List.length_nil]; omega⟩
    · exact .inr (by simp only [List.length_nil]; omega)
  · obtain ⟨block, rfl⟩ | ⟨outcome, rfl⟩ := hend
    · simp
    · simp

theorem visitFacts {env : RunEnv} (henv : PendingByKey env) {frames : List ScopeFrame} {remaining iteration : Nat}
    {input : Value} {reentry : Option Reentry} {effects : List Effect} {rounds : List Round} {ending : LoopEnd}
    (h : Visited env loop (walked env nodes) parentPath frames remaining iteration input reentry effects rounds ending)
    (hleft : openedBefore reentry ≤ remaining) :
    VisitFacts loop parentPath remaining iteration (openedBefore reentry) input (recordedEvents effects) rounds
      ending := by
  induction h with
  | guarded iteration input reentry =>
    have : openedBefore reentry = 0 := by omega
    exact ⟨⟨0, rfl, by omega, by simp [this]⟩, by simp, by simp⟩
  | aborted remaining iteration input reentry =>
    have := openedBefore_le reentry
    exact ⟨⟨0, rfl, by omega, by simp only [List.length_nil]; omega⟩, by simp, by simp⟩
  | blocked hbody => exact visitFacts_first henv hbody (.inl ⟨_, rfl⟩)
  | failed hbody => exact visitFacts_first henv hbody (.inr ⟨_, rfl⟩)
  | unjudged hbody => exact visitFacts_first henv hbody (.inr ⟨_, rfl⟩)
  | @stopped remaining iteration input output reentry effects hbody hjudged =>
    have := openedBefore_le reentry
    refine ⟨⟨1 - openedBefore reentry, ?_, by omega, ?_⟩, ?_, ?_⟩
    · rw [iterationsOf_visit henv hbody]
      exact List.append_nil _
    · exact ⟨by simp only [List.length_singleton]; omega, by simp⟩
    · intro index round hround
      cases index with
      | succ index => simp at hround
      | zero =>
        obtain rfl : ⟨output, true⟩ = round := by simpa using hround
        exact ⟨⟨env, frames, input, hjudged⟩, by simp⟩
    · rintro value hv
      rw [LoopEnd.stopped.injEq] at hv
      rw [← hv]
      rfl
  | @again remaining iteration input output reentry effects rest rounds ending hbody hjudged hrest ih =>
    have := openedBefore_le reentry
    obtain ⟨⟨count, hopened, hle, hend⟩, hjudges, houtput⟩ := ih (Nat.zero_le _)
    have hnone : openedBefore none = 0 := rfl
    rw [hnone] at hopened hle hend
    refine ⟨⟨1 - openedBefore reentry + count, ?_, by omega, ?_⟩, ?_, ?_⟩
    · rw [iterationsOf_visit henv hbody, hopened, ← List.range'_append_1]
      congr 2
      omega
    · cases ending with
      | _ =>
        simp only [List.length_cons] at hend ⊢
        omega
    · intro index round hround
      cases index with
      | zero =>
        obtain rfl : ⟨output, false⟩ = round := by simpa using hround
        refine ⟨⟨env, frames, input, hjudged⟩, ?_⟩
        -- a visit that stops has a round of its own after this one
        refine iff_of_false (by simp) ?_
        rintro ⟨hlength, value, rfl⟩
        simp only [List.length_cons] at hend hlength
        omega
      | succ index =>
        obtain ⟨⟨env', frames', input', hjudge⟩, hstops⟩ := hjudges index round (by simpa using hround)
        refine ⟨⟨env', frames', input', ?_⟩, ?_⟩
        · rw [show iteration + (index + 1) = iteration + 1 + index by omega]
          exact hjudge
        · rw [hstops, List.length_cons]
          simp
    · exact houtput

structure ChainFacts (loop : LoopDefinition) (parentPath : NodePath) (events : List RunEvent)
    (earlier rounds : List Round) (visit : Visit) (ending : LoopEnd) : Prop where
  numbered : ∃ count, iterationsOf parentPath loop.name events = List.range' 1 count ∧ count ≤ loop.maxIterations ∧
    match ending with
    | .blocked iteration _ => iteration = count ∧ count = (earlier ++ rounds).length + 1
    | .stopped _ => count = (earlier ++ rounds).length
    | .guarded => count = (earlier ++ rounds).length ∧ count = loop.maxIterations
    | .left _ => count = (earlier ++ rounds).length ∨ count = (earlier ++ rounds).length + 1
  judged : ∀ index round, (earlier ++ rounds)[index]? = some round →
    (∃ env frames input, Judges env loop parentPath frames (index + 1) input round) ∧
      (round.stops = true ↔ index + 1 = (earlier ++ rounds).length ∧ ∃ value, ending = .stopped value)
  output : ∀ value, ending = .stopped value →
    value = fedAfter (if 1 < visit.iteration ∧ visit.recorded ≠ .undefined then visit.recorded else visit.input)
      (rounds.map Round.output)

theorem LoopChain.facts {events : List RunEvent} {earlier rounds : List Round} {visit : Visit} {ending : LoopEnd}
    (h : LoopChain loop nodes parentPath upstream events earlier rounds visit ending) :
    ChainFacts loop parentPath events earlier rounds visit ending := by
  induction h with
  | @entered env frames effects rounds ending henv hvisit =>
    obtain ⟨⟨count, hopened, hle, hend⟩, hjudged, houtput⟩ := visitFacts henv hvisit (Nat.zero_le _)
    have hnone : openedBefore none = 0 := rfl
    rw [hnone] at hopened hle hend
    refine ⟨⟨count, hopened, by omega, ?_⟩, ?_, by simpa using houtput⟩
    · rw [List.nil_append]
      cases ending with
      | _ =>
        simp only at hend ⊢
        omega
    · rw [List.nil_append]
      intro index round hround
      obtain ⟨hjudges, hstops⟩ := hjudged index round hround
      rw [Nat.add_comm] at hjudges
      exact ⟨hjudges, hstops⟩
  | @answered events earlier rounds more visit iteration block env frames input memory active effects ending hchain
      henv hpath hvisit ih =>
    obtain ⟨⟨before, hbefore, hlimit, hiteration, hlength⟩, hearlier, -⟩ := ih
    have hsome : openedBefore (some active.descend) = 1 := rfl
    obtain ⟨⟨count, hopened, hle, hend⟩, hjudged, houtput⟩ := visitFacts henv hvisit (by rw [hsome]; omega)
    rw [hsome] at hopened hle hend
    generalize hall : earlier ++ rounds = all at hlength hearlier ⊢
    refine ⟨⟨before + count, ?_, by omega, ?_⟩, ?_, ?_⟩
    · rw [iterationsOf_append, hbefore, hopened, hiteration, Nat.add_comm before 1, List.range'_append_1]
    · rw [List.length_append]
      cases ending with
      | _ =>
        simp only at hend ⊢
        omega
    · intro index round hround
      by_cases hold : index < all.length
      · rw [List.getElem?_append_left hold] at hround
        obtain ⟨hjudges, hstops⟩ := hearlier index round hround
        refine ⟨hjudges, ?_⟩
        rw [hstops]
        refine iff_of_false (by simp) ?_
        -- the last call of a chain that stops finishes a round
        rintro ⟨hlast, value, rfl⟩
        rw [List.length_append] at hlast
        simp only at hend
        omega
      · rw [List.getElem?_append_right (by omega)] at hround
        obtain ⟨hjudges, hstops⟩ := hjudged (index - all.length) round hround
        refine ⟨?_, ?_⟩
        · rwa [show iteration + (index - all.length) = index + 1 by omega] at hjudges
        · rw [hstops, List.length_append]
          have : index - all.length + 1 = more.length ↔ index + 1 = all.length + more.length := by omega
          rw [this]
    · intro value hv
      rw [houtput value hv, reseededInput_eq_ite]

end KimchiWorkflows.Engine
