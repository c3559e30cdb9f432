import KimchiWorkflows.Engine.FanOutMarks

/-!
The value a loop feeds from one iteration to the next, live and as a re-entry rebuilds it.
-/

namespace KimchiWorkflows.Engine

open KimchiWorkflows.Flow Process Process.Proc

variable {env : RunEnv} {key parentPath iterPath : NodePath} {frames : List ScopeFrame} {input : Value}
  {reentry : Option Reentry} {note : Note} {effects : List Effect} {outcome : ExecOutcome}
  {nodes : List WorkflowNode} {tail : WorkflowNode}

def LeavesRecord (recorded : Option Value) (result : Settlement) (recorded' : Option Value) : Prop :=
  match result with
  | .ok (.ok output) => recorded' = some output ∨ (recorded' = recorded ∧ output = .undefined)
  | _ => recorded' = recorded

theorem tracks_walkNodes (henv : PendingByKey env) (hunique : (nodes.flatMap scopeNames).Nodup)
    (hlast : nodes.getLast? = some tail) :
    (walkNodes iterPath frames (walked env nodes) input reentry).Tracks
      (noteGhost (staticChildKey iterPath (nodeName tail))) note
      (fun note' result => LeavesRecord note.recorded result note'.recorded) := by
  induction nodes generalizing input reentry note with
  | nil => cases hlast
  | cons node rest ih =>
    obtain ⟨hself, hrest, hdisjoint⟩ := List.nodup_append'.mp (by simpa using hunique)
    intro memory _
    dsimp only
    split
    · exact rfl
    cases rest with
    | nil =>
      obtain rfl : node = tail := by simpa using hlast
      refine tracks_bind (marksOwn_runNode henv node hself _ _ _ _ note) ?_
      rintro note' result hfresh
      cases result with
      | error error => exact congrArg Note.recorded hfresh
      | ok outcome =>
        cases outcome with
        | ok output =>
          have hstored : ∀ note : Note, (note.next (staticChildKey iterPath (nodeName node))
              (.setStepOutput (staticChildKey iterPath (nodeName node)) output)).recorded = note.recorded := by
            intro note
            unfold Note.next
            dsimp only
            split_ifs <;> rfl
          show LeavesRecord note.recorded (.ok (.ok output)) (note'.next
            (staticChildKey iterPath (nodeName node))
            (.setStepOutput (staticChildKey iterPath (nodeName node)) output)).recorded
          rw [hstored]
          rcases hfresh with rfl | ⟨rfl, rfl⟩
          · exact .inl rfl
          · exact .inr ⟨rfl, rfl⟩
        | _ => exact congrArg Note.recorded hfresh
    | cons next others =>
      have hlast' : (next :: others).getLast? = some tail := by simpa using hlast
      have htail : nodeName tail ∈ (next :: others).flatMap scopeNames :=
        List.mem_flatMap.mpr ⟨tail, List.mem_of_getLast? hlast', nodeName_mem_scopeNames tail⟩
      have havoid : ∀ path, Under (staticPathOf iterPath) (scopeNames node) path →
          staticKeyOf path ≠ staticChildKey iterPath (nodeName tail) := by
        rintro path ⟨segment, hs, hp⟩ he
        have hp' : staticPathOf iterPath ++ [segment] <+: staticKeyOf path := hp
        rw [he] at hp'
        have heq := hp'.eq_of_length (by simp [staticChildKey])
        have hseg : segment = { name := nodeName tail } := by simpa [staticChildKey] using heq
        rw [hseg] at hs
        exact hdisjoint hs htail
      have hquiet := (stays_runNode henv node input iterPath frames reentry).silent havoid
      refine tracks_bind (tracks_silent hquiet note) ?_
      rintro note' result ⟨rfl, -⟩
      cases result with
      | error error => exact rfl
      | ok outcome =>
        cases outcome with
        | ok output =>
          have hother : note'.next (staticChildKey iterPath (nodeName tail))
              (.setStepOutput (staticChildKey iterPath (nodeName node)) output) = note' := by
            refine if_neg ?_
            have := havoid (appendSegment iterPath (nodeName node))
              (under_node (nodeName_mem_scopeNames node))
            rwa [staticKeyOf_appendSegment] at this
          show Tracks (noteGhost (staticChildKey iterPath (nodeName tail)))
            (walkNodes iterPath frames (walked env (next :: others)) output none)
            (note'.next (staticChildKey iterPath (nodeName tail))
              (.setStepOutput (staticChildKey iterPath (nodeName node)) output)) _
          rw [hother]
          exact ih hrest hlast'
        | _ => exact rfl

theorem length_walked (env : RunEnv) (nodes : List WorkflowNode) : (walked env nodes).length = nodes.length := by
  induction nodes with
  | nil => rfl
  | cons node rest ih => rw [walked, List.length_cons, List.length_cons, ih]

theorem walked_drop (env : RunEnv) (nodes : List WorkflowNode) (index : Nat) :
    (walked env nodes).drop index = walked env (nodes.drop index) := by
  induction nodes generalizing index with
  | nil => simp [walked]
  | cons node rest ih =>
    cases index with
    | zero => rfl
    | succ index => exact ih index

theorem tracks_runNodeSequence (henv : PendingByKey env) (hunique : (nodes.flatMap scopeNames).Nodup)
    (hlast : nodes.getLast? = some tail) :
    (runNodeSequence (walked env nodes) input iterPath frames 0 reentry).Tracks
      (noteGhost (staticChildKey iterPath (nodeName tail))) note
      (fun note' result => LeavesRecord note.recorded result note'.recorded) := by
  cases reentry with
  | none => exact tracks_walkNodes henv hunique hlast
  | some active =>
    simp only [runNodeSequence]
    split
    · exact rfl
    · split
      · exact rfl
      · rename_i index hindex
        intro memory _
        dsimp only
        have hlt : index < nodes.length := by
          have := (List.findIdx?_eq_some_iff_getElem.mp hindex).1
          rwa [length_walked] at this
        rw [walked_drop]
        apply tracks_walkNodes henv
        · have hsplit : nodes.flatMap scopeNames =
              (nodes.take index).flatMap scopeNames ++ (nodes.drop index).flatMap scopeNames := by
            rw [← List.flatMap_append, List.take_append_drop]
          rw [hsplit] at hunique
          exact (List.nodup_append'.mp hunique).2.1
        · rw [List.getLast?_drop, if_neg (by omega)]
          exact hlast

theorem record_of_body (henv : PendingByKey env) (hunique : (nodes.flatMap scopeNames).Nodup)
    (hlast : nodes.getLast? = some tail)
    (h : Emits (runNodeSequence (walked env nodes) input iterPath frames 0 reentry) effects outcome) :
    LeavesRecord none (.ok outcome)
      (lastCompletion (recordedEvents effects) (staticChildKey iterPath (nodeName tail))) := by
  obtain ⟨t, ht, rfl⟩ := h
  have hbody : (runNodeSequence (walked env nodes) input iterPath frames 0 reentry).Tracks
      (noteGhost (staticChildKey iterPath (nodeName tail))) {}
      (fun note' result => LeavesRecord none result note'.recorded) :=
    tracks_runNodeSequence henv hunique hlast
  have hend := tracks_run hbody ht (seen_noteGhost _ t)
  have hrecord : LeavesRecord none (.ok outcome)
      ((noteGhost (staticChildKey iterPath (nodeName tail))).after {} t).recorded := hend
  rw [recorded_after, Option.or_none] at hrecord
  exact hrecord

end KimchiWorkflows.Engine
