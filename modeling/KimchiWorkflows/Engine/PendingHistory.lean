import KimchiWorkflows.Engine.KeyHistory
import KimchiWorkflows.Engine.PendingInputs
import KimchiWorkflows.Engine.RunStatus

namespace KimchiWorkflows.Engine

open KimchiWorkflows.Flow

variable {events : List RunEvent} {key target : NodePath} {asked : Asked} {block : PendingBlock}

def IsWaiting (events : List RunEvent) (key : NodePath) : Prop :=
  Dict.get (deriveStepStates events) key = some .blocked

theorem isWaiting_iff : IsWaiting events key ↔ (viewOf key events).state = some .blocked := by
  rw [IsWaiting, get_deriveStepStates]

theorem get_foldl_setByKey {asks : List Asked} {latest : List (NodePath × Asked)}
    (h : Dict.get (asks.foldl (fun latest asked => Dict.set latest (staticKeyOf asked.path) asked) latest) key
      = some asked) : (asked ∈ asks ∧ staticKeyOf asked.path = key) ∨ Dict.get latest key = some asked := by
  induction asks generalizing latest with
  | nil => exact .inr h
  | cons first rest ih =>
    rcases ih h with ⟨hm, hk⟩ | hg
    · exact .inl ⟨List.mem_cons_of_mem _ hm, hk⟩
    · rw [Dict.get_set] at hg
      split_ifs at hg with hk
      · cases hg
        exact .inl ⟨List.mem_cons_self, hk.symm⟩
      · exact .inr hg

theorem get_latestByKey (h : Dict.get (latestByKey events) key = some asked) :
    asked ∈ askedInputs events ∧ staticKeyOf asked.path = key := by
  rcases get_foldl_setByKey h with hm | hg
  · exact hm
  · cases hg

theorem mem_pendingHumanInputs (h : asked ∈ pendingHumanInputs events) :
    IsWaiting events (staticKeyOf asked.path) ∧
      Dict.get (latestByKey events) (staticKeyOf asked.path) = some asked := by
  have hm := (List.mem_insertionSort _).mp h
  obtain ⟨⟨key, state⟩, hentry, hg⟩ := List.mem_filterMap.mp hm
  dsimp only at hg
  split_ifs at hg with hb
  obtain ⟨-, rfl⟩ := get_latestByKey hg
  subst hb
  exact ⟨Dict.get_of_mem (nodup_deriveStepStates events) hentry, hg⟩

theorem get_foldl_setBlock {asks : List Asked} {blocks : List (NodePath × PendingBlock)}
    (h : Dict.get (asks.foldl (fun blocks asked =>
      Dict.set blocks (staticKeyOf asked.path) (pendingBlockFromEvent asked)) blocks) key = some block) :
    (∃ asked ∈ asks, staticKeyOf asked.path = key ∧ block = pendingBlockFromEvent asked) ∨
      Dict.get blocks key = some block := by
  induction asks generalizing blocks with
  | nil => exact .inr h
  | cons first rest ih =>
    rcases ih h with ⟨asked, hm, hk⟩ | hg
    · exact .inl ⟨asked, List.mem_cons_of_mem _ hm, hk⟩
    · rw [Dict.get_set] at hg
      split_ifs at hg with hk
      · cases hg
        exact .inl ⟨first, List.mem_cons_self, hk.symm, rfl⟩
      · exact .inr hg

theorem path_pendingBlockFromEvent (asked : Asked) : (pendingBlockFromEvent asked).path = asked.path := by
  unfold pendingBlockFromEvent
  split <;> rfl

/-- What a call leaves waiting are other requests that wait as the log stands. -/
theorem get_pendingBlocksExcept (h : Dict.get (pendingBlocksExcept events target) key = some block) :
    ∃ asked ∈ pendingHumanInputs events, asked.path ≠ target ∧ staticKeyOf asked.path = key ∧
      block = pendingBlockFromEvent asked := by
  rcases get_foldl_setBlock h with ⟨asked, hm, hk, rfl⟩ | hg
  · obtain ⟨hm, hne⟩ := List.mem_filter.mp hm
    exact ⟨asked, hm, by simpa using hne, hk, rfl⟩
  · cases hg

end KimchiWorkflows.Engine
