import Mathlib.Data.List.Basic

namespace KimchiWorkflows.Engine

inductive IndexKind where
  | loop | foreach
  deriving DecidableEq

structure PathSegment where
  name : String
  index : Option (IndexKind × Nat) := none
  deriving DecidableEq

abbrev NodePath := List PathSegment

instance : LawfulBEq NodePath := inferInstanceAs (LawfulBEq (List PathSegment))

def appendSegment (parent : NodePath) (name : String) : NodePath := parent ++ [{ name := name }]

def appendLoopIteration (parent : NodePath) (name : String) (iteration : Nat) : NodePath :=
  parent ++ [{ name := name, index := some (.loop, iteration) }]

def appendForeachItem (parent : NodePath) (name : String) (index : Nat) : NodePath :=
  parent ++ [{ name := name, index := some (.foreach, index) }]

def formatSegment (segment : PathSegment) : String :=
  match segment.index with
  | none => segment.name
  | some (.foreach, index) => segment.name ++ "@" ++ toString index
  | some (.loop, index) => segment.name ++ "#" ++ toString index

def formatPath (path : NodePath) : String := "/".intercalate (path.map formatSegment)

/-- Loop indices are dropped; the index of a foreach item is kept. -/
def staticSegmentOf (segment : PathSegment) : PathSegment :=
  match segment.index with
  | some (.foreach, _) => segment
  | _ => { name := segment.name }

def staticPathOf (path : NodePath) : NodePath := path.map staticSegmentOf

/-- The key of a path; keys stay lists of segments here, where the source formats them. -/
def staticKeyOf (path : NodePath) : NodePath := staticPathOf path

def staticChildKey (parent : NodePath) (name : String) : NodePath :=
  staticPathOf parent ++ [{ name := name }]

@[simp] theorem staticKeyOf_appendSegment (parent : NodePath) (name : String) :
    staticKeyOf (appendSegment parent name) = staticChildKey parent name := by
  simp [staticKeyOf, staticPathOf, appendSegment, staticChildKey, staticSegmentOf]

@[simp] theorem staticPathOf_appendSegment (parent : NodePath) (name : String) :
    staticPathOf (appendSegment parent name) = staticChildKey parent name := by
  simp [staticPathOf, appendSegment, staticChildKey, staticSegmentOf]

@[simp] theorem staticPathOf_appendLoopIteration (parent : NodePath) (name : String) (n : Nat) :
    staticPathOf (appendLoopIteration parent name n) = staticChildKey parent name := by
  simp [staticPathOf, appendLoopIteration, staticChildKey, staticSegmentOf]

@[simp] theorem staticPathOf_appendForeachItem (parent : NodePath) (name : String) (n : Nat) :
    staticPathOf (appendForeachItem parent name n) =
      staticPathOf parent ++ [{ name := name, index := some (.foreach, n) }] := by
  simp [staticPathOf, appendForeachItem, staticSegmentOf]

@[simp] theorem staticPathOf_length (p : NodePath) : (staticPathOf p).length = p.length := by
  simp [staticPathOf]

theorem staticPathOf_idem (p : NodePath) : staticPathOf (staticPathOf p) = staticPathOf p := by
  simp only [staticPathOf, List.map_map]
  apply List.map_congr_left
  rintro ⟨name, _ | ⟨_ | _, n⟩⟩ _ <;> rfl

end KimchiWorkflows.Engine
