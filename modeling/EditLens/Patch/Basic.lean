import EditLens.Pointer

/-!
Operations of a patch. An operation is an object: what it does, the path that it is about, and
further members such as the value that it writes. Nothing but being an object is taken for granted.
-/
namespace EditLens

structure PatchOp where
  members : Members
  deriving DecidableEq

/-- What an operation does, so far as lenses tell operations apart. -/
inductive Verb where
  | add
  | replace
  | remove
  | other
  deriving DecidableEq

namespace Verb

def ofJson (v : Json) : Verb :=
  if v.isText "add" then .add
  else if v.isText "replace" then .replace
  else if v.isText "remove" then .remove
  else .other

def writes : Verb → Bool
  | .add => true
  | .replace => true
  | _ => false

end Verb

namespace PatchOp

def ofJson : Json → Except Fault PatchOp
  | .obj ms => .ok ⟨ms⟩
  | _ => .error .wrongKind

def toJson (p : PatchOp) : Json := .obj p.members

def path (p : PatchOp) : Except Fault Path := do Pointer.ofJson (← p.members.demand "path")

def withPath (p : PatchOp) (path : Path) : PatchOp :=
  ⟨p.members.put "path" (.str (Pointer.join path))⟩

def verb (p : PatchOp) : Except Fault Verb := do return .ofJson (← p.members.demand "op")

/-- The value that an operation writes; one without a value writes null. -/
def value (p : PatchOp) : Json := p.members.valueOf "value"

def withValue (p : PatchOp) (value : Json) : PatchOp := ⟨p.members.put "value" value⟩

def add (path : Path) (value : Json) : PatchOp :=
  ⟨[("op", .str "add"), ("path", .str (Pointer.join path)), ("value", value)]⟩

def replace (path : Path) (value : Json) : PatchOp :=
  ⟨[("op", .str "replace"), ("path", .str (Pointer.join path)), ("value", value)]⟩

def remove (path : Path) : PatchOp :=
  ⟨[("op", .str "remove"), ("path", .str (Pointer.join path))]⟩

end PatchOp

abbrev Patch := List PatchOp

end EditLens
