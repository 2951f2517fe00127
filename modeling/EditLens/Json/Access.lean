import EditLens.Fault

/-!
Reading a value as something that it need not be: as an object, as a sequence, as a key. Lens data,
patches and schemas come unchecked, so each reading says which fault a value of another kind is.
-/
namespace EditLens

namespace Json

def truthy : Json → Bool
  | .scalar .null => false
  | .scalar (.bool b) => b
  | .scalar (.int n) => n != 0
  | .scalar (.float x) => x.integer? != some 0
  | .scalar (.str s) => s != ""
  | .arr es => !es.isEmpty
  | .obj ms => !ms.isEmpty

def orElse (v other : Json) : Json := if v.truthy then v else other

def asKey : Json → Except Fault Scalar
  | .scalar s => .ok s
  | _ => .error .wrongKind

/-- The parts of a value one after another: elements, keys or characters. -/
def asList : Json → Except Fault (List Json)
  | .arr es => .ok es
  | .obj ms => .ok (ms.map fun m => .scalar m.1)
  | .str s => .ok (s.toList.map fun c => .str (.singleton c))
  | .scalar _ => .error .wrongKind

def asObject : Json → Except Fault Members
  | .obj ms => .ok ms
  | _ => .error .notAnObject

def asEntry (v : Json) : Except Fault (Scalar × Json) := do
  match ← v.asList with
  | [key, value] => return (← key.asKey, value)
  | _ => throw .wrongShape

/-- The members of an object, or those given one by one as pairs. -/
def asMembers : Json → Except Fault Members
  | .obj ms => .ok ms
  | v => do return Members.ofEntries (← (← v.asList).mapM asEntry)

/-- A member of what has to be an object; one that is not there is null. -/
def lookup (v : Json) (key : Scalar) : Except Fault Json := do
  return (Members.get? (← v.asObject) key).getD .null

def occursIn (part : List Char) : List Char → Bool
  | [] => part.isEmpty
  | c :: rest => part.isPrefixOf (c :: rest) || occursIn part rest

def mentions (v : Json) (text : String) : Except Fault Bool :=
  match v with
  | .obj ms => .ok (Members.has ms text)
  | .arr es => .ok (es.any fun e => e.isText text)
  | .str s => .ok (occursIn text.toList s.toList)
  | .scalar _ => .error .wrongKind

end Json

namespace Members

def demand (ms : Members) (key : Scalar) : Except Fault Json :=
  match get? ms key with
  | some v => .ok v
  | none => .error .absentMember

def valueOf (ms : Members) (key : Scalar) : Json := (get? ms key).getD .null

end Members

end EditLens
