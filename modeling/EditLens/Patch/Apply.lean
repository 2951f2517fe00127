import EditLens.Patch.Basic

/-!
Applying operations to documents. All tokens of a path but the last lead to the container that is
edited; in an array a token is a position, or a dash for the place behind the last element.
-/
namespace EditLens

namespace Json

def child? (v : Json) (token : String) : Option Json :=
  match v with
  | .obj ms => Members.get? ms token
  | .arr es => (Pointer.position? token).bind fun i => es[i]?
  | .scalar _ => none

def setChild (v : Json) (token : String) (part : Json) : Json :=
  match v with
  | .obj ms => .obj (Members.put ms token part)
  | .arr es =>
    match Pointer.position? token with
    | some i => .arr (es.set i part)
    | none => v
  | .scalar _ => v

end Json

inductive Edit where
  | add (value : Json)
  | replace (value : Json)
  | remove
  deriving DecidableEq

namespace Edit

/-- Edits the member of a given name: only adding makes a new one. -/
def onMember (e : Edit) (ms : Members) (name : String) : Except Fault Members :=
  match e with
  | .add value => .ok (Members.put ms name value)
  | .replace value =>
    if Members.has ms name then .ok (Members.put ms name value) else .error .absentTarget
  | .remove => if Members.has ms name then .ok (Members.without ms name) else .error .absentTarget

/-- Edits the element at a position: adding moves the later ones on, and may be behind the last. -/
def onElement (e : Edit) (es : List Json) (i : Nat) : Except Fault (List Json) :=
  match e with
  | .add value => if i ≤ es.length then .ok (es.insertIdx i value) else .error .conflict
  | .replace value => if i < es.length then .ok (es.set i value) else .error .absentTarget
  | .remove => if i < es.length then .ok (es.eraseIdx i) else .error .absentTarget

def atEnd (e : Edit) (es : List Json) : Except Fault (List Json) :=
  match e with
  | .add value => .ok (es ++ [value])
  | .replace _ => .error .invalidOperation
  | .remove => .error .badPointer

def onPart (e : Edit) (container : Json) (token : String) : Except Fault Json :=
  match container with
  | .obj ms => do return .obj (← e.onMember ms token)
  | .arr es =>
    if token = "-" then do return .arr (← e.atEnd es)
    else
      match Pointer.position? token with
      | some i => do return .arr (← e.onElement es i)
      | none => .error .badPointer
  | .scalar _ => .error .badPointer

def onWhole : Edit → Except Fault Json
  | .add value => .ok value
  | .replace value => .ok value
  | .remove => .error .absentTarget

def apply (e : Edit) : Path → Json → Except Fault Json
  | [], _ => e.onWhole
  | [token], doc => e.onPart doc token
  | token :: next :: rest, doc =>
    match doc.child? token with
    | some part => do return doc.setChild token (← e.apply (next :: rest) part)
    | none => .error .badPointer

end Edit

namespace PatchOp

def edit (p : PatchOp) : Except Fault Edit :=
  match p.members.get? "op", p.members.get? "value" with
  | some verb, value =>
    match Verb.ofJson verb, value with
    | .add, some value => .ok (.add value)
    | .replace, some value => .ok (.replace value)
    | .remove, _ => .ok .remove
    | _, _ => .error .invalidOperation
  | none, _ => .error .invalidOperation

def apply (p : PatchOp) (doc : Json) : Except Fault Json := do
  (← p.edit).apply (← p.path) doc

end PatchOp

def Patch.apply (patch : Patch) (doc : Json) : Except Fault Json :=
  patch.foldlM (fun doc p => p.apply doc) doc

end EditLens
