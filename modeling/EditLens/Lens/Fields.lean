import EditLens.Lens.Basic

/-!
The fields of lens operations: which ones an operation of each kind can have, which ones it needs,
and the operation that they make.
-/
namespace EditLens

abbrev Fields := List (String × Json)

namespace Fields

def last? (fields : Fields) (name : String) : Option Json :=
  (fields.reverse.find? fun f => f.1 == name).map Prod.snd

def within (fields : Fields) (names : List String) : Bool :=
  fields.all fun f => names.contains f.1

def required (fields : Fields) (name : String) : Except Fault Json :=
  match fields.last? name with
  | some v => .ok v
  | none => .error .wrongKind

def optional (fields : Fields) (name : String) : Json := (fields.last? name).getD .null

end Fields

def Property.ofFields (fields : Fields) : Except Fault Property := do
  return {
    name := ← fields.required "name"
    type := fields.optional "type"
    default := fields.optional "default"
    required := fields.optional "required"
    items := fields.optional "items" }

def Mapping.ofJson : Json → Except Fault Mapping
  | .arr [forward, backward] => do return ⟨← forward.asMembers, ← backward.asMembers⟩
  | v => .error (.notAMapping v)

namespace LensKind

/-- The fields that an operation of a kind can have, a nested lens apart. -/
def fieldNames : LensKind → List String
  | rename => ["source", "destination"]
  | hoist => ["host", "name"]
  | plunge => ["host", "name"]
  | wrap => ["name"]
  | head => ["name"]
  | add => ["name", "type", "default", "required", "items"]
  | remove => ["name", "type", "default", "required", "items"]
  | inside => ["name"]
  | each => []
  | convert => ["name", "mapping", "source_type", "destination_type"]

def hasLens : LensKind → Bool
  | inside => true
  | each => true
  | _ => false

/-- The operation of a kind with the given fields and nested lens. A field too many or too few is a
value of the wrong kind. -/
def assemble (kind : LensKind) (fields : Fields) (lens : Option Lens) : Except Fault LensOp := do
  if !fields.within kind.fieldNames || lens.isSome != kind.hasLens then throw .wrongKind
  let nested := lens.getD []
  match kind with
  | rename => return .rename (← fields.required "source") (← fields.required "destination")
  | hoist => return .hoist (← fields.required "host") (← fields.required "name")
  | plunge => return .plunge (← fields.required "host") (← fields.required "name")
  | wrap => return .wrap (← fields.required "name")
  | head => return .head (← fields.required "name")
  | add => return .add (← Property.ofFields fields)
  | remove => return .remove (← Property.ofFields fields)
  | inside => return .inside (← fields.required "name") nested
  | each => return .each nested
  | convert =>
    let name ← fields.required "name"
    let mapping ← Mapping.ofJson (← fields.required "mapping")
    return .convert name mapping (fields.optional "source_type")
      (fields.optional "destination_type")

end LensKind

end EditLens
