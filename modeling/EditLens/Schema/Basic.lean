import EditLens.Json.Access

/-!
Reading JSON schemas. A schema is any value; its keywords are looked up as they are needed, and one
that is left out counts as empty.
-/
namespace EditLens

def Json.typeName : Json → String
  | .scalar .null => "null"
  | .scalar (.bool _) => "boolean"
  | .scalar (.int _) => "integer"
  | .scalar (.float _) => "number"
  | .scalar (.str _) => "string"
  | .arr _ => "array"
  | .obj _ => "object"

namespace Schema

def properties (schema : Members) : Except Fault Members :=
  ((schema.valueOf "properties").orElse .emptyObject).asMembers

def required (schema : Members) : Except Fault (List Json) :=
  ((schema.valueOf "required").orElse (.arr [])).asList

def withProperties (schema properties : Members) : Members :=
  schema.put "properties" (.obj properties)

def withRequired (schema : Members) (names : List Json) : Members :=
  schema.put "required" (.arr names)

def listed (names : List Json) (name : Json) : Bool := names.any fun n => n.same name

def unlisted (names : List Json) (name : Json) : List Json := names.filter fun n => !n.same name

/-- A list of names with one more at its end, unless it is there already. -/
def enlisted (names : List Json) (name : Json) : List Json :=
  if listed names name then names else names ++ [name]

/-- The smallest value of each type; a number is zero. -/
def defaultByName : List (String × Json) :=
  [("string", .str ""), ("number", .int 0), ("integer", .int 0), ("boolean", .bool false),
    ("array", .arr []), ("object", .obj []), ("null", .null)]

def defaultOfName (type : Json) : Except Fault Json := do
  let key ← type.asKey
  match defaultByName.find? fun entry => key = .str entry.1 with
  | some (_, value) => return value
  | none => throw (.noDefault type)

/-- The smallest value of a type. A list of types has that of the first one, but is null if null is
among them or none are. -/
def defaultOfType : Json → Except Fault Json
  | .arr [] => .ok .null
  | .arr (first :: rest) =>
    if (first :: rest).any fun t => t.isText "null" then .ok .null else defaultOfName first
  | type => defaultOfName type

def options (schema : Json) : Except Fault (List Json) := do
  let union := (← schema.lookup "anyOf").orElse (← schema.lookup "oneOf")
  (union.orElse (.arr [])).asList

def anyNull : List Json → Except Fault Bool
  | [] => .ok false
  | option :: rest => do
    if (← option.lookup "type").isText "null" then return true
    anyNull rest

def isNullable (schema : Json) : Except Fault Bool := do
  match ← schema.lookup "type" with
  | .arr types => if types.any fun t => t.isText "null" then return true
  | type => if type.isText "null" then return true
  anyNull (← options schema)

/-- The default value of a property, if it has one: its own, null if null is allowed, or else that
of its type. -/
def defaultOf (schema : Json) : Except Fault (Option Json) := do
  if ← schema.mentions "default" then
    match schema with
    | .obj ms => return some (Members.valueOf ms "default")
    | _ => throw .wrongKind
  if ← isNullable schema then return some .null
  if ← schema.mentions "type" then return some (← defaultOfType (← schema.lookup "type"))
  return none

end Schema

end EditLens
