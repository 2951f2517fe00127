import EditLens.Schema.Basic

/-! Schemas without null as an allowed value. -/
namespace EditLens.Schema

/-- A list of types without null; a single type stands by itself. -/
def typeWithoutNull (types : List Json) : Json :=
  match types.filter fun t => !t.isText "null" with
  | [type] => type
  | rest => .arr rest

def optionsWithoutNull : List Json → Except Fault (List Json)
  | [] => .ok []
  | option :: rest => do
    let isNull := (← option.lookup "type").isText "null"
    let rest ← optionsWithoutNull rest
    return if isNull then rest else option :: rest

/-- A union without the type of null; a single alternative takes the place of the union. -/
def unionWithoutNull (keyword : String) (schema : Members) : Except Fault Members := do
  match schema.get? keyword with
  | none => return schema
  | some union =>
    match ← optionsWithoutNull (← union.asList) with
    | [.obj option] => return (schema.without keyword).putAll option
    | options => return schema.put keyword (.arr options)

/-- The schema without null as an allowed value and without null as its default. -/
def withoutNull (schema : Json) : Except Fault Json := do
  let ms ← schema.asObject
  let ms := match ms.get? "type" with
    | some (.arr types) => ms.put "type" (typeWithoutNull types)
    | _ => ms
  let ms ← unionWithoutNull "anyOf" ms
  let ms ← unionWithoutNull "oneOf" ms
  return .obj (match ms.get? "default" with
    | some .null => ms.without "default"
    | _ => ms)

end EditLens.Schema
