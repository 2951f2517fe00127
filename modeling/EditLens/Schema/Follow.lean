import EditLens.Noted
import EditLens.Schema.NullFree

/-!
Lenses on schemas. From the schema of the documents that a lens reads, the schema of the documents
that it writes is worked out, one lens operation after another.
-/
namespace EditLens

namespace Schema

def described (schema : Members) (name : Json) (step : SchemaStep) : Except Fault Json := do
  let properties ← properties schema
  match properties.get? (← name.asKey) with
  | some property => return property
  | none => throw (.undescribed step name)

def describe (schema : Members) (name property : Json) : Except Fault Members := do
  let properties ← properties schema
  return withProperties schema (properties.put (← name.asKey) property)

/-- The type and the default of a new property: one that is not given follows from the other. -/
def typeAndDefault (type default : Json) : Except Fault Members := do
  if type.isNull && default.isNull then throw .noType
  let type := if type.isNull then .str default.typeName else type
  let default ← if default.isNull then defaultOfType type else pure default
  return ([("type", type), ("default", default)] : Members)

def ofProperty (property : Property) : Except Fault Json := do
  let description ← typeAndDefault property.type property.default
  if (description.valueOf "type").isText "array" && property.items.truthy then
    let type ← property.items.lookup "type"
    let default ← property.items.lookup "default"
    return .obj (description.put "items" (.obj (← typeAndDefault type default)))
  return .obj description

def add (schema : Json) (property : Property) : Except Fault Members := do
  if !property.name.truthy then throw .noName
  let schema ← schema.asObject
  let properties ← properties schema
  let description ← ofProperty property
  let properties := properties.put (← property.name.asKey) description
  let names ← required schema
  let optional := property.required = .bool false
  return withRequired (withProperties schema properties)
    (if optional then names else enlisted names property.name)

def remove (schema : Members) (name : Json) : Noted Members := do
  let properties ← properties schema
  let key ← name.asKey
  if !properties.has key then Noted.note (.removingUndescribed name)
  let names ← required schema
  return withRequired (withProperties schema (properties.without key)) (unlisted names name)

def renameKey (properties : Members) (source destination : Scalar) : Members :=
  .ofEntries (properties.map fun m => (if m.1.same source then destination else m.1, m.2))

def rename (schema : Members) (source destination : Json) : Noted Members := do
  let properties ← properties schema
  let key ← source.asKey
  if properties.has key then
    let properties := renameKey properties key (← destination.asKey)
    let names ← required schema
    return withRequired (withProperties schema properties)
      (names.map fun n => if n.same source then destination else n)
  else
    Noted.note (.renamingUndescribed source)
    return schema

def hoist (schema : Members) (host name : Json) : Except Fault Members := do
  let hostSchema ← (← described schema host (.hoist name)).asObject
  let hostProperties ← properties hostSchema
  let key ← name.asKey
  let some hoisted := hostProperties.get? key | throw (.undescribedIn host name)
  let hostNames ← required hostSchema
  let hostSchema := withRequired (withProperties hostSchema (hostProperties.without key))
    (unlisted hostNames name)
  let properties ← properties schema
  let properties := (properties.put (← host.asKey) (.obj hostSchema)).put key hoisted
  let names ← required schema
  return withRequired (withProperties schema properties)
    (if listed hostNames name then enlisted names name else names)

def plunge (schema : Members) (host name : Json) : Noted Members := do
  let properties ← properties schema
  let hostKey ← host.asKey
  if !properties.has hostKey then Noted.stop (.undescribedHost host name)
  let key ← name.asKey
  match properties.get? key with
  | none =>
    Noted.note (.plungingUndescribed name)
    return schema
  | some plunged =>
    let properties := properties.without key
    let names ← required schema
    let hostSchema ← (← properties.demand hostKey).asObject
    let hostProperties := (← Schema.properties hostSchema).put key plunged
    let hostNames ← required hostSchema
    let hostNames := if listed names name then enlisted hostNames name else hostNames
    let hostSchema := withRequired (withProperties hostSchema hostProperties) hostNames
    return withRequired (withProperties schema (properties.put hostKey (.obj hostSchema)))
      (unlisted names name)

def wrap (schema : Members) (name : Json) : Except Fault Members := do
  let part ← described schema name .wrap
  let items ← withoutNull part
  describe schema name (.obj [("type", .str "array"), ("default", .arr []), ("items", items)])

def head (schema : Members) (name : Json) : Except Fault Members := do
  let part ← described schema name .head
  if !(← part.mentions "items") then
    if !(← part.lookup "type").isText "array" then throw (.notAnArray name)
  let part ← part.asObject
  let items := (part.get? "items").getD .emptyObject
  describe schema name (.obj [("anyOf", .arr [.obj [("type", .str "null")], items])])

def convert (schema : Members) (name : Json) (mapping : Mapping) (destinationType : Json) :
    Except Fault Members := do
  let part ← described schema name .convert
  if !destinationType.isNull then
    describe schema name (.obj [("type", destinationType)])
  else
    let converted ← part.asMembers
    let recode (v : Json) : Json := (mapping.recode? v).getD v
    let converted ← match converted.get? "enum" with
      | some values => do pure (converted.put "enum" (.arr ((← values.asList).map recode)))
      | none => pure converted
    let converted := match converted.get? "default" with
      | some value => converted.put "default" (recode value)
      | none => converted
    describe schema name (.obj converted)

def followFlat (schema : Json) : LensOp → Noted Json
  | .rename source destination => do
    return .obj (← rename (← schema.asObject) source destination)
  | .hoist host name => do return .obj (← hoist (← schema.asObject) host name)
  | .plunge host name => do return .obj (← plunge (← schema.asObject) host name)
  | .wrap name => do return .obj (← wrap (← schema.asObject) name)
  | .head name => do return .obj (← head (← schema.asObject) name)
  | .add property => do return .obj (← add schema property)
  | .remove property => do return .obj (← remove (← schema.asObject) property.name)
  | .convert name mapping _ destinationType => do
    return .obj (← convert (← schema.asObject) name mapping destinationType)
  | _ => return schema

end Schema

mutual

/-- One lens operation on a schema. A nested lens is followed through the schema of the member, or
of the elements if anything is known about them. -/
def LensOp.follow (schema : Json) : LensOp → Noted Json
  | .inside name lens => do
    let members ← schema.asObject
    let property ← Lens.follow (← Schema.described members name .inside) lens
    return .obj (← Schema.describe members name property)
  | .each lens => do
    if ← schema.mentions "items" then
      match schema with
      | .obj members =>
        let items ← Lens.follow (Members.valueOf members "items") lens
        return .obj (Members.put members "items" items)
      | _ => Noted.stop .wrongKind
    else if (← schema.lookup "type").isText "array" then return schema
    else Noted.stop .noElements
  | op => Schema.followFlat schema op

def Lens.follow (schema : Json) : Lens → Noted Json
  | [] => return schema
  | op :: rest => do Lens.follow (← LensOp.follow schema op) rest

end

end EditLens
