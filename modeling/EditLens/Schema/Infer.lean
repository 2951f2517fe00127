import EditLens.Schema.Basic

/-!
Inferring a schema from sample values. What the samples have shown is a shape: the types in the
order of their appearance, the shape of all elements, and the shapes of the members by name.
-/
namespace EditLens

/-- The types that a sample can have. A number is whole until another one is seen. -/
inductive SampleType where
  | null
  | boolean
  | integer
  | number
  | string
  | array
  | object
  deriving DecidableEq

namespace SampleType

def name : SampleType → String
  | null => "null"
  | boolean => "boolean"
  | integer => "integer"
  | number => "number"
  | string => "string"
  | array => "array"
  | object => "object"

def ofScalar : Scalar → SampleType
  | .null => .null
  | .bool _ => .boolean
  | .int _ => .integer
  | .float _ => .number
  | .str _ => .string

/-- The types seen so far and one more. Whole numbers and others are one kind of value, named for
the wider type. -/
def insert (seen : List SampleType) (type : SampleType) : List SampleType :=
  match type with
  | integer => if seen.contains integer || seen.contains number then seen else seen ++ [integer]
  | number =>
    if seen.contains integer then seen.map fun t => if t = integer then number else t
    else if seen.contains number then seen
    else seen ++ [number]
  | type => if seen.contains type then seen else seen ++ [type]

end SampleType

/-- What samples have shown: their types, the shape of the elements of arrays, the shapes of the
members of objects, and the names that all objects have, once there was one. -/
inductive Shape where
  | mk (types : List SampleType) (elements : Option Shape) (members : List (Scalar × Shape))
    (always : Option (List Scalar))

namespace Shape

def unseen : Shape := .mk [] none [] none

def member? : List (Scalar × Shape) → Scalar → Option Shape
  | [], _ => none
  | (k, s) :: rest, key => if k.same key then some s else member? rest key

def putMember : List (Scalar × Shape) → Scalar → Shape → List (Scalar × Shape)
  | [], key, shape => [(key, shape)]
  | (k, s) :: rest, key, shape =>
    if k.same key then (k, shape) :: rest else (k, s) :: putMember rest key shape

def narrow (always : Option (List Scalar)) (names : List Scalar) : List Scalar :=
  match always with
  | none => names
  | some before => before.filter fun k => names.any fun n => n.same k

mutual

def observe (shape : Shape) (sample : Json) : Shape :=
  match shape, sample with
  | .mk types elements members always, .scalar s =>
    .mk (SampleType.insert types (.ofScalar s)) elements members always
  | .mk types elements members always, .arr es =>
    .mk (SampleType.insert types .array) (observeElements elements es) members always
  | .mk types elements members always, .obj ms =>
    .mk (SampleType.insert types .object) elements (observeMembers members ms)
      (some (narrow always (Members.keys ms)))

def observeElements (elements : Option Shape) : List Json → Option Shape
  | [] => elements
  | e :: rest => observeElements (some (observe (elements.getD unseen) e)) rest

def observeMembers (members : List (Scalar × Shape)) :
    List (Scalar × Json) → List (Scalar × Shape)
  | [] => members
  | (k, v) :: rest =>
    observeMembers (putMember members k (observe ((member? members k).getD unseen) v)) rest

end

def insertInOrder (name : String) : List String → List String
  | [] => [name]
  | first :: rest =>
    if name ≤ first then name :: first :: rest else first :: insertInOrder name rest

def inOrder (names : List String) : List String := names.foldr insertInOrder []

/-- The schema of one of several types, and the schemas that say more than a type. One schema stands
by itself, and without any there is nothing to say. -/
def union (plain : List SampleType) (others : List Members) : Members :=
  let names := inOrder (plain.map SampleType.name)
  let all : List Members :=
    match names with
    | [] => others
    | [name] => [("type", .str name)] :: others
    | names => [("type", .arr (names.map .str))] :: others
  match all with
  | [] => []
  | [schema] => schema
  | schemas => [("anyOf", .arr (schemas.map .obj))]

def requiredEntry (names : List Scalar) : Members :=
  match inOrder (names.map Scalar.plain) with
  | [] => []
  | sorted => [("required", .arr (sorted.map .str))]

mutual

def toMembers : Shape → Members
  | .mk types elements members always =>
    let items : Members :=
      match elements with
      | some shape => [("items", .obj (toMembers shape))]
      | none => []
    let properties : Members :=
      match members with
      | [] => []
      | first :: rest => [("properties", .obj (memberSchemas (first :: rest)))]
    let details (type : SampleType) : Members :=
      match type with
      | .array => items
      | .object => properties ++ requiredEntry (always.getD [])
      | _ => []
    let plain := types.filter fun type => (details type).isEmpty
    let others := types.filter fun type => !(details type).isEmpty
    union plain (others.map fun type => ("type", .str type.name) :: details type)

def memberSchemas : List (Scalar × Shape) → Members
  | [] => []
  | (k, shape) :: rest => (k, .obj (toMembers shape)) :: memberSchemas rest

end

end Shape

namespace Schema

def infer (sample : Json) : Json :=
  .obj (("$schema", .str "http://json-schema.org/schema#") ::
    (Shape.unseen.observe sample).toMembers)

end Schema

end EditLens
