import EditLens.Json.Scalar

/-!
JSON values with ordered members, and the members of an object as a list of entries.
-/
namespace EditLens

inductive Json where
  | scalar (s : Scalar)
  | arr (elements : List Json)
  | obj (members : List (Scalar × Json))
  deriving Inhabited, Repr

/-- The members of an object, in their order; an object has one member for each key. -/
abbrev Members := List (Scalar × Json)

namespace Members

def get? : Members → Scalar → Option Json
  | [], _ => none
  | (k, v) :: rest, key => if k.same key then some v else get? rest key

def has (ms : Members) (key : Scalar) : Bool := (get? ms key).isSome

/-- Sets a member: one that is there keeps its place and the spelling of its key, and a new one
goes to the end. -/
def put : Members → Scalar → Json → Members
  | [], key, value => [(key, value)]
  | (k, v) :: rest, key, value =>
    if k.same key then (k, value) :: rest else (k, v) :: put rest key value

def without (ms : Members) (key : Scalar) : Members := ms.filter fun m => !m.1.same key

def putAll (ms extra : Members) : Members := extra.foldl (fun all m => put all m.1 m.2) ms

/-- The object with the given entries: of those with one key, the first place and the last value. -/
def ofEntries (entries : List (Scalar × Json)) : Members := putAll [] entries

def keys (ms : Members) : List Scalar := ms.map Prod.fst

end Members

namespace Json

@[match_pattern] abbrev null : Json := .scalar .null
@[match_pattern] abbrev bool (b : Bool) : Json := .scalar (.bool b)
@[match_pattern] abbrev int (n : Int) : Json := .scalar (.int n)
@[match_pattern] abbrev float (x : Binary64) : Json := .scalar (.float x)
@[match_pattern] abbrev str (s : String) : Json := .scalar (.str s)

def emptyObject : Json := .obj []

def isNull : Json → Bool
  | .null => true
  | _ => false

def isObject : Json → Bool
  | .obj _ => true
  | _ => false

def isText (v : Json) (s : String) : Bool :=
  match v with
  | .str t => t == s
  | _ => false

end Json

end EditLens
