import EditLens.Json.Access

/-!
Lens operations. Each one is a small change of the shape of documents, and a lens is a list of them,
carried out from left to right. Names are the values that lens data gives; only text names a member.
-/
namespace EditLens

/-- The description of a property that comes or goes. What is null is left open. -/
structure Property where
  name : Json
  type : Json
  default : Json
  required : Json
  items : Json
  deriving DecidableEq

/-- The tables of a conversion: the one that is used, and the one that its reverse uses. -/
structure Mapping where
  forward : Members
  backward : Members
  deriving DecidableEq

inductive LensOp where
  /-- A member takes another name. -/
  | rename (source destination : Json)
  /-- A member of the object member `host` moves out of it. -/
  | hoist (host name : Json)
  /-- A member moves into the object member `host`. -/
  | plunge (host name : Json)
  /-- A scalar member becomes an array of one element. -/
  | wrap (name : Json)
  /-- An array member becomes its first element. -/
  | head (name : Json)
  | add (property : Property)
  | remove (property : Property)
  /-- A lens for the value of a member. -/
  | inside (name : Json) (lens : List LensOp)
  /-- A lens for each element of an array. -/
  | each (lens : List LensOp)
  /-- The value of a member is looked up in a table. -/
  | convert (name : Json) (mapping : Mapping) (sourceType destinationType : Json)

abbrev Lens := List LensOp

instance : Inhabited LensOp := ⟨.each []⟩

inductive LensKind where
  | rename
  | hoist
  | plunge
  | wrap
  | head
  | add
  | remove
  | inside
  | each
  | convert
  deriving DecidableEq

namespace LensKind

def tag : LensKind → String
  | rename => "rename"
  | hoist => "hoist"
  | plunge => "plunge"
  | wrap => "wrap"
  | head => "head"
  | add => "add"
  | remove => "remove"
  | inside => "in"
  | each => "map"
  | convert => "convert"

def all : List LensKind :=
  [rename, hoist, plunge, wrap, head, add, remove, inside, each, convert]

def ofTag? (tag : Scalar) : Option LensKind := all.find? fun kind => tag = .str kind.tag

end LensKind

namespace Mapping

def reverse (m : Mapping) : Mapping := ⟨m.backward, m.forward⟩

/-- The table by the entries of its keys; of keys with one entry, the last value counts. -/
def table (m : Mapping) : Members :=
  Members.ofEntries (m.forward.map fun e => (.str (Json.scalar e.1).entry, e.2))

def recode? (m : Mapping) (v : Json) : Option Json := m.table.get? v.entry

def same (a b : Mapping) : Bool :=
  (Json.obj a.forward).same (.obj b.forward) && (Json.obj a.backward).same (.obj b.backward)

/-- The table of a one-to-one table read from right to left; only scalars can become keys. -/
def invert (forward : Members) : Except Fault Members := do
  return Members.ofEntries (← forward.mapM fun e => do return (← e.2.asKey, .scalar e.1))

end Mapping

def Property.same (a b : Property) : Bool :=
  a.name.same b.name && a.type.same b.type && a.default.same b.default &&
    a.required.same b.required && a.items.same b.items

mutual

def LensOp.same : LensOp → LensOp → Bool
  | .rename s d, .rename t e => s.same t && d.same e
  | .hoist h n, .hoist g m => h.same g && n.same m
  | .plunge h n, .plunge g m => h.same g && n.same m
  | .wrap n, .wrap m => n.same m
  | .head n, .head m => n.same m
  | .add p, .add q => p.same q
  | .remove p, .remove q => p.same q
  | .inside n lens, .inside m mens => n.same m && Lens.same lens mens
  | .each lens, .each mens => Lens.same lens mens
  | .convert n map s d, .convert m nap t e => n.same m && map.same nap && s.same t && d.same e
  | _, _ => false

def Lens.same : Lens → Lens → Bool
  | [], [] => true
  | a :: as, b :: bs => a.same b && Lens.same as bs
  | _, _ => false

end

mutual

def LensOp.reverse : LensOp → LensOp
  | .rename s d => .rename d s
  | .hoist h n => .plunge h n
  | .plunge h n => .hoist h n
  | .wrap n => .head n
  | .head n => .wrap n
  | .add p => .remove p
  | .remove p => .add p
  | .inside n lens => .inside n (Lens.reverse lens)
  | .each lens => .each (Lens.reverse lens)
  | .convert n mapping s d => .convert n mapping.reverse d s

def Lens.reverse : Lens → Lens
  | [] => []
  | op :: rest => Lens.reverse rest ++ [op.reverse]

end

end EditLens
