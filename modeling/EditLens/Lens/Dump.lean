import EditLens.Lens.Load

/-!
Writing lenses as data: each operation flat, with the fields that are not null, and nested lenses as
lists.
-/
namespace EditLens

def givenFields (fields : Fields) : Members :=
  (fields.filter fun f => !f.2.isNull).map fun f => (.str (Text.camelCase f.1), f.2)

def Property.toFields (p : Property) : Fields :=
  [("name", p.name), ("type", p.type), ("default", p.default), ("required", p.required),
    ("items", p.items)]

def Mapping.toJson (m : Mapping) : Json := .arr [.obj m.forward, .obj m.backward]

namespace LensKind

def dump (kind : LensKind) (fields : Fields) : Json :=
  .obj (("op", .str kind.tag) :: givenFields fields)

end LensKind

mutual

def LensOp.dump : LensOp → Json
  | .rename s d => LensKind.rename.dump [("source", s), ("destination", d)]
  | .hoist h n => LensKind.hoist.dump [("host", h), ("name", n)]
  | .plunge h n => LensKind.plunge.dump [("host", h), ("name", n)]
  | .wrap n => LensKind.wrap.dump [("name", n)]
  | .head n => LensKind.head.dump [("name", n)]
  | .add p => LensKind.add.dump p.toFields
  | .remove p => LensKind.remove.dump p.toFields
  | .inside n lens => LensKind.inside.dump [("name", n), ("lens", .arr (Lens.dumpAll lens))]
  | .each lens => LensKind.each.dump [("lens", .arr (Lens.dumpAll lens))]
  | .convert n mapping s d =>
    LensKind.convert.dump
      [("name", n), ("mapping", mapping.toJson), ("source_type", s), ("destination_type", d)]

def Lens.dumpAll : Lens → List Json
  | [] => []
  | op :: rest => op.dump :: Lens.dumpAll rest

end

namespace Lens

def dump (lens : Lens) : Json := .arr (dumpAll lens)

/-- The reverse of a lens given as data: data for a list that is not empty. -/
def reverseData (data : Json) : Except Fault (Lens ⊕ Json) := do
  let lens ← load data
  match data with
  | .arr (_ :: _) => return .inr (dump (reverse lens))
  | _ => return .inl (reverse lens)

end Lens

end EditLens
