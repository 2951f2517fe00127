import EditLens.Lens.Basic

/-! Lens operations as messages show them. -/
namespace EditLens

def showFields (name : String) (fields : List (String × String)) : String :=
  name ++ "(" ++ ", ".intercalate (fields.map fun f => f.1 ++ "=" ++ f.2) ++ ")"

def showList (texts : List String) : String := "[" ++ ", ".intercalate texts ++ "]"

def Property.fields (p : Property) : List (String × String) :=
  [("name", p.name.display), ("type", p.type.display), ("default", p.default.display),
    ("required", p.required.display), ("items", p.items.display)]

def Mapping.display (m : Mapping) : String :=
  (Json.arr [.obj m.forward, .obj m.backward]).display

mutual

def LensOp.display : LensOp → String
  | .rename s d =>
    showFields "RenameProperty" [("source", s.display), ("destination", d.display)]
  | .hoist h n => showFields "HoistProperty" [("host", h.display), ("name", n.display)]
  | .plunge h n => showFields "PlungeProperty" [("host", h.display), ("name", n.display)]
  | .wrap n => showFields "WrapProperty" [("name", n.display)]
  | .head n => showFields "HeadProperty" [("name", n.display)]
  | .add p => showFields "AddProperty" p.fields
  | .remove p => showFields "RemoveProperty" p.fields
  | .inside n lens =>
    showFields "LensIn" [("name", n.display), ("lens", showList (Lens.displays lens))]
  | .each lens => showFields "LensMap" [("lens", showList (Lens.displays lens))]
  | .convert n mapping s d =>
    showFields "ConvertValue" [("name", n.display), ("mapping", mapping.display),
      ("source_type", s.display), ("destination_type", d.display)]

def Lens.displays : Lens → List String
  | [] => []
  | op :: rest => op.display :: Lens.displays rest

end

end EditLens
