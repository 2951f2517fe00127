import EditLens.Lens.Fields

/-! A shorter way to write a conversion: by its table alone, if the table is one-to-one. -/
namespace EditLens.LensOp

/-- The conversion by the given tables. Without a table for the way back, the first one is read from
right to left. -/
def converting (name forward backward sourceType destinationType : Json) : Except Fault LensOp := do
  let backward ←
    if backward.isNull then do pure (Json.obj (← Mapping.invert (← forward.asObject)))
    else pure backward
  return .convert name (← Mapping.ofJson (.arr [forward, backward])) sourceType destinationType

end EditLens.LensOp
