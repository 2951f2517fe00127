import EditLens.Json.Reader
import EditLens.Lens.Fields
import EditLens.Text.FieldCase

/-!
Reading lenses. An operation is written flat, with its name under `op` beside its fields, or folded,
as the one member of an object that is named for it. A lens is written as the list of its
operations, as an object with that list under `lens`, or as the JSON text of either.
-/
namespace EditLens

/-- The name and the members of the data of an operation. Folded data may give a nested lens
directly, or nothing at all. -/
def LensOp.parts (data : Members) : Except Fault (Json × Members) :=
  match data.get? "op" with
  | some tag => .ok (tag, data.without "op")
  | none =>
    match data with
    | [(tag, .arr lens)] => .ok (.scalar tag, [("lens", .arr lens)])
    | [(tag, fields)] => do return (.scalar tag, ← (fields.orElse .emptyObject).asMembers)
    | _ => .error (.ambiguousData (.obj data))

def LensOp.plainFields (members : Members) : Except Fault Fields :=
  (members.filter fun m => m.1 ≠ .str "lens").mapM fun m =>
    match m.1 with
    | .str name => .ok (Text.snakeCase name, m.2)
    | _ => .error .wrongKind

def LensOp.ofParts (tag : Json) (members : Members) (nested : Except Fault (Option Lens)) :
    Except Fault LensOp := do
  let tag ← tag.asKey
  let some kind := LensKind.ofTag? tag | throw (.unknownOperation tag)
  let fields ← plainFields members
  let lens ← nested
  match kind.assemble fields lens with
  | .error .wrongKind => throw (.badFields kind.tag members)
  | built => built

abbrev TextReader := String → Except Fault Lens

mutual

/-- Reads a lens, leaving text to the given reader. -/
def Lens.ofJson (ofText : TextReader) : Json → Except Fault Lens
  | .arr ops => Lens.ofList ofText ops
  | .obj members => Lens.ofEntry ofText members
  | .str text => ofText text
  | v => .error (.notALens v)

def Lens.ofEntry (ofText : TextReader) : List (Scalar × Json) → Except Fault Lens
  | [] => .error .noLensEntry
  | (key, .arr ops) :: rest =>
    if key = .str "lens" then Lens.ofList ofText ops else Lens.ofEntry ofText rest
  | (key, v) :: rest =>
    if key = .str "lens" then .error (.notALens v) else Lens.ofEntry ofText rest

/-- Reads the operations of a list; null stands for none. -/
def Lens.ofList (ofText : TextReader) : List Json → Except Fault Lens
  | [] => .ok []
  | .scalar .null :: rest => Lens.ofList ofText rest
  | .obj data :: rest => do
    let (tag, members) ← LensOp.parts data
    let nested :=
      if Members.has data "op" then Lens.ofMember? ofText data else Lens.ofFolded? ofText data
    let op ← LensOp.ofParts tag members nested
    return op :: (← Lens.ofList ofText rest)
  | v :: _ => .error (.notOperationData v)

def Lens.ofMember? (ofText : TextReader) : List (Scalar × Json) → Except Fault (Option Lens)
  | [] => .ok none
  | (key, v) :: rest =>
    if key = .str "lens" then (Lens.ofJson ofText v).map some else Lens.ofMember? ofText rest

def Lens.ofFolded? (ofText : TextReader) : List (Scalar × Json) → Except Fault (Option Lens)
  | [(_, .arr ops)] => (Lens.ofList ofText ops).map some
  | [(_, .obj members)] => Lens.ofMember? ofText members
  | _ => .ok none

end

/-- Reads a lens from JSON text. A text inside the data of a text is shorter, so a bound above the
length of the text is never reached. -/
def Lens.ofText : Nat → TextReader
  | 0, _ => .error .malformedText
  | bound + 1, text =>
    match Json.parse? text with
    | none => .error .malformedText
    | some (.str inner) => .error (.notALens (.str inner))
    | some v => Lens.ofJson (Lens.ofText bound) v

mutual

def Json.textSize : Json → Nat
  | .str s => s.length
  | .scalar _ => 0
  | .arr es => elementsTextSize es
  | .obj ms => membersTextSize ms

def Json.elementsTextSize : List Json → Nat
  | [] => 0
  | e :: rest => e.textSize + elementsTextSize rest

def Json.membersTextSize : List (Scalar × Json) → Nat
  | [] => 0
  | (_, v) :: rest => v.textSize + membersTextSize rest

end

namespace Lens

def load (data : Json) : Except Fault Lens := ofJson (ofText (data.textSize + 1)) data

end Lens

def LensOp.load (data : Json) : Except Fault LensOp := do
  match data with
  | .obj _ =>
    match ← Lens.ofList (Lens.ofText (data.textSize + 1)) [data] with
    | [op] => return op
    | _ => throw (.notOperationData data)
  | v => throw (.notOperationData v)

end EditLens
