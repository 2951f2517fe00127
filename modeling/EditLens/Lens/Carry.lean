import EditLens.Noted

/-!
Lenses on operations of patches. A lens carries an operation on documents of the old shape into one
on documents of the new shape, or drops it if it means nothing there.
-/
namespace EditLens

namespace Path

def startsWith (path : Path) (name : Json) : Bool :=
  match path with
  | [] => false
  | token :: _ => name.isText token

/-- Cuts a path behind the first index that has something beneath it. -/
def cutAtIndex? : Path → Option (Path × Path)
  | token :: next :: rest =>
    if Pointer.isIndex token then some ([token], next :: rest)
    else (cutAtIndex? (next :: rest)).map fun (above, below) => (token :: above, below)
  | _ => none

end Path

/-- A write that is made anew, its path last. -/
def PatchOp.anew (op : String) (value : Json) (path : Path) : PatchOp :=
  PatchOp.withPath ⟨[("op", .str op), ("value", value)]⟩ path

namespace LensOp

/-- Writes to the first element of an array become writes to the scalar; other writes to the array
are not seen. Removing the first element leaves null. -/
def carryHead (name : Json) (p : PatchOp) (path : Path) : Except Fault (Option PatchOp) :=
  match path with
  | token :: "0" :: below => do
    if !name.isText token then return some p
    let target := name.plain :: below
    match ← p.verb with
    | .add => return some (.anew "add" p.value target)
    | .replace => return some (.anew "replace" p.value target)
    | .remove =>
      return some (if below.isEmpty then .anew "replace" .null target else p.withPath target)
    | .other => return some p
  | token :: _ => return if name.isText token then none else some p
  | [] => return some p

/-- Operations on the scalar become operations on the one element; writing null takes it away. -/
def carryWrap (name : Json) (p : PatchOp) (path : Path) : Except Fault (Option PatchOp) :=
  match path with
  | token :: below => do
    if !name.isText token then return some p
    let target := name.plain :: "0" :: below
    if (← p.verb).writes && p.value.isNull && below.isEmpty then
      return some (.remove target)
    return some (p.withPath target)
  | [] => return some p

def carryConvert (name : Json) (mapping : Mapping) (p : PatchOp) (path : Path) :
    Except Fault (Option PatchOp) := do
  if !(← p.verb).writes then return some p
  match path with
  | [token] =>
    if !name.isText token then return some p
    match mapping.recode? p.value with
    | some v => return some (p.withValue v)
    | none => throw (.unmapped p.value.entry)
  | _ => return some p

def carryFlat (op : LensOp) (p : PatchOp) (path : Path) : Except Fault (Option PatchOp) :=
  match op with
  | .rename source destination => do
    if (← p.verb).writes && path.startsWith source then
      return some (p.withPath (destination.plain :: path.tail))
    return some p
  | .hoist host name =>
    match path with
    | outer :: inner :: _ =>
      return some (if host.isText outer && name.isText inner then p.withPath path.tail else p)
    | _ => return some p
  | .plunge host name =>
    return some (if path.startsWith name then p.withPath (host.plain :: path) else p)
  | .wrap name => carryWrap name p path
  | .head name => carryHead name p path
  | .remove property => do
    match ← p.verb with
    | .other => return some p
    | _ => return if path.startsWith property.name then none else some p
  | .convert name mapping _ _ => carryConvert name mapping p path
  | _ => return some p

end LensOp

mutual

/-- One lens operation on an operation about the given path. A lens inside another one sees the path
below its place, which is put back on what comes out. -/
def LensOp.carry (p : PatchOp) (path : Path) : LensOp → Noted (Option PatchOp)
  | .inside name lens => do
    if !path.startsWith name then return some p
    match ← Lens.carry (p.withPath path.tail) lens with
    | none => return none
    | some q => return some (q.withPath (name.plain :: (← q.path)))
  | .each lens => do
    match path.cutAtIndex? with
    | none => return some p
    | some (above, below) =>
      match ← Lens.carry (p.withPath below) lens with
      | none => return none
      | some q => return some (q.withPath (above ++ (← q.path)))
  | op => op.carryFlat p path

def Lens.carry (p : PatchOp) : Lens → Noted (Option PatchOp)
  | [] => return some p
  | op :: rest => do
    match ← LensOp.carry p (← p.path) op with
    | none => do
      Noted.note (.dropped op p)
      return none
    | some q => Lens.carry q rest

end

namespace Lens

/-- A lens on any value: nothing is done to null, and an empty lens leaves all else as it is. -/
def carryValue (lens : Lens) : Json → Noted Json
  | .null => return .null
  | v => do
    if lens.isEmpty then return v
    match ← carry (← PatchOp.ofJson v) lens with
    | some q => return q.toJson
    | none => return .null

end Lens

end EditLens
