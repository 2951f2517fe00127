import EditLens.Lens.Carry
import EditLens.Patch.Describe
import EditLens.Patch.Expand
import EditLens.Schema.Fill
import EditLens.Schema.Follow
import EditLens.Schema.Infer

/-!
Converting patches and documents through a lens. A patch is taken in small steps, each step goes
through the lens by itself, and the objects that come out are filled in with the defaults of the new
shape. A document is converted as the patch that makes it.
-/
namespace EditLens

def Patch.expand : List Json → Except Fault Patch
  | [] => .ok []
  | v :: rest => do return (← (← PatchOp.ofJson v).expand) ++ (← expand rest)

namespace Lens

def carryAll (lens : Lens) : Patch → Noted Patch
  | [] => return []
  | p :: rest => do
    match ← carry p lens with
    | some q => return q :: (← carryAll lens rest)
    | none => carryAll lens rest

/-- The patch for the documents of the new shape. Values for the members that a patch for the
documents of the old shape says nothing about are filled in on demand. -/
def convertPatch (lens : Lens) (fillsDefaults : Bool) (schema patch : Json) : Noted Patch := do
  let steps ← Patch.expand (← patch.asList)
  let converted ← lens.carryAll steps
  Noted.note (.lensed steps.length converted.length)
  if fillsDefaults then Schema.filled (← follow schema lens) converted
  else return converted

end Lens

namespace Fault

def isMisfit : Fault → Bool
  | conflict => true
  | absentTarget => true
  | badPointer => true
  | _ => false

end Fault

/-- Applies an operation; removing what is not there leaves the document as it is. -/
def PatchOp.applyIfThere (p : PatchOp) (doc : Json) : Noted Json := do
  match p.apply doc with
  | .ok edited => return edited
  | .error fault =>
    if fault.isMisfit && (← p.verb) = .remove then
      Noted.note (.nothingToRemove (← p.path))
      return doc
    else Noted.stop fault

def Patch.applyIfThere (doc : Json) : Patch → Noted Json
  | [] => return doc
  | p :: rest => do Patch.applyIfThere (← p.applyIfThere doc) rest

namespace Lens

/-- The document of the new shape. It starts from the smallest one, over which the members of the
target are put, if there is one. A schema that is not given is inferred from the document. -/
def convertDocument (lens : Lens) (fillsDefaults : Bool) (document : Json) (schema? : Option Json)
    (target : Json) : Noted Json := do
  let schema := schema?.getD (Schema.infer document)
  let steps := .arr ((Patch.creating document).map PatchOp.toJson)
  let patch ← lens.convertPatch fillsDefaults schema steps
  let written ← follow schema lens
  Noted.note (.converted (← patch.describe))
  let base ← (← Schema.minimal written).asObject
  let target ← (target.orElse .emptyObject).asMembers
  patch.applyIfThere (.obj (base.putAll target))

end Lens

/-- A lens for both directions: patches for the old shape go right, and those for the new shape go
left. -/
structure LensPair where
  right : Lens
  left : Lens

def Lens.compile (lens : Lens) : LensPair := ⟨lens, reverse lens⟩

end EditLens
