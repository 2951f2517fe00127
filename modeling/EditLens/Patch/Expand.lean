import EditLens.Patch.Basic

/-!
Patches in small steps. A write of a container becomes the write of an empty container and one write
for each of its parts, down to the scalars, so that each operation is about one place only.
-/
namespace EditLens

inductive Write where
  | add
  | replace
  deriving DecidableEq

namespace Write

def toOp : Write → Path → Json → PatchOp
  | .add => .add
  | .replace => .replace

mutual

/-- The writes that make up the write of a value at a path. -/
def steps (w : Write) (path : Path) : Json → Patch
  | .scalar s => [w.toOp path (.scalar s)]
  | .arr es => w.toOp path (.arr []) :: elementSteps w path 0 es
  | .obj ms => w.toOp path (.obj []) :: memberSteps w path ms

def elementSteps (w : Write) (path : Path) (i : Nat) : List Json → Patch
  | [] => []
  | e :: rest => steps w (path ++ [toString i]) e ++ elementSteps w path (i + 1) rest

def memberSteps (w : Write) (path : Path) : List (Scalar × Json) → Patch
  | [] => []
  | (k, v) :: rest => steps w (path ++ [k.plain]) v ++ memberSteps w path rest

end

end Write

def Verb.write? : Verb → Option Write
  | .add => some .add
  | .replace => some .replace
  | _ => none

namespace PatchOp

/-- Only writes of containers come apart; all else, malformed paths too, stays as it is. -/
def expand (p : PatchOp) : Except Fault Patch := do
  match (← p.verb).write?, p.value with
  | some _, .scalar _ => return [p]
  | some w, value => return w.steps (← p.path) value
  | none, _ => return [p]

end PatchOp

/-- The patch that makes a document from an empty object: one addition for each member, or the
replacement of the whole. -/
def Patch.creating : Json → Patch
  | .obj ms => ms.map fun m => .add [m.1.plain] m.2
  | doc => [.replace [] doc]

end EditLens
