import EditLens.Noted
import EditLens.Patch.Apply
import EditLens.Schema.Locate

/-!
Filling in defaults. Wherever a patch makes an empty object, each member that the schema describes
there is added with its default value, and so on below the objects among these. The recursion goes
from a schema to the schema of a part, which is smaller.
-/
namespace EditLens

namespace Noted

variable {α β : Type}

def gather (f : α → Noted (List β)) : List α → Noted (List β)
  | [] => return []
  | a :: rest => do return (← f a) ++ (← gather f rest)

end Noted

namespace PatchOp

def makesObject (p : PatchOp) : Except Fault Bool := do
  return (← p.verb).writes && p.value = .emptyObject

end PatchOp

namespace Schema

/-- The schema of the part that a token leads to, of a union the alternative for a container. -/
def below (schema : Json) (token : String) : Except Fault Json := do
  container (← step schema token)

theorem below_weight_lt {schema found : Json} {token : String} {m : Scalar × Json} {ms : Members}
    (hm : memberSchemas schema = .ok (m :: ms)) (h : below schema token = .ok found) :
    found.weight < schema.weight := by
  simp only [below, bind, Except.bind] at h
  split at h
  · cases h
  rename_i part hp
  exact Nat.lt_of_le_of_lt (container_weight_le h) (step_weight_lt hm hp)

def noteFilled (path : Path) (defaults : Patch) : Noted Unit :=
  if defaults.isEmpty then return () else Noted.note (.filled defaults.length path)

def memberDefault (property : Json) : Except Fault (Option Json) :=
  if property.isObject then defaultOf property else .ok none

/-- The additions that fill the empty object at a path, described by the given schema. -/
def fill (path : Path) (schema : Json) : Noted Patch :=
  match _hm : memberSchemas schema with
  | .error fault => .stop fault
  | .ok [] => return []
  | .ok (first :: others) =>
    Noted.gather
      (fun m => do
        match ← memberDefault m.2 with
        | none => return []
        | some value =>
          let path := path ++ [m.1.plain]
          if value = .emptyObject then
            match _hb : below schema m.1.plain with
            | .error fault => .stop fault
            | .ok part =>
              let defaults ← fill path part
              noteFilled path defaults
              return .add path value :: defaults
          else return [.add path value])
      (first :: others)
termination_by schema.weight
decreasing_by exact below_weight_lt _hm _hb

def fillMember (path : Path) (schema : Json) (m : Scalar × Json) : Noted Patch := do
  match ← memberDefault m.2 with
  | none => return []
  | some value =>
    let path := path ++ [m.1.plain]
    if value = .emptyObject then
      let defaults ← fill path (← below schema m.1.plain)
      noteFilled path defaults
      return .add path value :: defaults
    else return [.add path value]

/-- An object is filled member by member. -/
theorem fill_eq (path : Path) (schema : Json) :
    fill path schema =
      (do Noted.gather (fillMember path schema) (← memberSchemas schema)) := by
  rw [fill]
  split
  · rename_i fault h
    rw [h, Noted.liftM_error, Noted.stop_bind]
  · rename_i h
    rw [h]
    rfl
  · rename_i first others h
    rw [h, Noted.liftM_ok_bind]
    congr 1
    funext m
    unfold fillMember
    congr 1
    funext found
    cases found with
    | none => rfl
    | some value =>
      dsimp only
      split
      · split
        · rename_i fault hb
          rw [hb, Noted.liftM_error, Noted.stop_bind]
        · rename_i part hb
          rw [hb, Noted.liftM_ok_bind]
      · rfl

def filledOp (schema : Json) (p : PatchOp) : Noted Patch := do
  if ← p.makesObject then
    let path ← p.path
    let defaults ← fill path (← locate schema path)
    noteFilled path defaults
    return p :: defaults
  else return [p]

/-- A patch with the defaults below each empty object that it makes. -/
def filled (schema : Json) (patch : Patch) : Noted Patch := Noted.gather (filledOp schema) patch

/-- The smallest document that a schema describes. -/
def minimal (schema : Json) : Noted Json := do
  let patch ← filled schema [.add [] .emptyObject]
  patch.apply .emptyObject

end Schema

end EditLens
