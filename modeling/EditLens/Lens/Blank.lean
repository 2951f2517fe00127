import EditLens.Patch.Basic

/-!
The operation without a kind. It says nothing about documents, so whatever it is asked for is a
fault, but it can be shown and written as data.
-/
namespace EditLens.BlankOp

def display : String := "LensOp()"

def dump : Json := .obj [("op", .null)]

/-- Nothing is done to null; the path of an operation is looked at before the request fails. -/
def carry : Json → Except Fault Json
  | .null => .ok .null
  | v => do
    let _ ← (← PatchOp.ofJson v).path
    throw (.undefinedRequest .carry)

def reverse : Except Fault Json := .error (.undefinedRequest .reverse)

def follow : Except Fault Json := .error (.undefinedRequest .follow)

end EditLens.BlankOp
