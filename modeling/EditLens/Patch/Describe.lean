import EditLens.Patch.Basic

/-! One line for each operation of a patch: what it does, its path and the value it writes. -/
namespace EditLens

namespace PatchOp

def describe (p : PatchOp) : Except Fault String := do
  let head := (← p.members.demand "op").plain ++ " " ++ (← p.members.demand "path").display
  match p.members.get? "value" with
  | some v => return head ++ " " ++ v.display
  | none => return head

end PatchOp

def lines (texts : List String) : String := "\n".intercalate texts

def Patch.describe (patch : Patch) : Except Fault String := do
  return lines (← patch.mapM PatchOp.describe)

end EditLens
