import EditLens.Json.Lemmas
import EditLens.Patch.Basic
import EditLens.Pointer.Lemmas

/-!
Laws of operations of patches. Main statements: moving an operation sets its path and nothing else,
and moving it to where it is changes nothing.
-/
namespace EditLens.PatchOp

variable {p : PatchOp} {path : Path}

@[simp] theorem path_withPath : (p.withPath path).path = .ok path := by
  simp [PatchOp.path, withPath, Members.demand, bind, Except.bind]

@[simp] theorem verb_withPath : (p.withPath path).verb = p.verb := by
  simp [verb, withPath, Members.demand, Members.get?_put]

@[simp] theorem value_withPath : (p.withPath path).value = p.value := by
  simp [value, withPath, Members.valueOf, Members.get?_put]

@[simp] theorem withPath_withPath {other : Path} :
    (p.withPath other).withPath path = p.withPath path := by
  simp [withPath]

theorem withPath_of_path (h : p.path = .ok path) : p.withPath path = p := by
  obtain ⟨members⟩ := p
  simp only [PatchOp.path, Members.demand, bind, Except.bind] at h
  split at h
  · cases h
  · rename_i v hv
    split at hv
    · rename_i w hw
      obtain rfl := Except.ok.inj hv
      unfold Pointer.ofJson at h
      split at h
      · rename_i text
        split at h
        · rename_i found hs
          obtain rfl := Except.ok.inj h
          simp only [withPath, Pointer.join_of_split? hs, Members.put_of_get? hw]
        · cases h
      · cases h
    · cases hv

end EditLens.PatchOp
