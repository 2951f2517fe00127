import EditLens.Proofs.Lens.Unmapped
import EditLens.Proofs.Patch.Filling

/-! Writes to a scalar that has become the one element of an array. Main statement: for which writes the
carried one does to the array what the write does to the scalar. -/
namespace EditLens

/-- A scalar in an array of its own. Null is no element. -/
def Scalar.wrapped : Scalar → Json
  | .null => .arr []
  | s => .arr [.scalar s]

private theorem Scalar.wrapped_of_ne {s : Scalar} (h : s ≠ .null) : s.wrapped = .arr [.scalar s] := by
  cases s <;> first | rfl | exact absurd rfl h

private theorem Scalar.isDocument_wrapped (s : Scalar) : s.wrapped.isDocument = true := by
  cases s <;> rfl

namespace Edit

/-- An edit at the first element of an array that is a member. -/
private theorem apply_first (e : Edit) (ms : Members) (name : String) (es : List Json) :
    e.apply [name, "0"] (.obj (ms.put name (.arr es))) = (do
      return .obj (ms.put name (.arr (← e.onElement es 0)))) := by
  have hfirst : e.apply ["0"] (.arr es) = (do return .arr (← e.onElement es 0)) := by
    simp only [apply, onPart, show Pointer.position? "0" = some 0 from rfl]
    rfl
  rw [apply_cons_obj, Members.get?_put_self, onMemberAt, hfirst]
  cases e.onElement es 0 with
  | error fault => rfl
  | ok es' => exact congrArg (fun ns => Except.ok (Json.obj ns)) Members.put_put

end Edit

namespace Lens

variable {ms : Members} {name : String} {old new : Scalar} {w : Write} {p : PatchOp}

/-- A write at the scalar comes out as a removal if it writes null, and else at the one element. -/
private theorem exists_carry_wrap (hp : p.Edits (w.edit (.scalar new)) [name]) :
    ∃ q, (Lens.carry p [.wrap (.str name)]).outcome = .ok (some q) ∧
      q.Edits (if new = .null then .remove else w.edit (.scalar new)) [name, "0"] := by
  have hvalue := PatchOp.value_of_edit hp.edit (w.written?_edit _)
  have hnull : (Json.scalar new).isNull = decide (new = .null) := by cases new <;> rfl
  rw [outcome_carry_cons hp.path, LensOp.outcome_carry_wrap hp.edit, hvalue, hnull]
  by_cases hnew : new = .null
  · exact ⟨.remove [name, "0"], by simp [hnew], by simpa [hnew] using PatchOp.edits_remove _⟩
  · exact ⟨p.withPath [name, "0"], by simp [hnew], by simpa [hnew] using hp.withPath _⟩

/-- What the carried write makes of the array. Adding puts a value in front of the one that is there, and
there is nothing to replace in the array of a null. -/
private theorem applyIfThere_first (w : Write) (ms : Members) (name : String) (old new : Scalar) :
    (if new = .null then Edit.remove else w.edit (.scalar new)).applyIfThere [name, "0"]
        (.obj (ms.put name old.wrapped)) =
      if new = .null ∨ (w = .add ↔ old = .null) then .ok (.obj (ms.put name new.wrapped))
      else if w = .add then .ok (.obj (ms.put name (.arr [.scalar new, .scalar old])))
      else .error .absentTarget := by
  by_cases hold : old = .null
  · subst hold
    have hempty : Scalar.null.wrapped = .arr [] := rfl
    by_cases hnew : new = .null
    · simp [Edit.applyIfThere, Edit.apply_first, Edit.onElement, hnew, hempty, bind, Except.bind, Fault.isMisfit]
    · cases w <;> simp [Edit.applyIfThere, Edit.apply_first, Edit.onElement, Write.edit, hnew, hempty,
        Scalar.wrapped_of_ne hnew, bind, Except.bind, pure, Except.pure]
  · by_cases hnew : new = .null
    · subst hnew
      simp [Edit.applyIfThere, Edit.apply_first, Edit.onElement, bind, Except.bind, pure, Except.pure,
        Scalar.wrapped]
    · cases w <;> simp [Edit.applyIfThere, Edit.apply_first, Edit.onElement, Write.edit, hnew, hold,
        Scalar.wrapped_of_ne hold, Scalar.wrapped_of_ne hnew, bind, Except.bind, pure, Except.pure]

/-- A lens that wraps a scalar carries a write to it into one that does the same to the wrapped scalar, if
it writes null, adds to a null or replaces another scalar; and otherwise it does not. The write itself
applies in any case. -/
theorem carry_wrap_faithful_iff (hdoc : (Json.obj ms).isDocument = true)
    (hold : ms.get? name = some (.scalar old)) (hp : p.Edits (w.edit (.scalar new)) [name]) :
    p.apply (.obj ms) = .ok (.obj (ms.put name (.scalar new))) ∧
      ∃ q, (Lens.carry p [.wrap (.str name)]).outcome = .ok (some q) ∧
        ((∃ result, (q.applyIfThere (.obj (ms.put name old.wrapped))).outcome = .ok result ∧
            result.same (.obj (ms.put name new.wrapped)) = true) ↔
          new = .null ∨ (w = .add ↔ old = .null)) := by
  have happly : (w.edit (.scalar new)).apply [name] (.obj ms) =
      .ok (.obj (ms.put name (.scalar new))) := by
    rw [Edit.apply_cons_obj, hold, Edit.onMemberAt_nil_some, Write.written?_edit]
    rfl
  obtain ⟨q, hq, hqe⟩ := exists_carry_wrap hp
  refine ⟨by rw [hp.apply_eq, happly], q, hq, ?_⟩
  rw [hqe.outcome_applyIfThere, applyIfThere_first]
  by_cases hfaithful : new = .null ∨ (w = .add ↔ old = .null)
  · have hresult : (Json.obj (ms.put name new.wrapped)).isDocument = true := by
      rw [Json.isDocument_obj] at hdoc ⊢
      exact hdoc.put name new.isDocument_wrapped
    simpa [hfaithful] using Json.same_of_tree hresult hresult rfl
  · rw [if_neg hfaithful]
    obtain ⟨hnew, hkind⟩ := not_or.1 hfaithful
    split
    · -- Adding to a scalar makes an array of two elements.
      suffices hne : (Json.obj (ms.put name (.arr [.scalar new, .scalar old]))).same
          (.obj (ms.put name new.wrapped)) ≠ true by simpa [hfaithful] using hne
      intro hsame
      rw [Scalar.wrapped_of_ne hnew] at hsame
      exact absurd (Json.sameElements_iff.1 (Json.same_of_same_put hsame)).length_eq (by simp)
    · simp [hfaithful]

/-- A replaced text, in an object with another member. -/
theorem carry_wrap_faithful_iff_items :
    let ms : Members := [("x", .str "a"), ("y", .null)]
    let p : PatchOp := .replace ["x"] (.str "b")
    p.apply (.obj ms) = .ok (.obj [("x", .str "b"), ("y", .null)]) ∧
      ∃ q, (Lens.carry p [.wrap (.str "x")]).outcome = .ok (some q) ∧
        ∃ result, (q.applyIfThere (.obj [("x", .arr [.str "a"]), ("y", .null)])).outcome = .ok result ∧
          result.same (.obj [("x", .arr [.str "b"]), ("y", .null)]) = true := by
  intro ms p
  obtain ⟨happly, q, hq, hiff⟩ := @carry_wrap_faithful_iff ms "x" (.str "a") (.str "b") .replace p
    (by decide) rfl ⟨PatchOp.edit_replace _, by
      simp [p, PatchOp.path, PatchOp.replace, Members.demand, Members.get?_cons]⟩
  exact ⟨happly, q, hq, hiff.2 (.inr (by simp))⟩

/-- Adding to a scalar that is there does not set the one element of the array but puts another one in
front of it. -/
theorem carry_wrap_add_keeps_old :
    ∃ q, (Lens.carry (.add ["x"] (.int 1)) [.wrap (.str "x")]).outcome = .ok (some q) ∧
      (PatchOp.add ["x"] (.int 1)).apply (.obj [("x", .int 0)]) = .ok (.obj [("x", .int 1)]) ∧
      ∃ result, (q.applyIfThere (.obj [("x", (Scalar.int 0).wrapped)])).outcome = .ok result ∧
        result = .obj [("x", .arr [.int 1, .int 0])] ∧
        result.same (.obj [("x", (Scalar.int 1).wrapped)]) = false :=
  ⟨(PatchOp.add ["x"] (.int 1)).withPath ["x", "0"], by cbv, by cbv, _, by cbv, rfl, by cbv⟩

end Lens

end EditLens
