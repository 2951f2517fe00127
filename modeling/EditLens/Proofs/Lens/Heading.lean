import EditLens.Proofs.Json.Document
import EditLens.Proofs.Lens.Carry

/-! Writes to an array of which only the first element is left. Main statement: what comes out for a write to one of
the elements does to the first element what the write does to the array, unless a value is appended to an array that
has no elements yet. -/
namespace EditLens

namespace Json

/-- The object in which a member that is an array gives way to its first element, or to null if it has none. -/
def headed (name : String) : Json → Json
  | .obj ms =>
    match Members.get? ms name with
    | some (.arr es) => .obj (Members.put ms name (es.headD .null))
    | _ => .obj ms
  | v => v

private theorem headed_of_get? {ms : Members} {name : String} {es : List Json} (h : ms.get? name = some (.arr es)) :
    (Json.obj ms).headed name = .obj (ms.put name (es.headD .null)) := by
  rw [headed, h]

@[simp] theorem headed_put (ms : Members) (name : String) (es : List Json) :
    (Json.obj (ms.put name (.arr es))).headed name = .obj (ms.put name (es.headD .null)) := by
  rw [headed_of_get? Members.get?_put_self, Members.put_put]

end Json

namespace Edit

variable {es es' : List Json} {v : Json} {w : Write} {i : Nat}

/-- A write to the first element, in front of it or in its place, makes the value the first one. -/
private theorem headD_onElement_zero (h : (w.edit v).onElement es 0 = .ok es') : es'.headD .null = v := by
  cases w with
  | add =>
    obtain rfl := Except.ok.inj h
    rfl
  | replace =>
    cases es with
    | nil => cases h
    | cons e rest =>
      obtain rfl := Except.ok.inj h
      rfl

/-- A write to a later element leaves the first one as it is. -/
private theorem headD_onElement_succ (h : (w.edit v).onElement es (i + 1) = .ok es') :
    es'.headD .null = es.headD .null := by
  cases w with
  | add =>
    simp only [Write.edit, onElement] at h
    split at h
    · obtain rfl := Except.ok.inj h
      cases es <;> simp
    · cases h
  | replace =>
    simp only [Write.edit, onElement] at h
    split at h
    · obtain rfl := Except.ok.inj h
      cases es <;> rfl
    · cases h

/-- Nothing but a value can be put behind the last element; it is the first one if there was none. -/
private theorem headD_atEnd (h : (w.edit v).atEnd es = .ok es') :
    es'.headD .null = if es = [] then v else es.headD .null := by
  cases w with
  | add =>
    obtain rfl := Except.ok.inj h
    cases es <;> rfl
  | replace => cases h

end Edit

namespace Lens

variable {ms : Members} {name token : String} {es es' : List Json} {v doc' : Json} {w : Write} {p : PatchOp}

/-- Whether what came out for an operation does to the first element of an array what the operation did to the
array; where nothing came out, nothing is to be done. -/
def HeadFollows (name : String) (found : Option PatchOp) (doc doc' : Json) : Prop :=
  match found with
  | none => (doc'.headed name).same (doc.headed name) = true
  | some q => q.apply (doc.headed name) = .ok (doc'.headed name)

/-- A write to the first element comes out as one that sets the member. -/
private theorem headFollows_first (ms : Members) (name : String)
    (hes' : (w.edit v).onElement es 0 = .ok es') :
    HeadFollows name (some (.anew w.name v [name])) (.obj (ms.put name (.arr es))) (.obj (ms.put name (.arr es'))) := by
  have hedits := (PatchOp.Writes.anew w [name] v).edits
  rw [HeadFollows, hedits.apply_eq, Json.headed_put, Json.headed_put, Edit.headD_onElement_zero hes',
    Edit.apply_cons_obj, Members.get?_put_self, Edit.onMemberAt_nil_some, Write.written?_edit]
  exact congrArg (fun ns => Except.ok (Json.obj ns)) Members.put_put

/-- A write that is not seen leaves the first element as it is, or the array had none. -/
private theorem headFollows_dropped_iff (token : String) (es' : List Json)
    (hdoc : (Json.obj (ms.put name (.arr es))).isDocument = true)
    (hhead : es'.headD .null = if es = [] ∧ token = "-" then v else es.headD .null) :
    HeadFollows name none (.obj (ms.put name (.arr es))) (.obj (ms.put name (.arr es'))) ↔
      ¬ (es = [] ∧ token = "-" ∧ v ≠ .null) := by
  have hheaded : (Json.obj (ms.put name (es.headD .null))).isDocument = true := by
    rw [Json.isDocument_obj] at hdoc ⊢
    have hes : (Json.arr es).isDocument = true := hdoc.part Members.get?_put_self
    have hput := hdoc.put name (v := es.headD .null) ?_
    · rwa [Members.put_put] at hput
    · cases es with
      | nil => rfl
      | cons e rest => exact Json.isDocument_arr.1 hes e List.mem_cons_self
  have hsame := Json.same_of_tree hheaded hheaded rfl
  rw [HeadFollows, Json.headed_put, Json.headed_put, hhead]
  by_cases happended : es = [] ∧ token = "-"
  · obtain ⟨rfl, rfl⟩ := happended
    by_cases hv : v = .null
    · subst hv
      simpa using hsame
    · simp only [and_self, if_true, ne_eq, hv, not_false_eq_true, not_true_eq_false, iff_false]
      intro h
      exact hv (Json.eq_null_of_same (Json.same_of_same_put h))
  · rw [if_neg happended]
    exact iff_of_true hsame fun h => happended ⟨h.1, h.2.1⟩

/-- A lens that takes the first element of an array follows the writes to the elements, unless a value other than
null is appended where there are none: the path does not tell that this makes it the first one. -/
theorem carry_head_follows_iff (hdoc : (Json.obj ms).isDocument = true) (hes : ms.get? name = some (.arr es))
    (hp : p.Edits (w.edit v) [name, token]) (happly : p.apply (.obj ms) = .ok doc') :
    ∃ found, (Lens.carry p [.head (.str name)]).outcome = .ok found ∧
      (HeadFollows name found (.obj ms) doc' ↔ ¬ (es = [] ∧ token = "-" ∧ v ≠ .null)) := by
  obtain ⟨result, hresult, rfl⟩ := Edit.apply_cons_obj_eq_ok.1 ((hp.apply_eq _).symm.trans happly)
  rw [hes] at hresult
  obtain ⟨-, hremove, -⟩ | ⟨array, rfl, harray⟩ := Edit.onMemberAt_some hresult
  · cases w <;> cases hremove
  have hput : ms.put name (.arr es) = ms := Members.put_of_get? hes
  rw [← hput] at hdoc
  rw [outcome_carry_cons hp.path]
  -- the token is the end of the array or an index, and of all of these only the index 0 is seen
  obtain ⟨es', rfl, ⟨rfl, hes'⟩ | ⟨i, rfl, hes'⟩⟩ := Edit.apply_arr_eq_ok.1 harray
  · refine ⟨none, by rw [LensOp.outcome_carry_head_beside (by decide)]; rfl, ?_⟩
    have hdropped := headFollows_dropped_iff "-" es' hdoc (by simpa using Edit.headD_atEnd hes')
    rwa [hput] at hdropped
  · have htoken : i.repr ≠ "-" := fun h => by
      have := Pointer.position?_repr i
      rw [h] at this
      cases this
    cases i with
    | zero =>
      refine ⟨some (.anew w.name v [name]), ?_, iff_of_true ?_ fun h => htoken h.2.1⟩
      · rw [show (0 : Nat).repr = "0" from rfl, LensOp.outcome_carry_head_first hp.edit]
        rfl
      · have hfirst := headFollows_first ms name hes'
        rwa [hput] at hfirst
    | succ i =>
      have hne : (i + 1).repr ≠ "0" := fun h => by
        have := Pointer.repr_injective (i := i + 1) (j := 0) h
        omega
      refine ⟨none, by rw [LensOp.outcome_carry_head_beside hne]; rfl, ?_⟩
      have hdropped := headFollows_dropped_iff (i + 1).repr es' hdoc (v := v)
        (by rw [if_neg fun h => htoken h.2, Edit.headD_onElement_succ hes'])
      rwa [hput] at hdropped

/-- A text put in front of the elements, in an object with another member. -/
theorem carry_head_follows_iff_items :
    let doc : Json := .obj [("x", .arr [.int 1, .null]), ("y", .null)]
    let p : PatchOp := .add ["x", "0"] (.str "a")
    ∃ doc', p.apply doc = .ok doc' ∧ ∃ found, (Lens.carry p [.head (.str "x")]).outcome = .ok found ∧
      HeadFollows "x" found doc doc' := by
  intro doc p
  have hp : p.Edits (Write.add.edit (.str "a")) ["x", "0"] := (PatchOp.Writes.toOp .add _ _).edits
  have happly : p.apply doc = .ok (.obj [("x", .arr [.str "a", .int 1, .null]), ("y", .null)]) := by
    rw [hp.apply_eq]
    rfl
  obtain ⟨found, hfound, hiff⟩ := carry_head_follows_iff (by decide) rfl hp happly
  exact ⟨_, happly, found, hfound, hiff.2 (by simp)⟩

/-- The first element of an array that had none is appended unseen: the member stays null. -/
theorem carry_head_misses_first :
    let doc : Json := .obj [("x", .arr [])]
    let p : PatchOp := .add ["x", "-"] (.int 1)
    ∃ doc', p.apply doc = .ok doc' ∧ (Lens.carry p [.head (.str "x")]).outcome = .ok none ∧
      doc'.headed "x" = .obj [("x", .int 1)] ∧ doc.headed "x" = .obj [("x", .null)] ∧
      (doc'.headed "x").same (doc.headed "x") = false :=
  ⟨.obj [("x", .arr [.int 1])], by cbv, by cbv, rfl, rfl, by cbv⟩

end Lens

end EditLens
