import EditLens.Lens.Carry
import EditLens.Patch.Expand
import EditLens.Proofs.Json.Document

/-! Operations that add or replace a value and have no fields but those for it, in any order. Main
statement: two such operations with equal values at one path are equal as data. -/
namespace EditLens

/-- Null equals nothing but itself. -/
private theorem Scalar.eq_null_of_same {s : Scalar} (h : Scalar.null.same s = true) : s = .null := by
  have hs : Scalar.null.canonical = s.canonical := Scalar.same_iff.1 h
  cases s with
  | null => rfl
  | float x => cases hx : x.integer? <;> simp [Scalar.canonical, hx] at hs
  | _ => cases hs

namespace Json

def isPlain : Json → Bool
  | .null => false
  | .scalar _ => true
  | .arr es => es.isEmpty
  | .obj ms => ms.isEmpty

theorem isNull_iff {v : Json} : v.isNull = true ↔ v = .null := by
  constructor
  · intro h
    unfold isNull at h
    split at h
    · rfl
    · cases h
  · rintro rfl
    rfl

/-- Equal values that tables of conversions do not tell apart. -/
def Alike (v w : Json) : Prop := v.same w = true ∧ v.entry = w.entry

theorem Alike.refl_of_isPlain {v : Json} (h : v.isPlain = true) : v.Alike v := by
  refine ⟨?_, rfl⟩
  cases v with
  | scalar s => simp [same]
  | arr es => rw [List.isEmpty_iff.1 h]; rfl
  | obj ms => rw [List.isEmpty_iff.1 h]; rfl

theorem Alike.isNull_eq_false {v w : Json} (h : v.Alike w) (hw : w.isPlain = true) :
    v.isNull = false := by
  unfold isNull
  split
  · cases w with
    | scalar s =>
      obtain rfl := Scalar.eq_null_of_same h.1
      cases hw
    | _ => cases h.1
  · rfl

theorem eq_null_of_same {v : Json} (h : v.same .null = true) : v = .null := by
  cases v with
  | scalar s =>
    obtain rfl := Scalar.eq_null_of_same ((Scalar.same_comm _ _).trans h)
    rfl
  | arr es => cases h
  | obj ms => cases h

/-- Equal objects have equal values under each name. -/
theorem same_of_same_put {ms : Members} {key : Scalar} {v w : Json}
    (h : (Json.obj (ms.put key v)).same (.obj (ms.put key w)) = true) : v.same w = true := by
  rw [Json.same, Bool.and_eq_true, sameMembers_iff] at h
  obtain ⟨k, hmem, hk⟩ := Members.exists_mem_of_get? (@Members.get?_put_self ms key v)
  obtain ⟨u, hu, hsame⟩ := h.2 _ hmem
  rw [Members.get?_congr hk, Members.get?_put_self] at hu
  exact Option.some.inj hu ▸ hsame

end Json

namespace Write

def name : Write → String
  | .add => "add"
  | .replace => "replace"

def edit : Write → Json → Edit
  | .add => .add
  | .replace => .replace

@[simp] theorem written?_edit (w : Write) (v : Json) : (w.edit v).written? = some v := by
  cases w <;> rfl

@[simp] theorem withValue_edit (w : Write) (v u : Json) : (w.edit v).withValue u = w.edit u := by
  cases w <;> rfl

def fields (w : Write) (path : Path) (v : Json) : Members :=
  [("op", .str w.name), ("path", .str (Pointer.join path)), ("value", v)]

private theorem members_toOp (w : Write) (path : Path) (v : Json) :
    (w.toOp path v).members = w.fields path v := by
  cases w <;> rfl

theorem fields_distinct (w : Write) (path : Path) (v : Json) : (w.fields path v).Distinct := by
  simp [Members.Distinct, fields]

end Write

/-- An operation with the fields of a write, in any order, and no others. -/
def PatchOp.Writes (p : PatchOp) (w : Write) (path : Path) (v : Json) : Prop :=
  p.members.Perm (w.fields path v)

namespace PatchOp.Writes

variable {p q : PatchOp} {w : Write} {path : Path} {v u : Json}

theorem toOp (w : Write) (path : Path) (v : Json) : (w.toOp path v).Writes w path v := by
  rw [PatchOp.Writes, Write.members_toOp]

private theorem get? (h : p.Writes w path v) (key : Scalar) :
    p.members.get? key = (w.fields path v).get? key :=
  Members.get?_perm h (w.fields_distinct path v)

theorem edits (h : p.Writes w path v) : p.Edits (w.edit v) path := by
  constructor
  · rw [PatchOp.edit, h.get?, h.get?]
    cases w <;> simp [Write.fields, Write.name, Write.edit, Members.get?_cons, Verb.ofJson]
  · simp [PatchOp.path, Members.demand, h.get?, Write.fields, Members.get?_cons, bind, Except.bind]

theorem unique {path' : Path} (h : p.Writes w path v) (h' : p.Writes w path' u) :
    path = path' ∧ v = u := by
  have hedit : w.edit v = w.edit u := Except.ok.inj (h.edits.edit.symm.trans h'.edits.edit)
  exact ⟨Except.ok.inj (h.edits.path.symm.trans h'.edits.path),
    by simpa using congrArg Edit.written? hedit⟩

theorem withPath (h : p.Writes w path v) (target : Path) : (p.withPath target).Writes w target v :=
  Members.put_perm h (w.fields_distinct path v)

theorem withValue (h : p.Writes w path v) (u : Json) : (p.withValue u).Writes w path u :=
  Members.put_perm h (w.fields_distinct path v)

theorem anew (w : Write) (path : Path) (v : Json) :
    (PatchOp.anew w.name v path).Writes w path v := by
  simp only [PatchOp.Writes, PatchOp.anew, PatchOp.withPath, Members.put, Write.fields]
  exact .cons _ (.swap _ _ _)

/-- Operations that write equal values at one path are equal, whatever the order of their fields. -/
theorem same (hp : p.Writes w path v) (hq : q.Writes w path u) (h : v.same u = true) :
    p.toJson.same q.toJson = true := by
  rw [toJson, toJson, Json.same, Bool.and_eq_true, Json.sameMembers_iff]
  refine ⟨by simp [hp.length_eq, hq.length_eq, Write.fields], ?_⟩
  intro m hm
  rw [hp.mem_iff] at hm
  rw [hq.get?]
  simp only [Write.fields, List.mem_cons, List.not_mem_nil, or_false] at hm
  rcases hm with rfl | rfl | rfl
  · exact ⟨.str w.name, by simp [Write.fields, Members.get?_cons], by simp [Json.same]⟩
  · exact ⟨.str (Pointer.join path), by simp [Write.fields, Members.get?_cons], by simp [Json.same]⟩
  · exact ⟨u, by simp [Write.fields, Members.get?_cons], h⟩

/-- What is written in one step stays one step. -/
theorem expand (h : p.Writes w path v) (hv : v.isPlain = true) :
    ∃ q, p.expand = .ok [q] ∧ q.Writes w path v := by
  have hverb := PatchOp.verb_of_edit h.edits.edit
  have hvalue := PatchOp.value_of_edit h.edits.edit (w.written?_edit v)
  have hwrite : (w.edit v).verb.write? = some w := by cases w <;> rfl
  have hpath := h.edits.path
  cases v with
  | scalar s =>
    refine ⟨p, ?_, h⟩
    simp [PatchOp.expand, hverb, hvalue, hwrite, bind, Except.bind, pure, Except.pure]
  | arr es =>
    obtain rfl := List.isEmpty_iff.1 hv
    refine ⟨w.toOp path (.arr []), ?_, .toOp w path _⟩
    simp only [PatchOp.expand, hverb, hvalue, hwrite, hpath, bind, Except.bind]
    rfl
  | obj ms =>
    obtain rfl := List.isEmpty_iff.1 hv
    refine ⟨w.toOp path (.obj []), ?_, .toOp w path _⟩
    simp only [PatchOp.expand, hverb, hvalue, hwrite, hpath, bind, Except.bind]
    rfl

end PatchOp.Writes

end EditLens
