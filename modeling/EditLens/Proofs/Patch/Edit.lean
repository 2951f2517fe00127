import EditLens.Patch.Apply
import EditLens.Patch.Lemmas
import EditLens.Proofs.Json.Members
import EditLens.Proofs.Pointer.Index

/-! What an operation of a patch does to a document, told apart from how the operation is written.
Main statements: an edit below a member of an object is an edit of the value of that member, and an
edit below an element of an array is one of that element. -/
namespace EditLens

variable {p : PatchOp} {e : Edit} {path : Path}

@[simp] theorem Json.isText_str (s t : String) : (Json.str s).isText t = decide (s = t) := rfl

@[simp] theorem Json.plain_str (s : String) : (Json.str s).plain = s := rfl

@[simp] theorem Scalar.plain_str (s : String) : (Scalar.str s).plain = s := rfl

namespace Edit

def verb : Edit → Verb
  | .add _ => .add
  | .replace _ => .replace
  | .remove => .remove

def written? : Edit → Option Json
  | .add v => some v
  | .replace v => some v
  | .remove => none

def withValue (v : Json) : Edit → Edit
  | .add _ => .add v
  | .replace _ => .replace v
  | .remove => .remove

theorem written?_withValue (h : e.written?.isSome = true) (v : Json) :
    (e.withValue v).written? = some v := by
  cases e <;> first | rfl | cases h

@[simp] theorem withValue_eq_remove {v : Json} : e.withValue v = .remove ↔ e = .remove := by
  cases e <;> simp [withValue]

@[simp] theorem writes_verb (e : Edit) : e.verb.writes = e.written?.isSome := by
  cases e <;> rfl

end Edit

namespace PatchOp

/-- The members that make an operation an edit. -/
theorem members_of_edit (h : p.edit = .ok e) :
    ∃ verb, p.members.get? "op" = some verb ∧ Verb.ofJson verb = e.verb ∧
      ∀ v, e.written? = some v → p.members.get? "value" = some v := by
  unfold edit at h
  split at h
  · rename_i verb hop
    refine ⟨verb, hop, ?_⟩
    split at h
    all_goals try cases h
    · exact ⟨‹_›, by simp_all [Edit.written?]⟩
    · exact ⟨‹_›, by simp_all [Edit.written?]⟩
    · exact ⟨‹_›, by simp [Edit.written?]⟩
  · cases h

theorem verb_of_edit (h : p.edit = .ok e) : p.verb = .ok e.verb := by
  obtain ⟨verb, hop, hverb, -⟩ := members_of_edit h
  simp [PatchOp.verb, Members.demand, hop, hverb, bind, Except.bind, pure, Except.pure]

theorem value_of_edit (h : p.edit = .ok e) {v : Json} (hv : e.written? = some v) : p.value = v := by
  obtain ⟨verb, -, -, hvalue⟩ := members_of_edit h
  simp [value, Members.valueOf, hvalue v hv]

@[simp] theorem edit_withPath : (p.withPath path).edit = p.edit := by
  simp [edit, withPath, Members.get?_put]

theorem path_withValue (v : Json) : (p.withValue v).path = p.path := by
  simp [PatchOp.path, withValue, Members.demand, Members.get?_put]

private theorem edit_withValue (h : p.edit = .ok e) (hv : e.written?.isSome = true) (v : Json) :
    (p.withValue v).edit = .ok (e.withValue v) := by
  obtain ⟨verb, hop, hverb, -⟩ := members_of_edit h
  have hop' : (p.withValue v).members.get? "op" = some verb := by
    simp [withValue, Members.get?_put, hop]
  have hvalue : (p.withValue v).members.get? "value" = some v := by simp [withValue]
  rw [edit, hop', hvalue]
  cases e with
  | add w => simp [hverb, Edit.verb, Edit.withValue]
  | replace w => simp [hverb, Edit.verb, Edit.withValue]
  | remove => cases hv

@[simp] theorem edit_add (v : Json) : (PatchOp.add path v).edit = .ok (.add v) := by
  simp [edit, add, Members.get?_cons, Verb.ofJson]

@[simp] theorem edit_replace (v : Json) : (PatchOp.replace path v).edit = .ok (.replace v) := by
  simp [edit, replace, Members.get?_cons, Verb.ofJson]

@[simp] theorem edit_remove : (PatchOp.remove path).edit = .ok .remove := by
  simp [edit, remove, Members.get?_cons, Verb.ofJson]

private theorem apply_of_edit (h : p.edit = .ok e) (hpath : p.path = .ok path) (doc : Json) :
    p.apply doc = e.apply path doc := by
  simp [PatchOp.apply, h, hpath, bind, Except.bind]

/-- An operation that applies to some document is an edit at a path. -/
theorem edit_of_apply {doc doc' : Json} (h : p.apply doc = .ok doc') :
    ∃ e path, p.edit = .ok e ∧ p.path = .ok path ∧ e.apply path doc = .ok doc' := by
  unfold PatchOp.apply at h
  cases he : p.edit with
  | error fault => simp [he, bind, Except.bind] at h
  | ok e =>
    cases hpath : p.path with
    | error fault => simp [he, hpath, bind, Except.bind] at h
    | ok path => exact ⟨e, path, rfl, rfl, by simpa [he, hpath, bind, Except.bind] using h⟩

end PatchOp

/-- An operation that stands for an edit at a path. -/
structure PatchOp.Edits (p : PatchOp) (e : Edit) (path : Path) : Prop where
  edit : p.edit = .ok e
  path : p.path = .ok path

namespace PatchOp.Edits

theorem withPath (h : p.Edits e path) (target : Path) : (p.withPath target).Edits e target :=
  ⟨by rw [edit_withPath, h.edit], path_withPath⟩

theorem withValue (h : p.Edits e path) (hv : e.written?.isSome = true) (v : Json) :
    (p.withValue v).Edits (e.withValue v) path :=
  ⟨edit_withValue h.edit hv v, by rw [path_withValue, h.path]⟩

theorem apply_eq (h : p.Edits e path) (doc : Json) : p.apply doc = e.apply path doc :=
  apply_of_edit h.edit h.path doc

end PatchOp.Edits

namespace Edit

def onMemberAt (e : Edit) (path : Path) (current : Option Json) : Except Fault (Option Json) :=
  match path, current with
  | [], none =>
    match e with
    | .add v => .ok (some v)
    | _ => .error .absentTarget
  | [], some _ => .ok e.written?
  | _ :: _, none => .error .badPointer
  | _ :: _, some part => do return some (← e.apply path part)

@[simp] theorem onMemberAt_nil_some (part : Json) :
    e.onMemberAt [] (some part) = .ok e.written? := rfl

/-- An edit below a member depends on that member only, and changes that member only. -/
theorem apply_cons_obj (e : Edit) (key : String) (path : Path) (ms : Members) :
    e.apply (key :: path) (.obj ms) = (do
      return .obj (ms.change key (← e.onMemberAt path (ms.get? key)))) := by
  cases path with
  | nil =>
    cases hkey : ms.get? key <;> cases e <;>
      simp [apply, onPart, onMember, onMemberAt, Members.has, Members.change, written?, hkey, bind,
        Except.bind, pure, Except.pure]
  | cons next rest =>
    cases hkey : ms.get? key with
    | none => simp [apply, Json.child?, onMemberAt, hkey, bind, Except.bind]
    | some part =>
      simp only [apply, Json.child?, onMemberAt, hkey, bind, Except.bind, pure, Except.pure]
      cases e.apply (next :: rest) part <;> rfl

/-- An edit at a member that is there is an edit of its value, unless it takes the member out. -/
theorem onMemberAt_some {part : Json} {result : Option Json}
    (h : e.onMemberAt path (some part) = .ok result) :
    (path = [] ∧ e = .remove ∧ result = none) ∨
      ∃ part', result = some part' ∧ e.apply path part = .ok part' := by
  cases path with
  | nil =>
    obtain rfl := Except.ok.inj h
    cases e with
    | add v => exact .inr ⟨v, rfl, rfl⟩
    | replace v => exact .inr ⟨v, rfl, rfl⟩
    | remove => exact .inl ⟨rfl, rfl, rfl⟩
  | cons next rest =>
    simp only [onMemberAt, bind, Except.bind] at h
    split at h
    · cases h
    · rename_i part' hpart
      exact .inr ⟨part', (Except.ok.inj h).symm, hpart⟩

theorem onMemberAt_of_apply {part part' : Json} (h : e.apply path part = .ok part') :
    e.onMemberAt path (some part) = .ok (some part') := by
  cases path with
  | nil =>
    cases e with
    | add v =>
      obtain rfl := Except.ok.inj h
      rfl
    | replace v =>
      obtain rfl := Except.ok.inj h
      rfl
    | remove => cases h
  | cons next rest => simp [onMemberAt, h, bind, Except.bind, pure, Except.pure]

/-- An edit at a member that is not there can only add it. -/
theorem onMemberAt_none {result : Option Json} (h : e.onMemberAt path none = .ok result) :
    path = [] ∧ ∃ v, result = some v := by
  cases path with
  | nil =>
    cases e with
    | add v => exact ⟨rfl, v, (Except.ok.inj h).symm⟩
    | replace v => cases h
    | remove => cases h
  | cons next rest => cases h

/-- Only a removal takes a member out. -/
theorem exists_of_onMemberAt {current result : Option Json} (hw : e.written?.isSome = true)
    (h : e.onMemberAt path current = .ok result) : ∃ v, result = some v := by
  cases current with
  | none => exact (onMemberAt_none h).2
  | some part =>
    rcases onMemberAt_some h with ⟨-, rfl, -⟩ | ⟨v, hv, -⟩
    · cases hw
    · exact ⟨v, hv⟩

/-- What an edit below a member of an object makes of the object. -/
theorem apply_cons_obj_eq_ok {key : String} {ms : Members} {doc : Json} :
    e.apply (key :: path) (.obj ms) = .ok doc ↔
      ∃ result, e.onMemberAt path (ms.get? key) = .ok result ∧
        doc = .obj (ms.change key result) := by
  rw [apply_cons_obj]
  cases e.onMemberAt path (ms.get? key) <;> simp [bind, Except.bind, pure, Except.pure, eq_comm]

theorem apply_cons_scalar (key : String) (path : Path) (s : Scalar) :
    e.apply (key :: path) (.scalar s) = .error .badPointer := by
  cases path <;> rfl

/-- An edit below an element depends on that element only, and changes that element only. -/
theorem apply_cons_cons_arr (token next : String) (rest : Path) (es : List Json) :
    e.apply (token :: next :: rest) (.arr es) =
      match Pointer.position? token with
      | none => .error .badPointer
      | some i =>
        match es[i]? with
        | none => .error .badPointer
        | some part => do return .arr (es.set i (← e.apply (next :: rest) part)) := by
  cases hi : Pointer.position? token with
  | none => simp [apply, Json.child?, hi]
  | some i =>
    cases hpart : es[i]? with
    | none => simp [apply, Json.child?, hi, hpart]
    | some part => simp [apply, Json.child?, Json.setChild, hi, hpart]

theorem apply_cons_cons_arr_eq_ok {token next : String} {rest : Path} {es : List Json} {doc : Json} :
    e.apply (token :: next :: rest) (.arr es) = .ok doc ↔ ∃ (i : Nat) (part part' : Json),
      token = i.repr ∧ es[i]? = some part ∧ e.apply (next :: rest) part = .ok part' ∧
        doc = .arr (es.set i part') := by
  rw [apply_cons_cons_arr]
  constructor
  · intro h
    split at h
    · cases h
    · rename_i i hi
      split at h
      · cases h
      · rename_i part hpart
        cases hpart' : e.apply (next :: rest) part with
        | error fault => simp [hpart', bind, Except.bind] at h
        | ok part' =>
          refine ⟨i, part, part', Pointer.eq_repr_of_position? hi, hpart, hpart', ?_⟩
          simpa [hpart', bind, Except.bind, pure, Except.pure, eq_comm] using h
  · rintro ⟨i, part, part', rfl, hpart, hpart', rfl⟩
    simp [hpart, hpart', bind, Except.bind, pure, Except.pure]

/-- What an edit at an element makes of the elements. -/
theorem apply_arr_eq_ok {token : String} {es : List Json} {doc : Json} :
    e.apply [token] (.arr es) = .ok doc ↔ ∃ es', doc = .arr es' ∧
      ((token = "-" ∧ e.atEnd es = .ok es') ∨ ∃ i : Nat, token = i.repr ∧ e.onElement es i = .ok es') := by
  rw [apply, onPart]
  split
  · rename_i hdash
    subst hdash
    have hnone : ∀ i : Nat, "-" ≠ i.repr := fun i hi => by
      have := Pointer.position?_repr i
      rw [← hi] at this
      cases this
    cases e.atEnd es <;> simp [hnone, bind, Except.bind, pure, Except.pure, eq_comm]
  · rename_i hdash
    cases hi : Pointer.position? token with
    | none =>
      have hnone : ∀ i : Nat, token ≠ i.repr := fun i hi' => by
        rw [hi', Pointer.position?_repr] at hi
        cases hi
      simp [hdash, hnone]
    | some i =>
      obtain rfl := Pointer.eq_repr_of_position? hi
      have hunique : ∀ j : Nat, i.repr = j.repr ↔ i = j :=
        fun j => ⟨Pointer.repr_injective, fun h => by rw [h]⟩
      simp only [hdash, false_and, false_or, hunique, exists_eq_left']
      cases e.onElement es i <;> simp [bind, Except.bind, pure, Except.pure, eq_comm]

/-- An edit of a whole document writes it anew. -/
theorem apply_nil {doc doc' : Json} (h : e.apply [] doc = .ok doc') :
    e.written? = some doc' ∧ ∀ other, e.apply [] other = .ok doc' := by
  cases e with
  | add v => exact ⟨congrArg some (Except.ok.inj h), fun _ => h⟩
  | replace v => exact ⟨congrArg some (Except.ok.inj h), fun _ => h⟩
  | remove => cases h

end Edit

end EditLens
