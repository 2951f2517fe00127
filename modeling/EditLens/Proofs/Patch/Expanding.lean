import Mathlib.Data.List.InsertIdx
import EditLens.Proofs.Patch.Parts

/-! Writes taken in small steps. Main statements: the steps of an addition make exactly the document that the
addition makes at once, if it does not append, and the steps of a replacement apply only if there is one. -/
namespace EditLens

namespace Edit

variable {e : Edit} {v doc doc' : Json} {path rest : Path}

/-- An edit that applies goes through the parts above it. -/
private theorem exists_part_of_apply (h : e.apply (path ++ rest) doc = .ok doc') (hrest : rest ≠ []) :
    ∃ part part', doc.partAt? path = some part ∧ e.apply rest part = .ok part' ∧
      doc' = Json.putAt part' path doc := by
  obtain ⟨part, hpart⟩ : ∃ part, doc.partAt? path = some part := by
    induction path generalizing doc doc' with
    | nil => exact ⟨doc, rfl⟩
    | cons token path ih =>
      obtain ⟨next, others, hcons⟩ := List.exists_cons_of_ne_nil
        (List.append_ne_nil_of_right_ne_nil path hrest)
      rw [List.cons_append, hcons, apply, ← hcons] at h
      cases hchild : doc.child? token with
      | none =>
        rw [hchild] at h
        cases h
      | some child =>
        rw [hchild] at h
        obtain ⟨child', hchild', -⟩ := Except.exists_of_bind h
        obtain ⟨part, hpart⟩ := ih hchild'
        exact ⟨part, by rw [Json.partAt?, hchild, Option.bind_some, hpart]⟩
  rw [apply_append hpart hrest] at h
  obtain ⟨part', hpart', hdoc⟩ := Except.exists_of_bind h
  exact ⟨part, part', hpart, hpart', (Except.ok.inj hdoc).symm⟩

/-- An addition to a container makes a child, which can be set to any other value; to an array it must not be
told to append. -/
private theorem add_starts_child {container new : Json} {token : String}
    (h : (Edit.add v).apply [token] container = .ok new) (hdash : token = "-" → container.isObject = true)
    (w : Json) : ∃ started, (Edit.add w).apply [token] container = .ok started ∧
      started.child? token = some w ∧ started.setChild token v = new := by
  cases container with
  | scalar s => cases h
  | obj ms =>
    obtain rfl := Except.ok.inj h
    exact ⟨.obj (Members.put ms token w), rfl, by simp [Json.child?], by simp [Json.setChild]⟩
  | arr es =>
    obtain ⟨es', rfl, ⟨rfl, -⟩ | ⟨i, rfl, hes'⟩⟩ := apply_arr_eq_ok.1 h
    · cases hdash rfl
    · rw [onElement] at hes'
      split at hes'
      · rename_i hi
        obtain rfl := Except.ok.inj hes'
        refine ⟨.arr (es.insertIdx i w), apply_arr_eq_ok.2 ⟨_, rfl, .inr ⟨i, rfl, if_pos hi⟩⟩, ?_, ?_⟩
        · simp [Json.child?, List.getElem?_insertIdx_self, hi]
        · have hlength : i ≠ (es.insertIdx i w).length := by
            rw [List.length_insertIdx_of_le_length hi]
            omega
          have hset := List.insertIdx_eraseIdx_self hlength v
          rw [List.eraseIdx_insertIdx_self] at hset
          simp only [Json.setChild, Pointer.position?_repr, hset]
      · cases hes'

/-- An addition that does not append can add any other value first, in the place of which its own is then
put. -/
private theorem add_starts (h : (Edit.add v).apply path doc = .ok doc')
    (hdash : path.getLast? = some "-" → ∃ ms, doc.partAt? path.dropLast = some (.obj ms)) (w : Json) :
    ∃ started, (Edit.add w).apply path doc = .ok started ∧ started.partAt? path = some w ∧
      Json.putAt v path started = doc' := by
  rcases List.eq_nil_or_concat path with rfl | ⟨above, token, rfl⟩
  · exact ⟨w, rfl, rfl, Except.ok.inj h⟩
  rw [List.concat_eq_append] at h hdash ⊢
  obtain ⟨container, new, hcontainer, hnew, rfl⟩ := exists_part_of_apply h (by simp)
  have hobject : token = "-" → container.isObject = true := by
    rintro rfl
    obtain ⟨ms, hms⟩ := hdash (by simp)
    rw [List.dropLast_concat, hcontainer] at hms
    rw [Option.some.inj hms]
    rfl
  obtain ⟨started, hstarted, hchild, hset⟩ := add_starts_child hnew hobject w
  have hput := Json.partAt?_putAt hcontainer started
  refine ⟨Json.putAt started above doc, by rw [apply_append hcontainer (by simp), hstarted]; rfl, ?_, ?_⟩
  · rw [Json.partAt?_append, hput, Option.bind_some, Json.partAt?, hchild]
    rfl
  · rw [Json.putAt_append hput, Json.putAt_putAt hcontainer]
    simp only [Json.putAt, hchild, hset]

/-- A replacement puts its value in the place of a part. -/
private theorem exists_part_of_replace (h : (Edit.replace v).apply path doc = .ok doc') :
    ∃ old, doc.partAt? path = some old ∧ doc' = Json.putAt v path doc := by
  rcases List.eq_nil_or_concat path with rfl | ⟨above, token, rfl⟩
  · exact ⟨doc, rfl, (Except.ok.inj h).symm⟩
  rw [List.concat_eq_append] at h ⊢
  obtain ⟨container, new, hcontainer, hnew, rfl⟩ := exists_part_of_apply h (by simp)
  obtain ⟨old, hold, rfl⟩ : ∃ old, container.child? token = some old ∧ new = container.setChild token v := by
    cases container with
    | scalar s => cases hnew
    | obj ms =>
      obtain ⟨ms', hms', hobj⟩ := Except.exists_of_bind hnew
      rw [onMember] at hms'
      split at hms'
      · rename_i hhas
        obtain ⟨old, hold⟩ := Members.has_iff.1 hhas
        exact ⟨old, hold, by rw [← Except.ok.inj hobj, ← Except.ok.inj hms', Json.setChild]⟩
      · cases hms'
    | arr es =>
      obtain ⟨es', rfl, ⟨-, hend⟩ | ⟨i, rfl, hes'⟩⟩ := apply_arr_eq_ok.1 hnew
      · cases hend
      · rw [onElement] at hes'
        split at hes'
        · rename_i hi
          exact ⟨es[i], by simp [Json.child?, hi], by simp [Json.setChild, ← Except.ok.inj hes']⟩
        · cases hes'
  refine ⟨old, ?_, ?_⟩
  · rw [Json.partAt?_append, hcontainer, Option.bind_some, Json.partAt?, hold]
    rfl
  · rw [Json.putAt_append hcontainer]
    simp only [Json.putAt, hold]

end Edit

section Below

variable {path : Path} {doc : Json}

/-- A part that is added without its parts, which are then made, is the part. -/
private theorem Patch.apply_steps {v container started : Json} {token : String}
    (hbelow : ∀ {doc : Json}, doc.partAt? (path ++ [token]) = some v.hollow →
      Patch.apply (Write.add.below (path ++ [token]) v) doc = .ok (Json.putAt v (path ++ [token]) doc))
    (hcontainer : doc.partAt? path = some container)
    (hstarted : (Edit.add v.hollow).apply [token] container = .ok started)
    (hchild : started.child? token = some v.hollow) :
    Patch.apply (Write.add.steps (path ++ [token]) v) doc =
      .ok (Json.putAt (started.setChild token v) path doc) := by
  have hput := Json.partAt?_putAt hcontainer started
  have hfirst : (PatchOp.add (path ++ [token]) v.hollow).apply doc = .ok (Json.putAt started path doc) := by
    rw [(PatchOp.edits_add _ _).apply_eq, Edit.apply_append hcontainer (by simp), hstarted]
    rfl
  have hpart : (Json.putAt started path doc).partAt? (path ++ [token]) = some v.hollow := by
    rw [Json.partAt?_append, hput, Option.bind_some, Json.partAt?, hchild]
    rfl
  rw [Write.steps_eq]
  refine Patch.apply_cons hfirst ((hbelow hpart).trans ?_)
  rw [Json.putAt_append hput, Json.putAt_putAt hcontainer]
  simp only [Json.putAt, hchild]

mutual

/-- The steps that make the parts of a value make the value where it is without them. -/
private theorem Write.apply_below (v : Json) (hv : v.isDocument = true) {path : Path} {doc : Json}
    (h : doc.partAt? path = some v.hollow) :
    Patch.apply (Write.add.below path v) doc = .ok (Json.putAt v path doc) := by
  match v with
  | .scalar s => exact congrArg Except.ok (Json.putAt_of_partAt? h).symm
  | .arr es => exact Write.apply_elementSteps es (Json.isDocument_arr.1 hv) [] h
  | .obj ms => exact Write.apply_memberSteps ms (Json.isDocument_obj.1 hv) [] (fun _ _ => rfl) h

/-- The elements are added behind those that are there. -/
theorem Write.apply_elementSteps (es : List Json) (hes : ∀ e ∈ es, e.isDocument = true) (done : List Json)
    {path : Path} {doc : Json} (h : doc.partAt? path = some (.arr done)) :
    Patch.apply (Write.add.elementSteps path done.length es) doc =
      .ok (Json.putAt (.arr (done ++ es)) path doc) := by
  match es with
  | [] =>
    rw [List.append_nil, Json.putAt_of_partAt? h]
    rfl
  | e :: rest =>
    rw [List.forall_mem_cons] at hes
    have hadd : (Edit.add e.hollow).apply [done.length.repr] (.arr done) = .ok (.arr (done ++ [e.hollow])) :=
      Edit.apply_arr_eq_ok.2 ⟨_, rfl, .inr ⟨done.length, rfl, by simp [Edit.onElement]⟩⟩
    have hfirst := Patch.apply_steps (Write.apply_below e hes.1) h hadd (by simp [Json.child?])
    have hset : (Json.arr (done ++ [e.hollow])).setChild done.length.repr e = .arr (done ++ [e]) := by
      simp [Json.setChild]
    rw [hset] at hfirst
    have hrest := Write.apply_elementSteps rest hes.2 (done ++ [e]) (Json.partAt?_putAt h (.arr (done ++ [e])))
    rw [List.length_append, Json.putAt_putAt h, List.append_assoc] at hrest
    exact Patch.apply_append hfirst hrest

/-- The members are added behind others with other names. -/
theorem Write.apply_memberSteps (ms : List (Scalar × Json)) (hms : Members.AreDocument ms) (done : Members)
    (hfree : ∀ name : String, Members.has ms name = true → done.get? name = none)
    {path : Path} {doc : Json} (h : doc.partAt? path = some (.obj done)) :
    Patch.apply (Write.add.memberSteps path ms) doc = .ok (Json.putAt (.obj (done ++ ms)) path doc) := by
  match ms with
  | [] =>
    rw [List.append_nil, Json.putAt_of_partAt? h]
    rfl
  | (k, v) :: rest =>
    obtain ⟨name, rfl, hname, hv, hrest⟩ := Members.areOf_cons.1 hms
    have hnew : done.get? name = none := hfree name (by simp [Members.has, Members.get?_cons])
    have hadd : (Edit.add v.hollow).apply [name] (.obj done) = .ok (.obj (done.put name v.hollow)) := rfl
    have hfirst := Patch.apply_steps (Write.apply_below v hv) h hadd (by simp [Json.child?])
    rw [Json.setChild, Members.put_put, Members.put_of_get?_eq_none hnew] at hfirst
    have hothers : ∀ other : String, Members.has rest other = true →
        Members.get? (done ++ [(.str name, v)]) other = none := by
      intro other hother
      have hne : name ≠ other := by
        rintro rfl
        rw [Members.has_eq_false.2 hname] at hother
        cases hother
      rw [← Members.put_of_get?_eq_none hnew, Members.get?_put, if_neg (by simpa using hne)]
      refine hfree other ?_
      rwa [Members.has, Members.get?_cons, if_neg (by simpa using hne)]
    have hlater := Write.apply_memberSteps rest hrest (done ++ [(.str name, v)]) hothers
      (Json.partAt?_putAt h (.obj (done ++ [(.str name, v)])))
    rw [Json.putAt_putAt h, List.append_assoc] at hlater
    exact Patch.apply_append hfirst hlater

end

end Below

mutual

/-- The steps of a write are writes of its own kind, all below its place, of scalars and empty containers. -/
theorem Write.toOp_of_mem_steps (w : Write) (v : Json) (path : Path) :
    ∀ p ∈ w.steps path v, ∃ u rest, p = w.toOp (path ++ rest) u ∧ u.isHollow = true := by
  rw [Write.steps_eq]
  refine List.forall_mem_cons.2 ⟨⟨v.hollow, [], by rw [List.append_nil], v.isHollow_hollow⟩, ?_⟩
  match v with
  | .scalar s => exact fun p hp => by cases hp
  | .arr es => exact Write.toOp_of_mem_elementSteps w es path 0
  | .obj ms => exact Write.toOp_of_mem_memberSteps w ms path

theorem Write.toOp_of_mem_elementSteps (w : Write) (es : List Json) (path : Path) (i : Nat) :
    ∀ p ∈ w.elementSteps path i es, ∃ u rest, p = w.toOp (path ++ rest) u ∧ u.isHollow = true := by
  match es with
  | [] => exact fun p hp => by cases hp
  | e :: others =>
    refine List.forall_mem_append.2 ⟨fun p hp => ?_, Write.toOp_of_mem_elementSteps w others path (i + 1)⟩
    obtain ⟨u, rest, rfl, hu⟩ := Write.toOp_of_mem_steps w e _ p hp
    exact ⟨u, _, by rw [List.append_assoc], hu⟩

theorem Write.toOp_of_mem_memberSteps (w : Write) (ms : List (Scalar × Json)) (path : Path) :
    ∀ p ∈ w.memberSteps path ms, ∃ u rest, p = w.toOp (path ++ rest) u ∧ u.isHollow = true := by
  match ms with
  | [] => exact fun p hp => by cases hp
  | (k, v) :: others =>
    refine List.forall_mem_append.2 ⟨fun p hp => ?_, Write.toOp_of_mem_memberSteps w others path⟩
    obtain ⟨u, rest, rfl, hu⟩ := Write.toOp_of_mem_steps w v _ p hp
    exact ⟨u, _, by rw [List.append_assoc], hu⟩

end

theorem Write.edits_of_mem_steps (w : Write) (v : Json) (path : Path) :
    ∀ p ∈ w.steps path v, ∃ u rest, p.Edits (w.edit u) (path ++ rest) := by
  intro p hp
  obtain ⟨u, rest, rfl, -⟩ := w.toOp_of_mem_steps v path p hp
  exact ⟨u, rest, (PatchOp.Writes.toOp w _ u).edits⟩

section Steps

variable {p : PatchOp} {w : Write} {v doc doc' : Json} {path : Path}

/-- A write is taken in steps of which the first one writes the value without its parts. -/
theorem PatchOp.Edits.exists_expand (hp : p.Edits (w.edit v) path) :
    ∃ q, p.expand = .ok (q :: w.below path v) ∧ q.Edits (w.edit v.hollow) path := by
  have hwrite : (w.edit v).verb.write? = some w := by cases w <;> rfl
  rw [PatchOp.expand, PatchOp.verb_of_edit hp.edit, Except.bind_ok, PatchOp.value_of_edit hp.edit (w.written?_edit v),
    hwrite, hp.path]
  cases v with
  | scalar s => exact ⟨p, rfl, hp⟩
  | arr es => exact ⟨w.toOp path (.arr []), rfl, (PatchOp.Writes.toOp w path _).edits⟩
  | obj ms => exact ⟨w.toOp path (.obj []), rfl, (PatchOp.Writes.toOp w path _).edits⟩

/-- A write of a scalar or an empty container is one step already. -/
theorem Write.expand_toOp (w : Write) (path : Path) (hv : v.isHollow = true) :
    (w.toOp path v).expand = .ok [w.toOp path v] := by
  have hedits := (PatchOp.Writes.toOp w path v).edits
  have hwrite : (w.edit v).verb.write? = some w := by cases w <;> rfl
  rw [PatchOp.expand, PatchOp.verb_of_edit hedits.edit, Except.bind_ok,
    PatchOp.value_of_edit hedits.edit (w.written?_edit v), hwrite, hedits.path]
  cases v with
  | scalar s => rfl
  | arr es => rw [List.isEmpty_iff.1 hv]; rfl
  | obj ms => rw [List.isEmpty_iff.1 hv]; rfl

/-- The steps of a write cannot be taken apart any further, and each of them writes at or below its place. -/
theorem PatchOp.Edits.expand_of_mem {steps : Patch} (hp : p.Edits (w.edit v) path) (h : p.expand = .ok steps) :
    ∀ q ∈ steps, q.expand = .ok [q] ∧ ∃ u rest, q.Edits (w.edit u) (path ++ rest) ∧ u.isHollow = true := by
  have hparts : ∀ q ∈ w.steps path v,
      q.expand = .ok [q] ∧ ∃ u rest, q.Edits (w.edit u) (path ++ rest) ∧ u.isHollow = true := by
    intro q hq
    obtain ⟨u, rest, rfl, hu⟩ := w.toOp_of_mem_steps v path q hq
    exact ⟨w.expand_toOp _ hu, u, rest, (PatchOp.Writes.toOp w _ u).edits, hu⟩
  have hwrite : (w.edit v).verb.write? = some w := by cases w <;> rfl
  have hexpand := h
  rw [PatchOp.expand, PatchOp.verb_of_edit hp.edit, Except.bind_ok,
    PatchOp.value_of_edit hp.edit (w.written?_edit v), hwrite, hp.path] at hexpand
  cases v with
  | scalar s =>
    obtain rfl := Except.ok.inj hexpand
    intro q hq
    obtain rfl := List.mem_singleton.1 hq
    exact ⟨h, .scalar s, [], by rwa [List.append_nil], rfl⟩
  | arr es => exact Except.ok.inj hexpand ▸ hparts
  | obj ms => exact Except.ok.inj hexpand ▸ hparts

private theorem Write.below_of_isHollow (w : Write) (path : Path) (h : v.isHollow = true) :
    v.hollow = v ∧ w.below path v = [] := by
  cases v with
  | scalar s => exact ⟨rfl, rfl⟩
  | arr es => rw [List.isEmpty_iff.1 h]; exact ⟨rfl, rfl⟩
  | obj ms => rw [List.isEmpty_iff.1 h]; exact ⟨rfl, rfl⟩

/-- The first part of a value is written one token below the value. -/
private theorem Write.exists_below (w : Write) (path : Path) (h : v.isHollow = false) :
    ∃ token part rest, w.below path v = w.toOp (path ++ [token]) part :: rest := by
  cases v with
  | scalar s => cases h
  | arr es =>
    obtain ⟨e, rest, rfl⟩ := List.exists_cons_of_ne_nil (List.isEmpty_eq_false_iff.1 h)
    exact ⟨_, _, _, by rw [Write.below, Write.elementSteps, Write.steps_eq]; rfl⟩
  | obj ms =>
    obtain ⟨⟨k, v⟩, rest, rfl⟩ := List.exists_cons_of_ne_nil (List.isEmpty_eq_false_iff.1 h)
    exact ⟨_, _, _, by rw [Write.below, Write.memberSteps, Write.steps_eq]; rfl⟩

private theorem Patch.apply_cons_eq_ok {ps : Patch} :
    Patch.apply (p :: ps) doc = .ok doc' ↔ ∃ mid, p.apply doc = .ok mid ∧ Patch.apply ps mid = .ok doc' := by
  constructor
  · intro h
    rw [Patch.apply, List.foldlM_cons] at h
    exact Except.exists_of_bind h
  · rintro ⟨mid, hmid, h⟩
    exact Patch.apply_cons hmid h

/-- There is nothing to replace in an empty container. -/
private theorem Edit.replace_hollow (part : Json) (token : String) (result : Json) :
    (Edit.replace part).apply [token] v.hollow ≠ .ok result := by
  intro h
  cases v with
  | scalar s => cases h
  | obj ms => cases h
  | arr es =>
    obtain ⟨es', -, ⟨-, hend⟩ | ⟨i, -, hes'⟩⟩ := Edit.apply_arr_eq_ok.1 h
    · cases hend
    · simp [Edit.onElement] at hes'

/-- No path leads through the place behind the last element of an array. -/
private theorem Edit.apply_behind (e : Edit) (next : String) (es : List Json) (result : Json) :
    e.apply ["-", next] (.arr es) ≠ .ok result := by
  intro h
  obtain ⟨i, -, -, hdash, -⟩ := Edit.apply_cons_cons_arr_eq_ok.1 h
  have hnone := Pointer.position?_repr i
  rw [← hdash] at hnone
  cases hnone

/-- The steps of a replacement by a container that is not empty do not apply. -/
private theorem Patch.apply_steps_of_replace {q : PatchOp} (hq : q.Edits (.replace v.hollow) path)
    (hv : v.isHollow = false) (happly : (Edit.replace v).apply path doc = .ok doc') (result : Json) :
    Patch.apply (q :: Write.replace.below path v) doc ≠ .ok result := by
  intro h
  obtain ⟨old, hold, -⟩ := Edit.exists_part_of_replace happly
  obtain ⟨started, hstarted, hbelow⟩ := Patch.apply_cons_eq_ok.1 h
  rw [hq.apply_eq] at hstarted
  obtain ⟨-, -, rfl⟩ := Edit.exists_part_of_replace hstarted
  obtain ⟨token, part, rest, hsteps⟩ := Write.exists_below .replace path hv
  rw [hsteps] at hbelow
  obtain ⟨next, hnext, -⟩ := Patch.apply_cons_eq_ok.1 hbelow
  rw [(PatchOp.Writes.toOp .replace _ part).edits.apply_eq,
    Edit.apply_append (Json.partAt?_putAt hold v.hollow) (by simp)] at hnext
  obtain ⟨new, hnew, -⟩ := Except.exists_of_bind hnext
  exact Edit.replace_hollow part token new hnew

/-- The steps of an addition behind the last element of an array apply to nothing but a scalar or an empty
container. -/
private theorem Patch.apply_steps_of_append {q : PatchOp} {es : List Json}
    (hq : q.Edits (.add v.hollow) (path ++ ["-"])) (hv : v.isHollow = false)
    (harray : doc.partAt? path = some (.arr es)) (result : Json) :
    Patch.apply (q :: Write.add.below (path ++ ["-"]) v) doc ≠ .ok result := by
  intro h
  obtain ⟨started, hstarted, hbelow⟩ := Patch.apply_cons_eq_ok.1 h
  rw [hq.apply_eq, Edit.apply_append harray (by simp)] at hstarted
  obtain rfl := Except.ok.inj hstarted
  obtain ⟨token, part, rest, hsteps⟩ := Write.exists_below .add (path ++ ["-"]) hv
  rw [hsteps] at hbelow
  obtain ⟨next, hnext, -⟩ := Patch.apply_cons_eq_ok.1 hbelow
  rw [(PatchOp.Writes.toOp .add _ part).edits.apply_eq, List.append_assoc,
    Edit.apply_append (Json.partAt?_putAt harray _) (by simp)] at hnext
  obtain ⟨new, hnew, -⟩ := Except.exists_of_bind hnext
  exact Edit.apply_behind _ token _ new hnew

/-- The steps of an addition that does not append make what the addition makes. -/
theorem Patch.apply_steps_of_add {q : PatchOp} (hq : q.Edits (.add v.hollow) path) (hv : v.isDocument = true)
    (happly : (Edit.add v).apply path doc = .ok doc')
    (hdash : path.getLast? = some "-" → ∃ ms, doc.partAt? path.dropLast = some (.obj ms)) :
    Patch.apply (q :: Write.add.below path v) doc = .ok doc' := by
  obtain ⟨started, hstarted, hpart, rfl⟩ := Edit.add_starts happly hdash v.hollow
  exact Patch.apply_cons (hq.apply_eq doc ▸ hstarted) (Write.apply_below v hv hpart)

/-- Of a replacement, and of an addition at a dash, that applies to a document, the small steps apply exactly
if there is only one or the dash names a member of an object, and then they make the same document. -/
theorem Patch.apply_expand_iff (hp : p.Edits (w.edit v) path) (hv : v.isDocument = true)
    (hkind : w = .replace ∨ path.getLast? = some "-") (happly : p.apply doc = .ok doc') :
    ∃ steps, p.expand = .ok steps ∧ ∀ result, Patch.apply steps doc = .ok result ↔ result = doc' ∧
      (v.isHollow = true ∨ w = .add ∧ ∃ ms, doc.partAt? path.dropLast = some (.obj ms)) := by
  obtain ⟨q, hexpand, hq⟩ := hp.exists_expand
  refine ⟨_, hexpand, fun result => ?_⟩
  rw [hp.apply_eq] at happly
  have hsame : ∀ {steps : Patch}, Patch.apply steps doc = .ok doc' →
      (Patch.apply steps doc = .ok result ↔ result = doc') := by
    intro steps h
    rw [h, Except.ok.injEq, eq_comm]
  by_cases hhollow : v.isHollow = true
  · obtain ⟨hself, hbelow⟩ := Write.below_of_isHollow w path hhollow
    rw [hself] at hq
    rw [hbelow, hsame (Patch.apply_cons (hq.apply_eq doc ▸ happly) rfl)]
    simp [hhollow]
  · have hparts : v.isHollow = false := Bool.eq_false_iff.2 hhollow
    cases w with
    | replace => simp [Patch.apply_steps_of_replace hq hparts happly, hhollow]
    | add =>
      have hlast := hkind.resolve_left nofun
      by_cases hobject : ∃ ms, doc.partAt? path.dropLast = some (.obj ms)
      · rw [hsame (Patch.apply_steps_of_add hq hv happly fun _ => hobject)]
        simp [hobject]
      · obtain ⟨above, rfl⟩ : ∃ above, path = above ++ ["-"] :=
          ⟨path.dropLast, (List.dropLast_append_getLast? "-" hlast).symm⟩
        obtain ⟨container, new, hcontainer, hnew, -⟩ := Edit.exists_part_of_apply happly (by simp)
        rw [List.dropLast_concat] at hobject ⊢
        cases container with
        | scalar s => cases hnew
        | obj ms => exact absurd ⟨ms, hcontainer⟩ hobject
        | arr es => simp [Patch.apply_steps_of_append hq hparts hcontainer, hhollow, hobject]

/-- An object added at a dash that names a member. -/
theorem Patch.apply_expand_iff_items :
    let v : Json := .obj [("b", .arr [.int 1])]
    let doc : Json := .obj [("a", .obj [("-", .int 0), ("c", .null)])]
    ∃ steps, (PatchOp.add ["a", "-"] v).expand = .ok steps ∧
      Patch.apply steps doc = .ok (.obj [("a", .obj [("-", v), ("c", .null)])]) := by
  intro v doc
  obtain ⟨steps, hsteps, hiff⟩ := @apply_expand_iff (.add ["a", "-"] v) .add v doc
    (.obj [("a", .obj [("-", v), ("c", .null)])]) ["a", "-"] (PatchOp.edits_add _ _) (by decide) (.inr rfl) (by cbv)
  exact ⟨steps, hsteps, (hiff _).2 ⟨rfl, .inr ⟨rfl, [("-", .int 0), ("c", .null)], by cbv⟩⟩⟩

/-- A whole document can be replaced by an array of one element, but not by the steps that write it. -/
theorem Patch.apply_expand_of_replaced_root :
    (PatchOp.replace [] (.arr [.int 1])).apply .emptyObject = .ok (.arr [.int 1]) ∧
      ∃ steps, (PatchOp.replace [] (.arr [.int 1])).expand = .ok steps ∧
        Patch.apply steps .emptyObject = .error .absentTarget :=
  ⟨by cbv, [.replace [] (.arr []), .replace ["0"] (.int 1)], by cbv, by cbv⟩

/-- The steps of an addition that ends at a dash nowhere and applies to a document are as small as can be, and
they apply one after another and make the document that the addition makes. -/
theorem Patch.apply_expand_of_add (hp : p.Edits (.add v) path) (hv : v.isDocument = true)
    (hlast : path.getLast? ≠ some "-") (happly : p.apply doc = .ok doc') :
    ∃ steps, p.expand = .ok steps ∧ Patch.apply steps doc = .ok doc' ∧ ∀ q ∈ steps,
      q.expand = .ok [q] ∧ ∃ u rest, q.Edits (.add u) (path ++ rest) ∧ u.isHollow = true := by
  have hp' : p.Edits (Write.add.edit v) path := hp
  obtain ⟨q, hexpand, hq⟩ := hp'.exists_expand
  rw [hp.apply_eq] at happly
  exact ⟨_, hexpand, Patch.apply_steps_of_add hq hv happly fun hdash => absurd hdash hlast,
    hp'.expand_of_mem hexpand⟩

/-- An object with awkward names is inserted before the elements of an array. -/
theorem Patch.apply_expand_of_add_items :
    let v : Json := .obj [("", .arr [.null, .obj []]), ("a/b~", .obj [("-", .int 1)])]
    let doc : Json := .obj [("x", .arr [.int 7])]
    ∃ steps, (PatchOp.add ["x", "0"] v).expand = .ok steps ∧
      Patch.apply steps doc = .ok (.obj [("x", .arr [v, .int 7])]) ∧ ∀ q ∈ steps, q.expand = .ok [q] ∧
        ∃ u rest, q.Edits (.add u) (["x", "0"] ++ rest) ∧ u.isHollow = true := by
  intro v doc
  exact apply_expand_of_add (PatchOp.edits_add ["x", "0"] v) (by decide) (by decide) (by cbv)

end Steps

end EditLens
