import EditLens.Proofs.Patch.Filling

/-! Parts of documents, and edits below them. Main statement: an edit below a part of a document is an edit
of the part by itself, which is then put back in its place. -/
namespace EditLens

namespace Json

def partAt? : Path → Json → Option Json
  | [], doc => some doc
  | token :: rest, doc => (doc.child? token).bind (partAt? rest)

def putAt (part : Json) : Path → Json → Json
  | [], _ => part
  | token :: rest, doc =>
    match doc.child? token with
    | some old => doc.setChild token (putAt part rest old)
    | none => doc

section Children

variable {doc part new : Json} {token : String}

private theorem isDocument_child (hdoc : doc.isDocument = true) (h : doc.child? token = some part) :
    part.isDocument = true := by
  cases doc with
  | scalar s => cases h
  | obj ms => exact (isDocument_obj.1 hdoc).part h
  | arr es =>
    obtain ⟨i, -, hpart⟩ := Option.bind_eq_some_iff.1 h
    exact isDocument_arr.1 hdoc part (List.mem_of_getElem? hpart)

private theorem isDocument_setChild (hdoc : doc.isDocument = true) (hnew : new.isDocument = true) (token : String) :
    (doc.setChild token new).isDocument = true := by
  cases doc with
  | scalar s => exact hdoc
  | obj ms => exact isDocument_obj.2 ((isDocument_obj.1 hdoc).put token hnew)
  | arr es =>
    rw [setChild]
    split
    · refine isDocument_arr.2 fun e he => ?_
      rcases List.mem_or_eq_of_mem_set he with he | rfl
      · exact isDocument_arr.1 hdoc e he
      · exact hnew
    · exact hdoc

/-- Putting a child where it stands changes nothing. -/
private theorem setChild_of_child? (h : doc.child? token = some part) : doc.setChild token part = doc := by
  cases doc with
  | scalar s => cases h
  | obj ms => rw [setChild, Members.put_of_get? h]
  | arr es =>
    obtain ⟨i, hi, hpart⟩ := Option.bind_eq_some_iff.1 h
    obtain ⟨hlt, rfl⟩ := List.getElem?_eq_some_iff.1 hpart
    simp only [setChild, hi, List.set_getElem_self]

private theorem child?_setChild (h : doc.child? token = some part) :
    (doc.setChild token new).child? token = some new := by
  cases doc with
  | scalar s => cases h
  | obj ms => simp [setChild, child?]
  | arr es =>
    obtain ⟨i, hi, hpart⟩ := Option.bind_eq_some_iff.1 h
    simp [setChild, child?, hi, (List.getElem?_eq_some_iff.1 hpart).1]

private theorem setChild_setChild (doc first second : Json) (token : String) :
    (doc.setChild token first).setChild token second = doc.setChild token second := by
  cases doc with
  | scalar s => rfl
  | obj ms => simp [setChild]
  | arr es => cases hi : Pointer.position? token <;> simp [setChild, hi]

end Children

section Parts

variable {doc part new : Json} {path rest : Path} {e : Edit}

theorem isDocument_partAt (hdoc : doc.isDocument = true) (h : doc.partAt? path = some part) :
    part.isDocument = true := by
  induction path generalizing doc with
  | nil => exact Option.some.inj h ▸ hdoc
  | cons token rest ih =>
    obtain ⟨child, hchild, hbelow⟩ := Option.bind_eq_some_iff.1 h
    exact ih (isDocument_child hdoc hchild) hbelow

theorem isDocument_putAt (hdoc : doc.isDocument = true) (hnew : new.isDocument = true) (path : Path) :
    (putAt new path doc).isDocument = true := by
  induction path generalizing doc with
  | nil => exact hnew
  | cons token rest ih =>
    rw [putAt]
    split
    · rename_i child hchild
      exact isDocument_setChild hdoc (ih (isDocument_child hdoc hchild)) token
    · exact hdoc

theorem putAt_of_partAt? (h : doc.partAt? path = some part) : putAt part path doc = doc := by
  induction path generalizing doc with
  | nil => exact (Option.some.inj h).symm
  | cons token rest ih =>
    obtain ⟨child, hchild, hbelow⟩ := Option.bind_eq_some_iff.1 h
    simp only [putAt, hchild, ih hbelow, setChild_of_child? hchild]

theorem partAt?_append (path rest : Path) (doc : Json) :
    doc.partAt? (path ++ rest) = (doc.partAt? path).bind (partAt? rest) := by
  induction path generalizing doc with
  | nil => rfl
  | cons token path ih =>
    rw [List.cons_append, partAt?, partAt?, Option.bind_assoc]
    exact congrArg _ (funext ih)

/-- What is put in the place of a part is found there. -/
theorem partAt?_putAt (h : doc.partAt? path = some part) (new : Json) :
    (putAt new path doc).partAt? path = some new := by
  induction path generalizing doc with
  | nil => rfl
  | cons token rest ih =>
    obtain ⟨child, hchild, hbelow⟩ := Option.bind_eq_some_iff.1 h
    simp only [putAt, hchild, partAt?, child?_setChild hchild, Option.bind_some, ih hbelow]

/-- Of two parts that are put in one place, the second one stays. -/
theorem putAt_putAt (h : doc.partAt? path = some part) (first second : Json) :
    putAt second path (putAt first path doc) = putAt second path doc := by
  induction path generalizing doc with
  | nil => rfl
  | cons token rest ih =>
    obtain ⟨child, hchild, hbelow⟩ := Option.bind_eq_some_iff.1 h
    simp only [putAt, hchild, child?_setChild hchild, setChild_setChild, ih hbelow]

theorem putAt_append (h : doc.partAt? path = some part) (new : Json) (rest : Path) :
    putAt new (path ++ rest) doc = putAt (putAt new rest part) path doc := by
  induction path generalizing doc with
  | nil => rw [← Option.some.inj h]; rfl
  | cons token path ih =>
    obtain ⟨child, hchild, hbelow⟩ := Option.bind_eq_some_iff.1 h
    simp only [List.cons_append, putAt, hchild, ih hbelow]

end Parts

end Json

namespace Edit

variable {e : Edit} {doc part : Json} {path rest : Path}

/-- Below a part, an edit of the document is an edit of the part. -/
theorem apply_append (h : doc.partAt? path = some part) (hrest : rest ≠ []) :
    e.apply (path ++ rest) doc = (do return Json.putAt (← e.apply rest part) path doc) := by
  induction path generalizing doc with
  | nil =>
    obtain rfl := Option.some.inj h
    cases happly : e.apply rest doc <;> simp [happly, Json.putAt]
  | cons token path ih =>
    obtain ⟨child, hchild, hbelow⟩ := Option.bind_eq_some_iff.1 h
    obtain ⟨next, others, hcons⟩ := List.exists_cons_of_ne_nil
      (List.append_ne_nil_of_right_ne_nil path hrest)
    rw [List.cons_append, hcons, apply, hchild, ← hcons]
    simp only [ih hbelow, Json.putAt, hchild]
    cases e.apply rest part <;> rfl

theorem applyIfThere_append (h : doc.partAt? path = some part) (hrest : rest ≠ []) :
    e.applyIfThere (path ++ rest) doc = (do return Json.putAt (← e.applyIfThere rest part) path doc) := by
  simp only [applyIfThere, apply_append h hrest]
  cases e.apply rest part with
  | ok part' => rfl
  | error fault =>
    simp only [bind, Except.bind]
    split
    · simp [Json.putAt_of_partAt? h, pure, Except.pure]
    · rfl

end Edit

namespace Tree.IsContext

variable {C : Tree → Tree} {path : Path} {o : Option Tree} {doc : Json} {a : Tree}

/-- What is written below a member of an object is written into the member. -/
private theorem exists_below_member {f : String → Option Tree} {token : String} {rest : Path}
    (hwrite : ∀ v, Tree.write v (token :: rest) (some (.obj f)) = some (C v)) :
    ∃ D : Tree → Tree, (∀ v, Tree.write v rest (f token) = some (D v)) ∧
      ∀ v, C v = .obj (Function.update f token (some (D v))) := by
  choose D hD hCD using fun v => Tree.write_cons_obj_eq_some.1 (hwrite v)
  exact ⟨D, hD, hCD⟩

private theorem exists_below_element {es : List Tree} {token : String} {rest : Path}
    (hwrite : ∀ v, Tree.write v (token :: rest) (some (.arr es)) = some (C v)) :
    ∃ (i : Nat) (D : Tree → Tree), token = i.repr ∧ i ≤ es.length ∧
      (∀ v, Tree.write v rest es[i]? = some (D v)) ∧ ∀ v, C v = .arr (putElement es i (D v)) := by
  obtain ⟨i, -, rfl, hi, -⟩ := Tree.write_cons_arr_eq_some.1 (hwrite (.arr []))
  have hparts : ∀ v, ∃ part, Tree.write v rest es[i]? = some part ∧ C v = .arr (putElement es i part) := by
    intro v
    obtain ⟨j, part, hj, -, -, hpart, hCv⟩ := Tree.write_cons_arr_eq_some.1 (hwrite v)
    obtain rfl := Pointer.repr_injective hj
    exact ⟨part, hpart, hCv⟩
  choose D hD using hparts
  exact ⟨i, D, rfl, hi, fun v => (hD v).1, fun v => (hD v).2⟩

/-- A part is found where the tree of a document has a place, and what is put there is put into the tree. -/
theorem exists_part (hC : IsContext path o C) (htree : doc.tree = C a) :
    ∃ part, doc.partAt? path = some part ∧ part.tree = a ∧
      ∀ new, (Json.putAt new path doc).tree = C new.tree := by
  have hwrite : ∀ v, Tree.write v path o = some (C v) := hC.write
  clear hC
  induction path generalizing o doc C with
  | nil =>
    obtain rfl : id = C := funext fun v => Option.some.inj (hwrite v)
    exact ⟨doc, rfl, htree, fun new => rfl⟩
  | cons token rest ih =>
    cases o with
    | none => cases hwrite a
    | some t =>
    cases t with
    | scalar s => cases hwrite a
    | obj f =>
      obtain ⟨D, hD, hCD⟩ := exists_below_member hwrite
      rw [hCD] at htree
      cases doc with
      | scalar s => cases htree
      | arr es => rw [Json.tree_arr] at htree; cases htree
      | obj ms =>
        rw [Json.tree_obj] at htree
        have htrees := Tree.obj.inj htree
        have hmember := congrFun htrees token
        rw [Function.update_self] at hmember
        obtain ⟨child, hchild, hbelow⟩ := Option.map_eq_some_iff.1 hmember
        obtain ⟨part, hpart, hparttree, hput⟩ := ih hbelow hD
        refine ⟨part, by rw [Json.partAt?, Json.child?, hchild, Option.bind_some, hpart], hparttree, fun new => ?_⟩
        simp only [Json.putAt, Json.child?, hchild, Json.setChild, Json.tree_obj, Members.trees_put, htrees,
          hput, hCD, Function.update_idem]
    | arr es =>
      obtain ⟨i, D, rfl, hi, hD, hCD⟩ := exists_below_element hwrite
      rw [hCD] at htree
      cases doc with
      | scalar s => cases htree
      | obj ms => rw [Json.tree_obj] at htree; cases htree
      | arr js =>
        rw [Json.tree_arr] at htree
        have hmap := Tree.arr.inj htree
        have helement : (js.map Json.tree)[i]? = some (D a) := by rw [hmap, getElem?_putElement hi]
        rw [List.getElem?_map] at helement
        obtain ⟨child, hchild, hbelow⟩ := Option.map_eq_some_iff.1 helement
        obtain ⟨part, hpart, hparttree, hput⟩ := ih hbelow hD
        have hchild' : (Json.arr js).child? i.repr = some child := by simp [Json.child?, hchild]
        refine ⟨part, by rw [Json.partAt?, hchild', Option.bind_some, hpart], hparttree, fun new => ?_⟩
        simp only [Json.putAt, hchild', Json.setChild, Pointer.position?_repr, Json.tree_arr, List.map_set, hmap,
          hput, hCD]
        rw [← putElement_of_lt (lt_length_putElement hi), putElement_putElement hi]

end Tree.IsContext

end EditLens
