import EditLens.Proofs.Patch.Growth

/-! Growing documents into which members are filled that are only written later. Main statement: the
additions of a growing document can be made in a document with such fillings, with more of them below
each new object, and once all is written nothing of the fillings is left. -/
namespace EditLens

open EditLens.Tree

namespace Tree

mutual

/-- A document with members filled in that a whole document has as well, with whatever values. -/
inductive Filling : Tree → Tree → Tree → Prop
  | scalar (s : Scalar) : Filling (.scalar s) (.scalar s) (.scalar s)
  | arr {es rs ws : List Tree} (elements : FillingElements es rs ws) :
    Filling (.arr es) (.arr rs) (.arr ws)
  | obj {f r w : String → Option Tree} (members : ∀ name, FillingMember (f name) (r name) (w name)) :
    Filling (.obj f) (.obj r) (.obj w)

inductive FillingMember : Option Tree → Option Tree → Option Tree → Prop
  | absent {filled whole : Option Tree} (h : whole = none → filled = none) :
    FillingMember none filled whole
  | present {t r w : Tree} (h : Filling t r w) : FillingMember (some t) (some r) (some w)

inductive FillingElements : List Tree → List Tree → List Tree → Prop
  | nil (ws : List Tree) : FillingElements [] [] ws
  | cons {t r w : Tree} {es rs ws : List Tree} (first : Filling t r w)
    (rest : FillingElements es rs ws) : FillingElements (t :: es) (r :: rs) (w :: ws)

end

mutual

/-- Nothing need be filled in. -/
theorem Filling.of_part : ∀ {t w : Tree}, Part t w → Filling t t w
  | _, _, .scalar s => .scalar s
  | _, _, .arr h => .arr (FillingElements.of_part h)
  | _, _, .obj h => .obj fun name => FillingMember.of_part (h name)

theorem FillingMember.of_part : ∀ {o w : Option Tree}, PartMember o w → FillingMember o o w
  | _, _, .absent _ => .absent fun _ => rfl
  | _, _, .present h => .present (Filling.of_part h)

theorem FillingElements.of_part :
    ∀ {es ws : List Tree}, PartElements es ws → FillingElements es es ws
  | _, ws, .nil _ => .nil ws
  | _, _, .cons h hrest => .cons (Filling.of_part h) (FillingElements.of_part hrest)

end

mutual

/-- When all is written, nothing of the fillings is left. -/
theorem Filling.eq_whole : ∀ {t r : Tree}, Filling t r t → r = t
  | _, _, .scalar _ => rfl
  | _, _, .arr h => congrArg Tree.arr (FillingElements.eq_whole h)
  | _, _, .obj h => congrArg Tree.obj (funext fun name => FillingMember.eq_whole (h name))

theorem FillingMember.eq_whole : ∀ {o r : Option Tree}, FillingMember o r o → r = o
  | _, _, .absent h => h rfl
  | _, _, .present h => congrArg some (Filling.eq_whole h)

theorem FillingElements.eq_whole : ∀ {es rs : List Tree}, FillingElements es rs es → rs = es
  | _, _, .nil _ => rfl
  | _, _, .cons h hrest => congrArg₂ List.cons (Filling.eq_whole h) (FillingElements.eq_whole hrest)

end

section Elements

variable {es rs ws : List Tree} {i : Nat}

private theorem FillingElements.length_eq (h : FillingElements es rs ws) : rs.length = es.length := by
  induction es generalizing rs ws with
  | nil =>
    cases h
    rfl
  | cons e rest ih =>
    cases h with
    | cons hfirst hrest => rw [List.length_cons, List.length_cons, ih hrest]

private theorem FillingElements.getElem? (h : FillingElements es rs ws) :
    FillingMember es[i]? rs[i]? ws[i]? := by
  induction es generalizing rs ws i with
  | nil =>
    cases h
    exact .absent fun _ => rfl
  | cons e rest ih =>
    cases h with
    | cons hfirst hrest =>
    cases i with
    | zero => exact .present hfirst
    | succ i => exact ih hrest

private theorem FillingElements.putElement (h : FillingElements es rs ws) (hi : i ≤ es.length) {t r : Tree}
    (hmember : FillingMember (some t) (some r) ws[i]?) :
    FillingElements (putElement es i t) (putElement rs i r) ws := by
  induction es generalizing rs ws i with
  | nil =>
    cases h
    obtain rfl : i = 0 := by simpa using hi
    cases ws with
    | nil => cases hmember
    | cons w ws =>
      cases hmember with
      | present hfirst => exact .cons hfirst (.nil ws)
  | cons e rest ih =>
    cases h with
    | cons hfirst hrest =>
    cases i with
    | zero =>
      cases hmember with
      | present hmember => exact .cons hmember hrest
    | succ i => exact .cons hfirst (ih hrest (by simpa using hi) hmember)

end Elements

/-- Where a growing document is written, a filled one can be written as well, and with more fillings
in what is written. -/
private theorem FillingMember.write {v w t : Tree} {path : Path} {o r whole : Option Tree}
    (h : FillingMember o r whole) (hwrite : Tree.write v path o = some t)
    (hpart : PartMember (some t) whole)
    (hv : ∀ c, whole.bind (at? path) = some c → Part v c → Filling v w c) :
    ∃ r', Tree.write w path r = some r' ∧ FillingMember (some t) (some r') whole := by
  induction path generalizing o r whole t with
  | nil =>
    obtain rfl := Option.some.inj hwrite
    cases hpart with
    | present hpart => exact ⟨w, rfl, .present (hv _ rfl hpart)⟩
  | cons token rest ih =>
    cases h with
    | absent h => cases hwrite
    | present h =>
    cases h with
    | scalar s => cases hwrite
    | @obj f r w h =>
      obtain ⟨part, hwritten, rfl⟩ := write_cons_obj_eq_some.1 hwrite
      cases hpart with
      | present hpart =>
      cases hpart with
      | obj hpart =>
      have hmember := hpart token
      rw [Function.update_self] at hmember
      obtain ⟨r', hr', hfilling⟩ := ih (h token) hwritten hmember hv
      refine ⟨_, write_cons_obj_eq_some.2 ⟨r', hr', rfl⟩, .present (.obj fun other => ?_)⟩
      by_cases hother : other = token
      · subst hother
        simpa using hfilling
      · simpa [hother] using h other
    | @arr es rs ws h =>
      obtain ⟨i, part, rfl, hi, hends, hwritten, rfl⟩ := write_cons_arr_eq_some.1 hwrite
      cases hpart with
      | present hpart =>
      cases hpart with
      | arr hpart =>
      have hmember : PartMember (some part) ws[i]? := by
        obtain ⟨c, hc, hpart⟩ := hpart.getElem? (getElem?_putElement hi)
        rw [hc]
        exact .present hpart
      obtain ⟨r', hr', hfilling⟩ := ih h.getElem? hwritten hmember fun c hc => hv c (by simpa [at?] using hc)
      rw [← h.length_eq] at hi hends
      exact ⟨_, write_cons_arr_eq_some.2 ⟨i, r', rfl, hi, hends, hr', rfl⟩,
        .present (.arr (h.putElement (h.length_eq ▸ hi) hfilling))⟩

end Tree

inductive Tree.Below (path : Path) : Patch → Tree → Tree → Prop
  | nil (t : Tree) : Below path [] t t
  | cons {p : PatchOp} {v : Json} {rest : Path} {ps : Patch} {t t₁ t' : Tree}
    (edits : p.Edits (.add v) (path ++ rest)) (below : rest ≠ []) (document : v.isDocument = true)
    (write : Tree.write v.tree rest (some t) = some t₁) (others : Below path ps t₁ t') :
    Below path (p :: ps) t t'

/-- A run of additions with fillings for each object that it makes new. -/
inductive Tree.Padded (whole : Tree) : Patch → Patch → Prop
  | nil : Padded whole [] []
  | cons {p : PatchOp} {v : Json} {path : Path} {w : Tree} {fillings ps qs : Patch}
    (edits : p.Edits (.add v) path) (below : Below path fillings v.tree w)
    (filling : ∀ c, whole.at? path = some c → Part v.tree c → Filling v.tree w c)
    (others : Padded whole ps qs) : Padded whole (p :: ps) ((p :: fillings) ++ qs)

theorem Json.isDocument_of_isHollow {v : Json} (h : v.isHollow = true) : v.isDocument = true := by
  cases v with
  | scalar s => rfl
  | arr es =>
    obtain rfl := List.isEmpty_iff.1 h
    rfl
  | obj ms =>
    obtain rfl := List.isEmpty_iff.1 h
    rfl

/-- An edit, but where there is nothing to remove the document stays as it is. -/
def Edit.applyIfThere (e : Edit) (path : Path) (doc : Json) : Except Fault Json :=
  match e.apply path doc with
  | .ok doc' => .ok doc'
  | .error fault => if fault.isMisfit = true ∧ e = .remove then .ok doc else .error fault

theorem PatchOp.Edits.outcome_applyIfThere {p : PatchOp} {e : Edit} {path : Path} (h : p.Edits e path)
    (doc : Json) : (p.applyIfThere doc).outcome = e.applyIfThere path doc := by
  have hverb : e.verb = .remove ↔ e = .remove := by cases e <;> simp [Edit.verb]
  simp only [PatchOp.applyIfThere, Edit.applyIfThere, h.apply_eq]
  cases e.apply path doc with
  | ok doc' => rfl
  | error fault =>
    simp only [Noted.outcome_bind, Noted.outcome_liftM, PatchOp.verb_of_edit h.edit, Except.bind_ok,
      hverb, Bool.and_eq_true, decide_eq_true_eq, h.path]
    split <;> simp

namespace Patch

variable {p : PatchOp} {ps qs : Patch} {doc doc₁ doc' : Json}

theorem apply_cons (hp : p.apply doc = .ok doc₁) (hps : Patch.apply ps doc₁ = .ok doc') :
    Patch.apply (p :: ps) doc = .ok doc' := by
  rw [Patch.apply, List.foldlM_cons, hp]
  exact hps

theorem apply_append (hps : Patch.apply ps doc = .ok doc₁) (hqs : Patch.apply qs doc₁ = .ok doc') :
    Patch.apply (ps ++ qs) doc = .ok doc' := by
  rw [Patch.apply, List.foldlM_append]
  exact (congrArg (· >>= fun d => Patch.apply qs d) hps).trans hqs

/-- Where every operation applies, none is passed over. -/
theorem outcome_applyIfThere (h : Patch.apply ps doc = .ok doc') :
    (Patch.applyIfThere doc ps).outcome = .ok doc' := by
  induction ps generalizing doc with
  | nil => exact h
  | cons p rest ih =>
    rw [Patch.apply, List.foldlM_cons] at h
    cases hp : p.apply doc with
    | error fault => rw [hp] at h; cases h
    | ok doc₁ =>
      rw [hp] at h
      simp only [Patch.applyIfThere, Noted.outcome_bind, PatchOp.applyIfThere, hp]
      exact ih h

/-- No addition is passed over. -/
theorem outcome_applyIfThere_of_adds (h : ∀ p ∈ ps, ∃ v path, p.Edits (.add v) path) :
    (Patch.applyIfThere doc ps).outcome = Patch.apply ps doc := by
  induction ps generalizing doc with
  | nil => rfl
  | cons p rest ih =>
    obtain ⟨⟨v, path, hedits⟩, hrest⟩ := List.forall_mem_cons.1 h
    rw [Patch.applyIfThere, Noted.outcome_bind, hedits.outcome_applyIfThere, Edit.applyIfThere, Patch.apply,
      List.foldlM_cons, hedits.apply_eq]
    cases (Edit.add v).apply path doc with
    | ok doc₁ => exact ih hrest
    | error fault =>
      simp only [reduceCtorEq, and_false, if_false]
      rfl

end Patch

namespace Tree

theorem Below.edits {path : Path} {ps : Patch} {a b : Tree} (h : Below path ps a b) :
    ∀ p ∈ ps, ∃ e path, p.Edits e path := by
  induction h with
  | nil => simp
  | cons hedits _ _ _ _ ih => exact List.forall_mem_cons.2 ⟨⟨_, _, hedits⟩, ih⟩

theorem Below.exists_apply {path : Path} {ps : Patch} {a b : Tree} (h : Below path ps a b)
    {o : Option Tree} {C : Tree → Tree} (hC : IsContext path o C) {doc : Json}
    (hdoc : doc.isDocument = true) (htree : doc.tree = C a) :
    ∃ doc', Patch.apply ps doc = .ok doc' ∧ doc'.isDocument = true ∧ doc'.tree = C b := by
  induction h generalizing doc with
  | nil t => exact ⟨doc, rfl, hdoc, htree⟩
  | cons hedits hbelow hv hwrite _ ih =>
    have hwrite' := hC.below hbelow hwrite
    rw [← htree] at hwrite'
    obtain ⟨doc₁, happly, htree₁⟩ := Edit.exists_apply_of_write hwrite'
    obtain ⟨doc', hrest, hdoc', htree'⟩ := ih (Edit.isDocument_add hv hdoc happly) htree₁
    exact ⟨doc', Patch.apply_cons (by rw [hedits.apply_eq, happly]) hrest, hdoc', htree'⟩

/-- The additions of a growing document, and the fillings among them, can be made in a document that
has been filled. -/
theorem Padded.exists_apply {whole : Tree} {ps qs : Patch} (h : Padded whole ps qs) {t t' : Tree}
    (hgrows : Grows t ps t') (hpart : Part t' whole) {doc : Json} (hdoc : doc.isDocument = true)
    (hfilling : Filling t doc.tree whole) :
    ∃ doc', Patch.apply qs doc = .ok doc' ∧ doc'.isDocument = true ∧
      Filling t' doc'.tree whole := by
  induction h generalizing t doc with
  | nil =>
    cases hgrows
    exact ⟨doc, rfl, hdoc, hfilling⟩
  | @cons p v path w fillings ps qs hedits hbelow hpad _ ih =>
    cases hgrows with
    | @cons _ u path' _ t₁ _ _ hedits' hhollow hpart₁ hwrite hrest =>
    obtain ⟨rfl⟩ : v = u := by simpa [hedits.edit] using hedits'.edit
    obtain rfl : path = path' := by simpa [hedits.path] using hedits'.path
    have hwhole : Part t₁ whole := hrest.part.trans hpart
    obtain ⟨r', hr', hmember⟩ := FillingMember.write (.present hfilling) hwrite (.present hwhole) hpad
    obtain ⟨C, hC⟩ := exists_context hr'
    obtain rfl := Option.some.inj ((hC.write w).symm.trans hr')
    obtain ⟨doc₁, happly, htree₁⟩ := Edit.exists_apply_of_write (hC.write v.tree)
    have hdoc₁ := Edit.isDocument_add (Json.isDocument_of_isHollow hhollow) hdoc happly
    obtain ⟨doc₂, hfillings, hdoc₂, htree₂⟩ := hbelow.exists_apply hC hdoc₁ htree₁
    cases hmember with
    | present hfilling₂ =>
    rw [← htree₂] at hfilling₂
    obtain ⟨doc', hqs, hdoc', hfilling'⟩ := ih hrest hdoc₂ hfilling₂
    refine ⟨doc', Patch.apply_append (Patch.apply_cons ?_ hfillings) hqs, hdoc', hfilling'⟩
    rw [hedits.apply_eq, happly]

end Tree

end EditLens
