import EditLens.Proofs.Patch.Filling
import EditLens.Proofs.Schema.WellShaped

/-! What filling in defaults makes of an empty object. Main statements: for schemas that can be read
the additions that fill an object in are found, they apply wherever the object stands, and they make
the blank object of the schema. -/
namespace EditLens

open EditLens.Tree Function

namespace Schema

mutual

/-- The members of an empty object after defaults are filled in. -/
inductive Blank : Json → (String → Option Tree) → Prop
  | mk {schema : Json} {props : Members} {f : String → Option Tree}
    (members : memberSchemas schema = .ok props)
    (described : ∀ name : String, ∀ property, Members.get? props name = some property →
      BlankMember schema name property (f name))
    (others : ∀ name : String, Members.get? props name = none → f name = none) : Blank schema f

inductive BlankMember : Json → String → Json → Option Tree → Prop
  | none {schema property : Json} {name : String} (default : memberDefault property = .ok none) :
    BlankMember schema name property none
  | value {schema property v : Json} {name : String} (default : memberDefault property = .ok (some v))
    (nonempty : v ≠ .emptyObject) : BlankMember schema name property (some v.tree)
  | object {schema property part : Json} {name : String} {g : String → Option Tree}
    (default : memberDefault property = .ok (some .emptyObject))
    (below : Schema.below schema name = .ok part) (blank : Blank part g) :
    BlankMember schema name property (some (.obj g))

end

end Schema

namespace Tree.Below

variable {path rest : Path} {ps qs : Patch} {a b c : Tree}

theorem append (h : Below path ps a b) (h' : Below path qs b c) : Below path (ps ++ qs) a c := by
  induction h with
  | nil t => exact h'
  | cons hedits hbelow hv hwrite _ ih => exact .cons hedits hbelow hv hwrite (ih h')

/-- Additions below a part are additions below the whole. -/
theorem lift (h : Below (path ++ rest) ps a b) (hrest : rest ≠ []) {o : Option Tree}
    {C : Tree → Tree} (hC : IsContext rest o C) : Below path ps (C a) (C b) := by
  induction h with
  | nil t => exact .nil (C t)
  | cons hedits hbelow hv hwrite _ ih =>
    rw [List.append_assoc] at hedits
    exact .cons hedits (by simp [hrest]) hv (hC.below hbelow hwrite) ih

end Tree.Below

namespace Schema

private theorem memberDefault_eq {property : Json} (h : WellShaped property) :
    ∃ o, memberDefault property = .ok o ∧ ∀ v, o = some v → v.isDocument = true := by
  rw [memberDefault, if_pos h.isObject]
  exact h.defaultOf_eq

@[simp] theorem outcome_noteFilled (path : Path) (defaults : Patch) :
    (noteFilled path defaults).outcome = .ok () := by
  rw [noteFilled]
  split <;> rfl

section Members

variable {schema property part v : Json} {name : String} {path : Path} {ps : Patch}

/-- A member that is not an empty object by default is one addition. -/
theorem outcome_fillMember_of_ne (hdefault : memberDefault property = .ok (some v)) (hv : v ≠ .emptyObject) :
    (fillMember path schema (.str name, property)).outcome = .ok [.add (path ++ [name]) v] := by
  simp [fillMember, hdefault, hv]

/-- A member that is an empty object by default is filled in by what its part of the schema says. -/
theorem outcome_fillMember_emptyObject (hdefault : memberDefault property = .ok (some .emptyObject))
    (hpart : below schema name = .ok part) (hps : (fill (path ++ [name]) part).outcome = .ok ps) :
    (fillMember path schema (.str name, property)).outcome = .ok (.add (path ++ [name]) .emptyObject :: ps) := by
  simp [fillMember, hdefault, hpart, hps]

end Members

/-- What the additions for one member are, and what they make of the object. -/
private theorem exists_fillMember {schema property : Json} {name : String}
    (hshaped : WellShaped schema) (hproperty : WellShaped property)
    (ih : ∀ part, Schema.below schema name = .ok part → WellShaped part →
      ∃ g, Blank part g ∧ ∀ path, ∃ ps, (fill path part).outcome = .ok ps ∧
        Below path ps (.obj fun _ => none) (.obj g)) :
    ∃ o, BlankMember schema name property o ∧ ∀ path (f : String → Option Tree), f name = none →
      ∃ ps, (fillMember path schema (.str name, property)).outcome = .ok ps ∧
        Below path ps (.obj f) (.obj (update f name o)) := by
  obtain ⟨o, ho, hdocument⟩ := memberDefault_eq hproperty
  cases o with
  | none =>
    refine ⟨none, .none ho, fun path f hf => ⟨[], ?_, ?_⟩⟩
    · simp [fillMember, ho]
    · rw [← hf, Function.update_eq_self]
      exact .nil _
  | some v =>
    by_cases hv : v = .emptyObject
    · subst hv
      obtain ⟨part, hpart, hpartShaped⟩ := hshaped.below_eq name
      obtain ⟨g, hblank, hfill⟩ := ih part hpart hpartShaped
      refine ⟨some (.obj g), .object ho hpart hblank, fun path f hf => ?_⟩
      obtain ⟨ps, hps, hbelow⟩ := hfill (path ++ [name])
      refine ⟨.add (path ++ [name]) .emptyObject :: ps, outcome_fillMember_emptyObject ho hpart hps, ?_⟩
      refine .cons (PatchOp.edits_add _ _) (by simp) rfl rfl ?_
      rw [show Json.emptyObject.tree = .obj fun _ => none from Json.tree_obj []]
      exact hbelow.lift (by simp) (IsContext.member f name)
    · refine ⟨some v.tree, .value ho hv, fun path f hf =>
        ⟨[.add (path ++ [name]) v], outcome_fillMember_of_ne ho hv, ?_⟩⟩
      exact .cons (PatchOp.edits_add _ _) (by simp) (hdocument v rfl) rfl (.nil _)

/-- The additions for some members, one after another. -/
private theorem exists_fillMembers {schema : Json} (hshaped : WellShaped schema)
    (ih : ∀ name part, Schema.below schema name = .ok part → WellShaped part →
      ∃ g, Blank part g ∧ ∀ path, ∃ ps, (fill path part).outcome = .ok ps ∧
        Below path ps (.obj fun _ => none) (.obj g))
    {props : Members} (hprops : AreWellShaped props) :
    ∃ f : String → Option Tree, (∀ name : String, ∀ property, Members.get? props name = some property →
        BlankMember schema name property (f name)) ∧
      (∀ name : String, Members.get? props name = none → f name = none) ∧
      ∀ path (g : String → Option Tree),
        (∀ name : String, Members.has props name = true → g name = none) →
        ∃ ps, (Noted.gather (fillMember path schema) props).outcome = .ok ps ∧
          Below path ps (.obj g) (.obj fun name => (f name).or (g name)) := by
  induction props with
  | nil =>
    refine ⟨fun _ => none, by simp, fun _ _ => rfl, fun path g _ => ⟨[], rfl, ?_⟩⟩
    exact .nil _
  | cons m rest ihrest =>
    obtain ⟨k, property⟩ := m
    obtain ⟨name, rfl, hnew, hproperty, hrest⟩ := Members.areOf_cons.1 hprops
    obtain ⟨f, hdescribed, hothers, hfill⟩ := ihrest hrest
    obtain ⟨o, ho, hmember⟩ := exists_fillMember hshaped hproperty (ih name)
    refine ⟨update f name o, ?_, ?_, ?_⟩
    · intro other property' hother
      rw [Members.get?_cons] at hother
      by_cases hname : other = name
      · subst hname
        obtain rfl : property = property' := by simpa using hother
        rwa [update_self]
      · rw [update_of_ne hname]
        exact hdescribed other property' (by simpa [Ne.symm hname] using hother)
    · intro other hother
      rw [Members.get?_cons] at hother
      by_cases hname : other = name
      · subst hname
        simp at hother
      · rw [update_of_ne hname]
        exact hothers other (by simpa [Ne.symm hname] using hother)
    · intro path g hg
      obtain ⟨ps, hps, hbelow⟩ := hmember path g (hg name (by simp [Members.has, Members.get?_cons]))
      obtain ⟨qs, hqs, hbelow'⟩ := hfill path (update g name o) fun other hother => by
        have hname : other ≠ name := by
          rintro rfl
          rw [Members.has, hnew] at hother
          cases hother
        rw [update_of_ne hname]
        refine hg other ?_
        simpa [Members.has, Members.get?_cons, Ne.symm hname] using hother
      refine ⟨ps ++ qs, by simp [Noted.gather, hps, hqs], hbelow.append ?_⟩
      convert hbelow' using 2
      funext other
      by_cases hname : other = name
      · subst hname
        simp [hothers other hnew, hg other (by simp [Members.has, Members.get?_cons])]
      · simp [hname]

/-- What fills an object in: the additions are found, and they make the blank object. -/
theorem WellShaped.exists_blank {schema : Json} (h : WellShaped schema) :
    ∃ f, Blank schema f ∧ ∀ path, ∃ ps, (fill path schema).outcome = .ok ps ∧
      Below path ps (.obj fun _ => none) (.obj f) := by
  induction hn : schema.weight using Nat.strong_induction_on generalizing schema with
  | _ n ih =>
  subst hn
  obtain ⟨props, hprops, hshaped⟩ := h.memberSchemas_eq
  have hparts : ∀ name part, props ≠ [] → Schema.below schema name = .ok part → WellShaped part →
      ∃ g, Blank part g ∧ ∀ path, ∃ ps, (fill path part).outcome = .ok ps ∧
        Below path ps (.obj fun _ => none) (.obj g) := by
    intro name part hne hpart hpartShaped
    cases props with
    | nil => exact absurd rfl hne
    | cons m rest => exact ih _ (below_weight_lt hprops hpart) hpartShaped rfl
  cases props with
  | nil =>
    refine ⟨fun _ => none, .mk hprops (by simp) fun _ _ => rfl, fun path => ⟨[], ?_, .nil _⟩⟩
    simp [fill_eq, hprops, Noted.gather]
  | cons m rest =>
    obtain ⟨f, hdescribed, hothers, hfill⟩ := exists_fillMembers h
      (fun name part => hparts name part (by simp)) hshaped
    refine ⟨f, .mk hprops hdescribed hothers, fun path => ?_⟩
    obtain ⟨ps, hps, hbelow⟩ := hfill path (fun _ => none) fun _ _ => rfl
    refine ⟨ps, by simp [fill_eq, hprops, hps], ?_⟩
    simpa using hbelow

theorem makesObject_of_edits {p : PatchOp} {e : Edit} {path : Path} (hp : p.Edits e path) :
    p.makesObject = .ok (decide (e.written? = some .emptyObject)) := by
  rw [PatchOp.makesObject, PatchOp.verb_of_edit hp.edit, Except.bind_ok, Edit.writes_verb]
  cases hwritten : e.written? with
  | none => rfl
  | some v =>
    rw [PatchOp.value_of_edit hp.edit hwritten]
    simp [pure, Except.pure]

theorem makesObject_add (path : Path) (v : Json) :
    (PatchOp.add path v).makesObject = .ok (decide (v = .emptyObject)) := by
  rw [makesObject_of_edits (PatchOp.edits_add path v)]
  simp [Edit.written?]

/-- After an operation that makes an empty object comes what fills the object in. -/
theorem outcome_filledOp_of_makesObject {p : PatchOp} {path : Path} (schema : Json) (hp : p.makesObject = .ok true)
    (hpath : p.path = .ok path) :
    (filledOp schema p).outcome = (do return p :: (← (fill path (← locate schema path)).outcome)) := by
  simp only [filledOp, Noted.outcome_bind, Noted.outcome_liftM, hp, hpath, Except.bind_ok, if_true, outcome_noteFilled,
    Noted.outcome_pure]
  rfl

/-- After an edit that makes no object, nothing is filled in. -/
theorem outcome_filledOp_of_ne {p : PatchOp} {e : Edit} {path : Path} (schema : Json) (hp : p.Edits e path)
    (hne : e.written? ≠ some .emptyObject) : (filledOp schema p).outcome = .ok [p] := by
  simp [filledOp, makesObject_of_edits hp, hne]

/-- What is filled in after an addition, which is something only if it makes an empty object. -/
theorem WellShaped.exists_filledOp {schema : Json} (h : WellShaped schema) {p : PatchOp} {v : Json}
    {path : Path} (hp : p.Edits (.add v) path) :
    ∃ fillings w, (filledOp schema p).outcome = .ok (p :: fillings) ∧ Below path fillings v.tree w ∧
      (v ≠ .emptyObject ∧ w = v.tree ∨ v = .emptyObject ∧ ∃ part f,
        locate schema path = .ok part ∧ Blank part f ∧ w = .obj f) := by
  by_cases hv : v = .emptyObject
  · obtain ⟨part, hpart, hshaped⟩ := h.locate_eq path
    obtain ⟨f, hblank, hfill⟩ := hshaped.exists_blank
    obtain ⟨ps, hps, hbelow⟩ := hfill path
    refine ⟨ps, .obj f, ?_, ?_, .inr ⟨hv, part, f, hpart, hblank, rfl⟩⟩
    · simp [filledOp, makesObject_of_edits hp, Edit.written?, hv, hp.path, hpart, hps]
    · rw [hv]
      exact hbelow
  · exact ⟨[], v.tree, outcome_filledOp_of_ne schema hp (by simpa [Edit.written?] using hv), .nil _, .inl ⟨hv, rfl⟩⟩

/-- After an edit of any kind, what is filled in is found, and is made of edits. -/
theorem WellShaped.exists_filledOp_of_edit {schema : Json} (h : WellShaped schema) {p : PatchOp} {e : Edit}
    {path : Path} (hp : p.Edits e path) : ∃ fillings, (filledOp schema p).outcome = .ok (p :: fillings) ∧
      ∀ q ∈ fillings, ∃ e path, q.Edits e path := by
  by_cases hempty : e.written? = some .emptyObject
  · obtain ⟨part, hpart, hshaped⟩ := h.locate_eq path
    obtain ⟨f, -, hfill⟩ := hshaped.exists_blank
    obtain ⟨ps, hps, hbelow⟩ := hfill path
    exact ⟨ps, by simp [filledOp, makesObject_of_edits hp, hempty, hp.path, hpart, hps], hbelow.edits⟩
  · exact ⟨[], outcome_filledOp_of_ne schema hp hempty, by simp⟩

theorem outcome_filled_cons (written : Json) (p : PatchOp) (ps : Patch) :
    (filled written (p :: ps)).outcome = (do
      return (← (filledOp written p).outcome) ++ (← (filled written ps).outcome)) := by
  simp only [filled, Noted.gather, Noted.outcome_bind]
  rfl

theorem outcome_filled_append (written : Json) (ps qs : Patch) :
    (filled written (ps ++ qs)).outcome = (do
      return (← (filled written ps).outcome) ++ (← (filled written qs).outcome)) := by
  induction ps with
  | nil =>
    rw [List.nil_append, show (filled written []).outcome = .ok [] from rfl]
    cases (filled written qs).outcome <;> rfl
  | cons p rest ih =>
    rw [List.cons_append, outcome_filled_cons, outcome_filled_cons, ih]
    cases (filledOp written p).outcome with
    | error fault => rfl
    | ok first =>
      cases (filled written rest).outcome with
      | error fault => rfl
      | ok second =>
        cases (filled written qs).outcome with
        | error fault => rfl
        | ok third => exact congrArg Except.ok (List.append_assoc first second third).symm

/-- What is filled in after edits of any kind is found. -/
theorem WellShaped.exists_filled_of_edits {schema : Json} (h : WellShaped schema) {ps : Patch}
    (hps : ∀ p ∈ ps, ∃ e path, p.Edits e path) : ∃ qs, (filled schema ps).outcome = .ok qs ∧
      ∀ q ∈ qs, ∃ e path, q.Edits e path := by
  induction ps with
  | nil => exact ⟨[], rfl, by simp⟩
  | cons p rest ih =>
    obtain ⟨⟨e, path, hp⟩, hrest⟩ := List.forall_mem_cons.1 hps
    obtain ⟨fillings, hfillings, hedits⟩ := h.exists_filledOp_of_edit hp
    obtain ⟨qs, hqs, hothers⟩ := ih hrest
    refine ⟨(p :: fillings) ++ qs, by rw [outcome_filled_cons, hfillings, hqs]; rfl, fun q hq => ?_⟩
    rcases List.mem_append.1 hq with hq | hq
    · rcases List.mem_cons.1 hq with rfl | hq
      · exact ⟨e, path, hp⟩
      · exact hedits q hq
    · exact hothers q hq

/-- The smallest document is the blank object of the schema at the root. -/
theorem WellShaped.exists_minimal {schema : Json} (h : WellShaped schema) :
    ∃ (ms : Members) (part : Json), (minimal schema).outcome = .ok (.obj ms) ∧ ms.AreDocument ∧
      container schema = .ok part ∧ Blank part ms.trees := by
  have hp := PatchOp.edits_add [] .emptyObject
  obtain ⟨ps, w, hps, hbelow, ⟨hne, -⟩ | ⟨-, part, f, hpart, hblank, rfl⟩⟩ := h.exists_filledOp hp
  · exact absurd rfl hne
  obtain ⟨doc, happly, hdoc, htree⟩ := hbelow.exists_apply (IsContext.root none)
    (rfl : Json.emptyObject.isDocument = true) rfl
  obtain ⟨ms, rfl⟩ : ∃ ms, doc = .obj ms := by
    cases doc <;> first | exact ⟨_, rfl⟩ | cases htree
  have hroot : Patch.apply (.add [] .emptyObject :: ps) .emptyObject = .ok (.obj ms) :=
    Patch.apply_cons (hp.apply_eq _) happly
  refine ⟨ms, part, ?_, Json.isDocument_obj.1 hdoc, hpart, ?_⟩
  · simp [minimal, filled, Noted.gather, hps, hroot]
  · rw [Json.tree_obj] at htree
    obtain rfl := Tree.obj.inj htree
    exact hblank

end Schema

end EditLens
