import EditLens.Proofs.Lens.Converting
import EditLens.Proofs.Schema.Completing

/-! Documents through a lens that only adds. Main statement: their conversion with a schema is the document
completed by the schema that comes out. -/
namespace EditLens

open Schema EditLens.Tree

/-- Lenses that do nothing but add members, as they are given in data. -/
def Lens.OnlyAdds (lens : Lens) : Prop :=
  ∀ op ∈ lens, ∃ property, op = .add property ∧ (∃ name : String, property.name = .str name) ∧
    property.default.isDocument = true ∧ property.items.isDocument = true

namespace Schema

variable {schema whole : Json}

/-- The smallest document of a schema has the members that an object has by default. -/
theorem minimal_cases (hwhole : container schema = .ok whole) (h : Legible whole) :
    (∃ given base : Members, blanks whole = .ok given ∧ given.AreDocument ∧
      (minimal schema).outcome = .ok (.obj base) ∧ base.AreDocument ∧ base.trees = given.trees) ∨
      ∃ types fault, defaultOfType types = .error fault ∧ blanks whole = .error fault ∧
        (minimal schema).outcome = .error fault := by
  have hfill := completes_fill h []
  have hfilledOp := outcome_filledOp_add schema .emptyObject []
  rw [if_pos rfl, locate, hwhole, Except.bind_ok] at hfilledOp
  rw [← hfilledOp] at hfill
  have hminimal : (minimal schema).outcome = (do
      Patch.apply ((← (filledOp schema (.add [] .emptyObject)).outcome) ++ []) .emptyObject) := by
    simp [minimal, filled, Noted.gather]
  rw [hminimal]
  generalize (filledOp schema (.add [] .emptyObject)).outcome = patch at hfill
  cases hgiven : blanks whole with
  | error fault =>
    rw [hgiven] at hfill
    cases hfill with
    | error htype => exact .inr ⟨_, fault, htype, rfl, rfl⟩
  | ok given =>
    rw [hgiven] at hfill
    cases hfill with
    | ok below document =>
    obtain ⟨doc, happly, hdoc, htree⟩ := below.exists_apply (IsContext.root none)
      (rfl : Json.emptyObject.isDocument = true) rfl
    rw [Json.tree_obj] at htree
    obtain ⟨base, rfl⟩ : ∃ base, doc = .obj base := by
      cases doc with
      | obj base => exact ⟨base, rfl⟩
      | scalar s => cases htree
      | arr es => rw [Json.tree_arr] at htree; cases htree
    rw [Json.tree_obj] at htree
    refine .inl ⟨given, base, rfl, Json.isDocument_obj.1 document, ?_, Json.isDocument_obj.1 hdoc, Tree.obj.inj htree⟩
    rw [Except.bind_ok, List.append_nil]
    exact Patch.apply_cons ((PatchOp.edits_add [] .emptyObject).apply_eq _) happly

end Schema

namespace Lens

variable {lens : Lens} {schema next doc : Json}

/-- Additions take every operation as it is. -/
private theorem OnlyAdds.carryAll_eq (h : OnlyAdds lens) {ps : Patch} (hps : ∀ p ∈ ps, ∃ e path, p.Edits e path) :
    (lens.carryAll ps).outcome = .ok ps := by
  have hcarry : ∀ {p : PatchOp} {path : Path}, p.path = .ok path → (Lens.carry p lens).outcome = .ok (some p) := by
    intro p path hpath
    induction lens with
    | nil => rfl
    | cons op rest ih =>
      obtain ⟨⟨property, rfl, -⟩, hrest⟩ := List.forall_mem_cons.1 h
      rw [outcome_carry_cons hpath]
      exact ih hrest
  induction ps with
  | nil => rfl
  | cons p rest ih =>
    obtain ⟨⟨e, path, hp⟩, hrest⟩ := List.forall_mem_cons.1 hps
    rw [outcome_carryAll_cons, hcarry hp.path, ih hrest]
    rfl

private theorem OnlyAdds.legible (h : OnlyAdds lens) (hlegible : Legible schema)
    (hfollow : (Lens.follow schema lens).outcome = .ok next) : Legible next := by
  induction lens generalizing schema with
  | nil => exact Except.ok.inj hfollow ▸ hlegible
  | cons op rest ih =>
    obtain ⟨⟨property, rfl, ⟨name, hname⟩, hdefault, hitems⟩, hrest⟩ := List.forall_mem_cons.1 h
    rw [Lens.follow, Noted.outcome_bind] at hfollow
    obtain ⟨middle, hmiddle, hfollow⟩ := Except.exists_of_bind hfollow
    simp only [LensOp.follow, followFlat, Noted.outcome_bind, Noted.outcome_liftM] at hmiddle
    obtain ⟨ms, hms, hmiddle⟩ := Except.exists_of_bind hmiddle
    obtain rfl := Except.ok.inj hmiddle
    exact ih hrest (hlegible.add hname hdefault hitems hms) hfollow

/-- A lens that only adds converts a document by completing it with the defaults of the schema that comes out:
every value of the document stays, and nothing fails but that a type has no default. -/
theorem convertDocument_completes (hadds : OnlyAdds lens) (hlegible : Legible schema)
    (hdoc : doc.isDocument = true) (hobject : doc.isObject = true)
    (hfollow : (Lens.follow schema lens).outcome = .ok next) :
    match complete next doc with
    | .ok v => ∃ result, (lens.convertDocument true doc (some schema) .null).outcome = .ok result ∧
        result.same v = true ∧ Part doc.tree result.tree
    | .error fault => (∃ types, defaultOfType types = .error fault) ∧
        ∃ fault, (lens.convertDocument true doc (some schema) .null).outcome = .error fault := by
  obtain ⟨ms, rfl⟩ := Json.exists_obj_of_isObject hobject
  have hms := Json.isDocument_obj.1 hdoc
  have hcarried := hadds.carryAll_eq (Patch.grows_creating hms).edits
  obtain ⟨whole, hwhole, hwholeLegible⟩ := (hadds.legible hlegible hfollow).container_eq
  have hat : ∀ token rest, locate next ([] ++ token :: rest) = (do locate (← step whole token) rest) :=
    fun token rest => by rw [List.nil_append, locate, hwhole, Except.bind_ok]
  have hputs := fun f => puts_memberSteps next ms hms hwholeLegible hat f
  have hcomplete : complete next (.obj ms) = (do
      let given ← blanks whole
      return .obj (given.putAll (← completeMembers whole ms))) := by
    rw [complete, hwhole, Except.bind_ok]
  rw [outcome_convertDocument hfollow hcarried]
  rcases minimal_cases hwhole hwholeLegible with
    ⟨given, base, hgiven, hgivenDoc, hminimal, hbase, htrees⟩ | ⟨types, fault, htype, hgiven, hminimal⟩
  · rw [hgiven, Except.bind_ok] at hcomplete
    rw [hminimal]
    have hputs := hputs base.trees
    generalize (filled next _).outcome = patch at hputs ⊢
    cases hown : completeMembers whole ms with
    | error fault =>
      rw [hown] at hputs hcomplete
      cases hputs with
      | error htype =>
      rw [hcomplete]
      exact ⟨⟨_, htype⟩, fault, rfl⟩
    | ok own =>
      rw [hown] at hputs hcomplete
      cases hputs with
      | ok below document =>
      obtain ⟨result, happly, hresult, htree⟩ := below.exists_apply (IsContext.root none)
        (Json.isDocument_obj.2 hbase) (Json.tree_obj base)
      obtain ⟨text, htext⟩ := Patch.exists_describe_of_edits below.edits
      have hsame : result.tree = (Json.obj (given.putAll own)).tree := by
        rw [htree, Json.tree_obj]
        exact congrArg Tree.obj (funext fun name => by rw [document.trees_putAll, htrees])
      rw [hcomplete]
      refine ⟨result, ?_, Json.same_of_tree hresult (Json.isDocument_obj.2 (hgivenDoc.putAll document)) hsame,
        hsame ▸ part_complete _ hdoc hcomplete⟩
      simp [htext, Json.asObject, Patch.outcome_applyIfThere happly]
  · rw [hgiven] at hcomplete
    rw [hcomplete, hminimal]
    refine ⟨⟨types, htype⟩, ?_⟩
    cases (filled next _).outcome with
    | error fault => exact ⟨fault, rfl⟩
    | ok qs =>
      rw [Except.bind_ok]
      cases qs.describe <;> exact ⟨_, rfl⟩

/-- Beside a new member, an alternative for objects gives a default below a member that may be null. -/
theorem convertDocument_completes_items :
    let inner : Json := .obj [("properties", .obj [("s", .obj [("type", .str "string")])])]
    let union : Json := .obj [("anyOf", .arr [.obj [("type", .str "null")], inner])]
    let schema : Json := .obj [("properties", .obj [("p", union)])]
    let lens : Lens := [.add ⟨.str "n", .str "number", .null, .null, .null⟩]
    let doc : Json := .obj [("p", .obj [("t", .bool true)])]
    let whole : Json := .obj [("p", .obj [("s", .str ""), ("t", .bool true)]), ("n", .int 0)]
    ∃ result, (lens.convertDocument true doc (some schema) .null).outcome = .ok result ∧
      result.same whole = true := by
  intro inner union schema lens doc whole
  have htype : ∀ type : String, Legible (.obj [("type", .str type)]) := fun type =>
    .flat rfl rfl (by simp [Members.get?_cons]) (by simp [Members.get?_cons])
  have hinner : Legible inner := .mk rfl (by simp) rfl (by simp [Members.Distinct]) (by simp)
    (by simpa using fun _ => htype "string") (by simp [Members.get?_cons]) (by simp [Members.get?_cons])
  have hunion : Legible union := .mk rfl (by simpa using ⟨htype "null", hinner⟩) rfl .nil (by simp) (by simp)
    (by simp [Members.get?_cons]) (by simp [Members.get?_cons])
  have hschema : Legible schema := .mk rfl (by simp) rfl (by simp [Members.Distinct]) (by simp)
    (by simpa using fun _ => hunion) (by simp [Members.get?_cons]) (by simp [Members.get?_cons])
  have hadds : OnlyAdds lens := List.forall_mem_singleton.2 ⟨_, rfl, ⟨"n", rfl⟩, rfl, rfl⟩
  obtain ⟨next, hfollow, hcomplete⟩ : ∃ next, (Lens.follow schema lens).outcome = .ok next ∧
      complete next doc = .ok whole := ⟨_, rfl, by decide +kernel⟩
  have h := convertDocument_completes hadds hschema (rfl : doc.isDocument = true) rfl hfollow
  rw [hcomplete] at h
  obtain ⟨result, hresult, hsame, -⟩ := h
  exact ⟨result, hresult, hsame⟩

end Lens

end EditLens
