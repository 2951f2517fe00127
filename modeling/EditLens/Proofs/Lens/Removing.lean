import EditLens.Proofs.Patch.Expanding
import EditLens.Proofs.Schema.Inferred

/-! Lenses that start with taking a member out. Main statement: what such a lens makes of a document is the same
for any value of the member, and for none. -/
namespace EditLens

variable {lens : Lens} {property : Property} {name : String} {ms ns : Members} {patch : Patch}

namespace Lens

variable (hname : property.name = .str name)
include hname

/-- Edits below the member are dropped before any other operation sees them. -/
private theorem outcome_carryAll_removed (hpatch : ∀ p ∈ patch, ∃ e rest, p.Edits e (name :: rest)) :
    (carryAll (.remove property :: lens) patch).outcome = .ok [] := by
  induction patch with
  | nil => rfl
  | cons p rest ih =>
    rw [List.forall_mem_cons] at hpatch
    obtain ⟨⟨e, below, hedits⟩, hrest⟩ := hpatch
    rw [outcome_carryAll_cons, outcome_carry_cons hedits.path,
      LensOp.outcome_carry_remove hedits.edit property name name below hname, if_pos rfl]
    exact ih hrest

/-- Edits below other members are left to the rest of the lens. -/
private theorem outcome_carryAll_kept
    (hpatch : ∀ p ∈ patch, ∃ e token rest, p.Edits e (token :: rest) ∧ name ≠ token) :
    (carryAll (.remove property :: lens) patch).outcome = (lens.carryAll patch).outcome := by
  induction patch with
  | nil => rfl
  | cons p rest ih =>
    rw [List.forall_mem_cons] at hpatch
    obtain ⟨⟨e, token, below, hedits, hne⟩, hrest⟩ := hpatch
    rw [outcome_carryAll_cons, outcome_carryAll_cons, ih hrest, outcome_carry_cons hedits.path,
      LensOp.outcome_carry_remove hedits.edit property name token below hname, if_neg hne]
    rfl

/-- What is left of the steps that make an object are the steps that make it without the member. -/
private theorem outcome_carryAll_remove (hms : ms.AreDocument) :
    (carryAll (.remove property :: lens) (Write.add.memberSteps [] ms)).outcome =
      (lens.carryAll (Write.add.memberSteps [] (ms.without name))).outcome := by
  induction ms with
  | nil => rfl
  | cons m rest ih =>
    obtain ⟨k, v⟩ := m
    obtain ⟨other, rfl, -, -, hrest⟩ := Members.areOf_cons.1 hms
    rw [Write.memberSteps, outcome_carryAll_append, ih hrest, List.nil_append]
    unfold Members.without
    by_cases hother : name = other
    · subst hother
      rw [outcome_carryAll_removed hname fun p hp => ?_, List.filter_cons_of_neg (by simp)]
      · simp
      · obtain ⟨u, below, hedits⟩ := Write.edits_of_mem_steps .add v _ p hp
        exact ⟨_, below, hedits⟩
    · rw [outcome_carryAll_kept hname fun p hp => ?_, List.filter_cons_of_pos (by simpa using Ne.symm hother),
        Write.memberSteps, outcome_carryAll_append]
      · rfl
      · obtain ⟨u, below, hedits⟩ := Write.edits_of_mem_steps .add v _ p hp
        exact ⟨_, other, below, hedits, hother⟩

/-- The schema that is inferred from an object is followed as that of the object without the member. -/
private theorem outcome_follow_remove_infer (hms : ms.AreDocument) :
    (Lens.follow (Schema.infer (.obj ms)) (.remove property :: lens)).outcome =
      (Lens.follow (.obj (Schema.ofObject (Shape.ofMembers (ms.without name))
        (Schema.requiredNames (ms.without name)))) lens).outcome := by
  obtain ⟨schema, hschema⟩ : ∃ schema, Schema.infer (.obj ms) = .obj schema := ⟨_, rfl⟩
  rw [hschema]
  simp [Lens.follow, LensOp.follow, Schema.followFlat, Json.asObject, hname, Schema.outcome_remove_infer hms hschema]

end Lens

namespace Lens

/-- The conversion of an object depends on the schema that comes out and on the steps that come out. -/
theorem convertDocument_congr {fills : Bool} {schema? : Option Json} {target : Json}
    (hfollow : (Lens.follow (schema?.getD (Schema.infer (.obj ms))) lens).outcome =
      (Lens.follow (schema?.getD (Schema.infer (.obj ns))) lens).outcome)
    (hcarried : (lens.carryAll (Write.add.memberSteps [] ms)).outcome =
      (lens.carryAll (Write.add.memberSteps [] ns)).outcome) :
    (lens.convertDocument fills (.obj ms) schema? target).outcome =
      (lens.convertDocument fills (.obj ns) schema? target).outcome := by
  have hpatch : (lens.convertPatch fills (schema?.getD (Schema.infer (.obj ms)))
        (.arr ((Patch.creating (.obj ms)).map PatchOp.toJson))).outcome =
      (lens.convertPatch fills (schema?.getD (Schema.infer (.obj ns)))
        (.arr ((Patch.creating (.obj ns)).map PatchOp.toJson))).outcome := by
    cases fills <;> simp [convertPatch, Json.asList, Patch.expand_creating, hcarried, hfollow]
  simp only [convertDocument, Noted.outcome_bind, hpatch, hfollow]

/-- Two documents that differ in one member alone, in its value, its place or its being there, are
converted to the same document by a lens that takes the member out first, or fail alike. -/
theorem convertDocument_remove_eq (hname : property.name = .str name) (hms : ms.AreDocument)
    (hns : ns.AreDocument) (h : ms.without name = ns.without name) (lens : Lens) (fills : Bool)
    (schema? : Option Json) (target : Json) :
    (convertDocument (.remove property :: lens) fills (.obj ms) schema? target).outcome =
      (convertDocument (.remove property :: lens) fills (.obj ns) schema? target).outcome := by
  refine convertDocument_congr ?_ ?_
  · cases schema? with
    | some schema => rfl
    | none =>
      rw [Option.getD_none, Option.getD_none, outcome_follow_remove_infer hname hms,
        outcome_follow_remove_infer hname hns, h]
  · rw [outcome_carryAll_remove hname hms, outcome_carryAll_remove hname hns, h]

/-- An object with an array in it, or nothing at all, before a member that takes another name. -/
theorem convertDocument_remove_eq_items :
    let property : Property := ⟨.str "n", .null, .null, .null, .null⟩
    let lens : Lens := [.rename (.str "a") (.str "b")]
    let ms : Members := [("n", .obj [("x", .arr [.int 1, .null])]), ("a", .int 1)]
    let ns : Members := [("a", .int 1)]
    (convertDocument (.remove property :: lens) true (.obj ms) none (.obj [("c", .null)])).outcome =
      (convertDocument (.remove property :: lens) true (.obj ns) none (.obj [("c", .null)])).outcome := by
  intro property lens ms ns
  have hms : ms.AreDocument := Json.isDocument_obj.1 rfl
  have hns : ns.AreDocument := Json.isDocument_obj.1 rfl
  have hwithout : ms.without "n" = ns.without "n" := by decide
  exact convertDocument_remove_eq rfl hms hns hwithout lens true none _

end Lens

end EditLens
