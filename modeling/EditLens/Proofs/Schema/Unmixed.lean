import EditLens.Proofs.Schema.Formed

/-! Schemas without alternatives, each of which describes members or elements but not both. Main statement:
what stands at a path of such a schema is what a walk down its members and elements reaches. -/
namespace EditLens.Schema

/-- Schemas without alternatives, down to the schemas of parts. No schema describes members as well as
elements, and the names that are required can be read. -/
inductive Unmixed : Json → Prop
  | mk {ms props : Members} (anyOf : ms.get? "anyOf" = none) (oneOf : ms.get? "oneOf" = none)
    (required : ∃ names, Schema.required ms = .ok names)
    (properties : (ms.get? "properties" = none ∧ props = []) ∨
      ms.get? "properties" = some (.obj props))
    (exclusive : ms.get? "properties" = none ∨ ms.get? "items" = none)
    (distinct : props.Distinct) (text : ∀ m ∈ props, ∃ name : String, m.1 = .str name)
    (members : ∀ m ∈ props, Unmixed m.2)
    (items : ∀ part, ms.get? "items" = some part → Unmixed part) : Unmixed (.obj ms)

/-- A walk from a schema to the schema of a part, through members and elements that are described. -/
inductive Reaches : Json → Path → Json → Prop
  | here (schema : Json) : Reaches schema [] schema
  | member {ms : Members} {name : String} {part found : Json} {rest : Path}
    (described : part? (.obj ms) name = some part) (below : Reaches part rest found) :
    Reaches (.obj ms) (name :: rest) found
  | element {ms : Members} {token : String} {part found : Json} {rest : Path}
    (described : ms.get? "items" = some part) (index : Pointer.isIndex token = true)
    (below : Reaches part rest found) : Reaches (.obj ms) (token :: rest) found

/-- The schema of a scalar other than null, which does not describe parts and whose default is not null. -/
structure IsLeaf (schema : Json) : Prop where
  typed : ∃ type ∈ ["string", "number", "integer", "boolean"], schema.lookup "type" = .ok (.str type)
  undescribed : ∀ ms : Members, schema = .obj ms → ms.get? "properties" = none ∧ ms.get? "items" = none
  default : ∀ ms : Members, schema = .obj ms → ms.get? "default" ≠ some Json.null

namespace Unmixed

variable {schema part found : Json} {ms props : Members} {name : String} {names : List Json} {path : Path}

theorem exists_obj (h : Unmixed schema) : ∃ ms, schema = .obj ms := by
  cases h
  exact ⟨_, rfl⟩

private theorem isObject (h : Unmixed schema) : schema.isObject = true := by
  obtain ⟨ms, rfl⟩ := h.exists_obj
  rfl

/-- A schema without alternatives stands for itself. -/
theorem container_eq (h : Unmixed schema) : container schema = .ok schema := by
  cases h with
  | mk anyOf oneOf =>
  simp only [container, options, WellShaped.lookup_obj, Except.bind_ok,
    WellShaped.valueOf_of_get?_eq_none anyOf, WellShaped.valueOf_of_get?_eq_none oneOf]
  rfl

/-- The members that a schema describes, and that it requires. -/
theorem exists_members (h : Unmixed (.obj ms)) : ∃ (props : Members) (names : List Json),
    Schema.properties ms = .ok props ∧ Schema.required ms = .ok names ∧ props.AreOf Unmixed ∧
      memberSchemas (.obj ms) = .ok props ∧ (ms.get? "items" ≠ none → props = []) := by
  cases h with
  | @mk ms props anyOf oneOf required properties exclusive distinct text members =>
  obtain ⟨names, hnames⟩ := required
  refine ⟨props, names, properties_of_get? properties, hnames, ⟨distinct, text, members⟩,
    memberSchemas_of_get? properties, fun hitems => ?_⟩
  rcases properties with ⟨-, rfl⟩ | hsome
  · rfl
  · rcases exclusive with hnone | hnone
    · rw [hsome] at hnone
      cases hnone
    · exact absurd hnone hitems

theorem part?_eq (h : memberSchemas (.obj ms) = .ok props) (name : String) :
    part? (.obj ms) name = props.get? name := by
  rw [part?, h]

theorem of_part (h : Unmixed (.obj ms)) (hpart : part? (.obj ms) name = some part) : Unmixed part := by
  obtain ⟨props, -, -, -, hparts, hprops, -⟩ := h.exists_members
  rw [part?_eq hprops] at hpart
  exact hparts.part hpart

/-- Where members are described, elements are not. -/
theorem items_eq_none (h : Unmixed (.obj ms)) (hpart : part? (.obj ms) name = some part) :
    ms.get? "items" = none := by
  obtain ⟨props, -, -, -, -, hprops, hempty⟩ := h.exists_members
  rw [part?_eq hprops] at hpart
  by_contra hitems
  rw [hempty hitems] at hpart
  cases hpart

theorem of_items (h : Unmixed (.obj ms)) (hitems : ms.get? "items" = some part) : Unmixed part := by
  cases h with
  | mk _ _ _ _ _ _ _ _ items => exact items part hitems

/-- A step follows the walk, or leads to where nothing is known. -/
private theorem step_eq (h : Unmixed (.obj ms)) (token : String) :
    (∃ part, step (.obj ms) token = .ok part ∧ Unmixed part ∧
        ∀ rest found, Reaches (.obj ms) (token :: rest) found ↔ Reaches part rest found) ∨
      step (.obj ms) token = .ok .emptyObject ∧ ∀ rest found, ¬ Reaches (.obj ms) (token :: rest) found := by
  obtain ⟨props, -, -, -, hparts, hprops, hempty⟩ := h.exists_members
  have hstep : step (.obj ms) token = .ok (
      if Pointer.isIndex token && (ms.valueOf "items").isObject then ms.valueOf "items"
      else if (props.valueOf token).isObject then props.valueOf token else .emptyObject) := by
    simp only [step, WellShaped.lookup_obj, Except.bind_ok, hprops]
    split <;> rfl
  rw [hstep]
  cases hitems : ms.get? "items" with
  | some part =>
    have hpart := h.of_items hitems
    obtain rfl := hempty (by simp [hitems])
    rw [WellShaped.valueOf_of_get? hitems, hpart.isObject]
    by_cases hindex : Pointer.isIndex token = true
    · refine .inl ⟨part, by simp [hindex], hpart, fun rest found => ⟨fun hreach => ?_, .element hitems hindex⟩⟩
      cases hreach with
      | member described =>
        rw [part?_eq hprops] at described
        cases described
      | element described _ below => rwa [Option.some.inj (hitems.symm.trans described)]
    · refine .inr ⟨by simp [hindex, Members.valueOf, Json.isObject], fun rest found hreach => ?_⟩
      cases hreach with
      | member described =>
        rw [part?_eq hprops] at described
        cases described
      | element _ index => exact hindex index
  | none =>
    rw [WellShaped.valueOf_of_get?_eq_none hitems, show Json.isObject .null = false from rfl, Bool.and_false,
      if_neg Bool.false_ne_true]
    cases hpart : props.get? token with
    | some part =>
      have hshaped := hparts.part hpart
      rw [WellShaped.valueOf_of_get? hpart, hshaped.isObject]
      refine .inl ⟨part, rfl, hshaped, fun rest found => ⟨fun hreach => ?_, .member ?_⟩⟩
      · cases hreach with
        | member described below =>
          rw [part?_eq hprops] at described
          rwa [Option.some.inj (hpart.symm.trans described)]
        | element described =>
          rw [hitems] at described
          cases described
      · rw [part?_eq hprops, hpart]
    | none =>
      rw [WellShaped.valueOf_of_get?_eq_none hpart]
      refine .inr ⟨rfl, fun rest found hreach => ?_⟩
      cases hreach with
      | member described =>
        rw [part?_eq hprops, hpart] at described
        cases described
      | element described =>
        rw [hitems] at described
        cases described

/-- The schema at a path is the one that a walk reaches, or empty if the walk comes to an end. -/
theorem locate_eq (h : Unmixed schema) (path : Path) :
    (∃ found, locate schema path = .ok found ∧ Reaches schema path found) ∨
      locate schema path = .ok .emptyObject ∧ ∀ found, ¬ Reaches schema path found := by
  induction path generalizing schema with
  | nil => exact .inl ⟨schema, h.container_eq, .here schema⟩
  | cons token rest ih =>
    obtain ⟨ms, rfl⟩ := h.exists_obj
    rw [locate, h.container_eq, Except.bind_ok]
    rcases h.step_eq token with ⟨part, hpart, hshaped, hreach⟩ | ⟨hend, hnone⟩
    · rw [hpart, Except.bind_ok]
      rcases ih hshaped with ⟨found, hfound, hbelow⟩ | ⟨hfound, hbelow⟩
      · exact .inl ⟨found, hfound, (hreach rest found).2 hbelow⟩
      · exact .inr ⟨hfound, fun found hwalk => hbelow found ((hreach rest found).1 hwalk)⟩
    · exact .inr ⟨by rw [hend]; exact locate_empty rest, hnone rest⟩

theorem locate_of_reaches (h : Unmixed schema) (hreach : Reaches schema path found) :
    locate schema path = .ok found := by
  induction path generalizing schema with
  | nil =>
    cases hreach
    exact h.container_eq
  | cons token rest ih =>
    obtain ⟨ms, rfl⟩ := h.exists_obj
    rw [locate, h.container_eq, Except.bind_ok]
    rcases h.step_eq token with ⟨part, hpart, hshaped, hiff⟩ | ⟨-, hnone⟩
    · rw [hpart, Except.bind_ok]
      exact ih hshaped ((hiff rest found).1 hreach)
    · exact absurd hreach (hnone rest found)

end Unmixed

end EditLens.Schema
