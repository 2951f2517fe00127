import EditLens.Proofs.Schema.Formed

/-! Simple schemas, and the documents that they admit. Main statements: a simple schema tells a form, the
documents that it admits are of that form, and those of the form with all its members are admitted. -/
namespace EditLens.Schema

/-- Schemas with a single type each. Of objects the members are described and some of these are required,
and of arrays the elements are described, as far as anything is said; nothing else is said. -/
inductive Simple : Json → Prop
  | scalar {ms : Members} {type : String} (only : ms.OnlyHas ["type"])
    (htype : ms.get? "type" = some (.str type)) (scalar : type ∈ scalarTypes) : Simple (.obj ms)
  | array {ms : Members} (only : ms.OnlyHas ["type", "items"])
    (htype : ms.get? "type" = some (.str "array"))
    (items : ∀ part, ms.get? "items" = some part → Simple part) : Simple (.obj ms)
  | object {ms props : Members} {names : List Json} (only : ms.OnlyHas ["type", "properties", "required"])
    (htype : ms.get? "type" = some (.str "object"))
    (properties : (ms.get? "properties" = none ∧ props = []) ∨
      ms.get? "properties" = some (.obj props))
    (required : (ms.get? "required" = none ∧ names = []) ∨ ms.get? "required" = some (.arr names))
    (described : ∀ n ∈ names, ∃ name : String, n = .str name ∧ props.has name = true)
    (distinct : props.Distinct) (text : ∀ m ∈ props, ∃ name : String, m.1 = .str name)
    (parts : ∀ (name : String) (part : Json), props.get? name = some part → Simple part) :
    Simple (.obj ms)

/-- Documents with the types that a schema gives. Objects have the required members, and none that is not
described. Defaults do not matter. -/
inductive Admits : Json → Json → Prop
  | scalar {ms : Members} {type : String} {s : Scalar} (htype : ms.get? "type" = some (.str type))
    (h : s.hasType type = true) : Admits (.obj ms) (.scalar s)
  | array {ms : Members} {es : List Json} (htype : ms.get? "type" = some (.str "array"))
    (elements : ∀ part, ms.get? "items" = some part → ∀ e ∈ es, Admits part e) :
    Admits (.obj ms) (.arr es)
  | object {ms props ns : Members} {names : List Json} (htype : ms.get? "type" = some (.str "object"))
    (members : memberSchemas (.obj ms) = .ok props) (required : Schema.required ms = .ok names)
    (present : ∀ name : String, .str name ∈ names → ns.has name = true)
    (known : ∀ m ∈ ns, props.has m.1 = true)
    (parts : ∀ m ∈ ns, ∀ part, props.get? m.1 = some part → Admits part m.2) :
    Admits (.obj ms) (.obj ns)

def scalarOf (type : String) : Json := .obj [("type", .str type)]

def objectOf (props : Members) (names : List Json) : Json :=
  .obj [("type", .str "object"), ("properties", .obj props), ("required", .arr names)]

section Written

variable {props ns : Members} {names : List Json} {type : String}

theorem Simple.scalarOf (h : type ∈ scalarTypes) : Simple (scalarOf type) :=
  .scalar (onlyHas_of_mem (by simp)) rfl h

theorem Simple.objectOf (hprops : props.AreOf Simple)
    (described : ∀ n ∈ names, ∃ name : String, n = .str name ∧ props.has name = true) :
    Simple (objectOf props names) :=
  .object (onlyHas_of_mem (by simp)) rfl (.inr rfl) (.inr rfl) described hprops.distinct hprops.text
    fun _ _ h => hprops.part h

end Written

variable {schema v : Json} {σ : Form}

private theorem Members.OnlyHas.mono {ms : Members} {few more : List String} (h : ms.OnlyHas few)
    (hsub : few ⊆ more) : ms.OnlyHas more := fun keyword hkeyword => hsub (h keyword hkeyword)

theorem Simple.exists_form (h : Simple schema) : ∃ σ, HasForm schema σ := by
  induction h with
  | @scalar ms type only htype scalar =>
    refine ⟨.leaf type, .leaf (Members.OnlyHas.mono only (by simp)) htype scalar fun v hv => ?_⟩
    rw [get?_of_onlyHas only (by simp)] at hv
    cases hv
  | @array ms only htype items ih =>
    have hdefault : ∀ (σ : Form) (v : Json), ms.get? "default" = some v → (Form.arr false σ).Allows v := by
      intro σ v hv
      rw [get?_of_onlyHas only (by simp)] at hv
      cases hv
    have honly : ms.OnlyHas ["type", "default", "items"] := Members.OnlyHas.mono only (by simp)
    cases hitems : ms.get? "items" with
    | none => exact ⟨.arr false .any, .arr honly htype (hdefault _) (by simp) (fun _ => rfl) fun part hpart => by
        rw [hitems] at hpart
        cases hpart⟩
    | some part =>
      obtain ⟨σ, hσ⟩ := ih part hitems
      refine ⟨.arr false σ, .arr honly htype (hdefault _) (by simp) (fun hnone => ?_) fun part' hpart' => ?_⟩
      · rw [hitems] at hnone
        cases hnone
      · obtain rfl := Option.some.inj (hitems.symm.trans hpart')
        exact hσ
  | @object ms props names only htype properties required described distinct text parts ih =>
    have hforms : ∀ name : String, ∃ o : Option Form, (props.get? name).isSome = o.isSome ∧
        ∀ part σ, props.get? name = some part → o = some σ → HasForm part σ := by
      intro name
      cases hpart : props.get? name with
      | none => exact ⟨none, rfl, by simp⟩
      | some part =>
        obtain ⟨σ, hσ⟩ := ih name part hpart
        refine ⟨some σ, rfl, fun part' σ' hpart' hσ' => ?_⟩
        obtain rfl := Option.some.inj hpart'
        obtain rfl := Option.some.inj hσ'
        exact hσ
    choose f hf using hforms
    exact ⟨.obj f, .obj only htype properties required described distinct text (fun name => (hf name).1)
      fun name part σ hpart hσ => (hf name).2 part σ hpart hσ⟩

/-- Documents that are admitted are of the form that the schema tells. -/
theorem Admits.fits (h : Admits schema v) (hform : HasForm schema σ) (hdoc : v.isDocument = true) :
    σ.Fits false v.tree := by
  induction h generalizing σ with
  | @scalar ms type s htype hs =>
    cases hform with
    | leaf only htype' =>
      obtain rfl : type = _ := by simpa using htype.symm.trans htype'
      exact .leaf hs
    | arr only htype' =>
      obtain rfl : type = "array" := by simpa using htype.symm.trans htype'
      cases s <;> simp [Scalar.hasType, Json.typeName] at hs
    | obj only htype' =>
      obtain rfl : type = "object" := by simpa using htype.symm.trans htype'
      cases s <;> simp [Scalar.hasType, Json.typeName] at hs
  | @array ms es htype elements ih =>
    rw [Json.tree_arr]
    rw [Json.isDocument_arr] at hdoc
    cases hform with
    | leaf only htype' scalar =>
      obtain rfl : "array" = _ := by simpa using htype.symm.trans htype'
      simp [scalarTypes] at scalar
    | @arr _ wraps σ only htype' default given free items =>
      refine .arr fun t ht => ?_
      obtain ⟨e, he, rfl⟩ := List.mem_map.1 ht
      cases hitems : ms.get? "items" with
      | none =>
        rw [free hitems]
        exact .any _
      | some part => exact ih part hitems e he (items part hitems) (hdoc e he)
    | obj only htype' => simpa using htype.symm.trans htype'
  | @object ms props ns names htype members required present known parts ih =>
    rw [Json.tree_obj]
    rw [Json.isDocument_obj] at hdoc
    cases hform with
    | leaf only htype' scalar =>
      obtain rfl : "object" = _ := by simpa using htype.symm.trans htype'
      simp [scalarTypes] at scalar
    | arr only htype' => simpa using htype.symm.trans htype'
    | @obj _ props' _ f only htype' properties _ described distinct text same hparts =>
      obtain rfl := Except.ok.inj (members.symm.trans (memberSchemas_of_get? properties))
      have hforms : HaveForms props f := ⟨⟨distinct, text, fun _ _ => trivial⟩, same, hparts⟩
      refine .obj (fun name hname => ?_) (by simp) fun name σ t hσ ht => ?_
      · cases hv : ns.get? name with
        | none => rw [Members.trees, hv, Option.map_none]
        | some v =>
          obtain ⟨k, hmem, hk⟩ := Members.exists_mem_of_get? hv
          obtain rfl : k = .str name := by simpa using hk
          have hhas := known _ hmem
          rw [Members.has, hforms.eq_none_iff.2 hname] at hhas
          cases hhas
      · obtain ⟨v, hv, rfl⟩ := Option.map_eq_some_iff.1 ht
        obtain ⟨k, hmem, hk⟩ := Members.exists_mem_of_get? hv
        obtain rfl : k = .str name := by simpa using hk
        obtain ⟨part, hpart, hform⟩ := hforms.exists_part hσ
        exact ih _ hmem part hpart hform (hdoc.part hv)

end EditLens.Schema
