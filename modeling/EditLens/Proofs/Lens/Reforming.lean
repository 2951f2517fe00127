import EditLens.Proofs.Lens.Following
import EditLens.Proofs.Schema.Formed

/-! What lenses make of the forms of documents. Main statement: a lens whose operations are about members
that a schema describes can be followed, and the schema that comes out tells the form that comes out. -/
namespace EditLens

namespace Form

/-- Forms without arrays of wrapped nulls. -/
def Calm (σ : Form) : Prop := ∀ path, σ.at? path ≠ some (.arr true (.leaf "null"))

end Form

mutual

/-- What an operation makes of the form of documents. New names must not be there yet, what is renamed
must be without wrapped nulls, and what is wrapped must be a scalar. -/
inductive LensOp.Reforms : LensOp → Form → Form → Prop
  | rename {f : String → Option Form} {source destination : String} {σ : Form}
    (described : f source = some σ) (new : f destination = none) (calm : σ.Calm) :
    LensOp.Reforms (.rename (.str source) (.str destination)) (.obj f)
      (.obj (Function.update (Function.update f source none) destination (some σ)))
  | hoist {f g : String → Option Form} {host name : String} {σ : Form}
    (hosted : f host = some (.obj g)) (described : g name = some σ) (new : f name = none) :
    LensOp.Reforms (.hoist (.str host) (.str name)) (.obj f)
      (.obj (Function.update (Function.update f host (some (.obj (Function.update g name none)))) name
        (some σ)))
  | plunge {f g : String → Option Form} {host name : String} {σ : Form}
    (hosted : f host = some (.obj g)) (described : f name = some σ) (new : g name = none)
    (other : host ≠ name) : LensOp.Reforms (.plunge (.str host) (.str name)) (.obj f)
      (.obj (Function.update (Function.update f name none) host
        (some (.obj (Function.update g name (some σ))))))
  | wrap {f : String → Option Form} {name type : String} (described : f name = some (.leaf type)) :
    LensOp.Reforms (.wrap (.str name)) (.obj f)
      (.obj (Function.update f name (some (.arr true (.leaf type)))))
  | add {f : String → Option Form} {name type : String} {property : Property}
    (hname : property.name = .str name) (new : f name = none) :
    LensOp.Reforms (.add property) (.obj f) (.obj (Function.update f name (some (.leaf type))))
  | remove {f : String → Option Form} {name : String} {property : Property}
    (hname : property.name = .str name) :
    LensOp.Reforms (.remove property) (.obj f) (.obj (Function.update f name none))
  | convert {f : String → Option Form} {name before after : String} {mapping : Mapping}
    {sourceType destinationType : Json} (described : f name = some (.leaf before))
    (values : ∀ m ∈ mapping.forward, (Form.leaf after).Allows m.2) :
    LensOp.Reforms (.convert (.str name) mapping sourceType destinationType) (.obj f)
      (.obj (Function.update f name (some (.leaf after))))
  | inside {f : String → Option Form} {name : String} {lens : Lens} {σ σ' : Form}
    (described : f name = some σ) (below : Lens.Reforms lens σ σ') :
    LensOp.Reforms (.inside (.str name) lens) (.obj f) (.obj (Function.update f name (some σ')))
  | each {lens : Lens} {wraps : Bool} {σ σ' : Form} (below : Lens.Reforms lens σ σ') :
    LensOp.Reforms (.each lens) (.arr wraps σ) (.arr wraps σ')

inductive Lens.Reforms : Lens → Form → Form → Prop
  | nil (σ : Form) : Lens.Reforms [] σ σ
  | cons {op : LensOp} {lens : Lens} {σ τ υ : Form} (first : LensOp.Reforms op σ τ)
    (others : Lens.Reforms lens τ υ) : Lens.Reforms (op :: lens) σ υ

end

namespace Schema

def isNullArray (ms : Members) : Bool :=
  (ms.valueOf "type").isText "array" && ms.has "default" &&
    match ms.get? "items" with
    | some (.obj items) => (Members.valueOf items "type").isText "null"
    | _ => false

mutual

/-- Whether an array of wrapped nulls is described anywhere in a schema. -/
def holdsNulls : Json → Bool
  | .scalar _ => false
  | .arr es => elementsHoldNulls es
  | .obj ms => isNullArray ms || membersHoldNulls ms

def elementsHoldNulls : List Json → Bool
  | [] => false
  | e :: rest => holdsNulls e || elementsHoldNulls rest

def membersHoldNulls : List (Scalar × Json) → Bool
  | [] => false
  | (_, v) :: rest => holdsNulls v || membersHoldNulls rest

end

def IsOf (schema : Json) (type : String) : Prop := schema.lookup "type" = .ok (.str type)

end Schema

open Schema

mutual

/-- Operations about members that a schema describes, which bring in names that it does not describe. With
`calm`, what is renamed has no wrapped nulls in it, and with `scalars` all that is wrapped is scalar. -/
inductive LensOp.Suits (calm scalars : Bool) : LensOp → Json → Prop
  | rename {schema part : Json} {source destination : String}
    (described : part? schema source = some part) (new : part? schema destination = none)
    (reserved : calm = true → holdsNulls part = false) :
    LensOp.Suits calm scalars (.rename (.str source) (.str destination)) schema
  | hoist {schema inner part : Json} {host name : String} (hosted : part? schema host = some inner)
    (object : IsOf inner "object") (described : part? inner name = some part)
    (new : part? schema name = none) : LensOp.Suits calm scalars (.hoist (.str host) (.str name)) schema
  | plunge {schema inner part : Json} {host name : String} (hosted : part? schema host = some inner)
    (object : IsOf inner "object") (described : part? schema name = some part)
    (new : part? inner name = none) (other : host ≠ name) :
    LensOp.Suits calm scalars (.plunge (.str host) (.str name)) schema
  | wrap {schema part : Json} {name : String} (described : part? schema name = some part)
    (reserved : scalars = true → ∃ type ∈ scalarTypes, IsOf part type) :
    LensOp.Suits calm scalars (.wrap (.str name)) schema
  | add {schema : Json} {property : Property} {name type : String} (object : IsOf schema "object")
    (hname : property.name = .str name) (named : name ≠ "") (new : part? schema name = none)
    (htype : property.type = .str type) (scalar : type ∈ scalarTypes)
    (default : property.default = .null ∨ (Form.leaf type).Allows property.default) :
    LensOp.Suits calm scalars (.add property) schema
  | remove {schema part : Json} {property : Property} {name : String}
    (hname : property.name = .str name) (described : part? schema name = some part) :
    LensOp.Suits calm scalars (.remove property) schema
  | convert {schema part : Json} {name before after : String} {mapping : Mapping} {sourceType : Json}
    (described : part? schema name = some part) (source : before ∈ scalarTypes)
    (of : IsOf part before) (destination : after ∈ scalarTypes)
    (values : ∀ m ∈ mapping.forward, (Form.leaf after).Allows m.2) :
    LensOp.Suits calm scalars (.convert (.str name) mapping sourceType (.str after)) schema
  | inside {schema part : Json} {name : String} {lens : Lens}
    (described : part? schema name = some part) (below : Lens.Suits calm scalars lens part) :
    LensOp.Suits calm scalars (.inside (.str name) lens) schema
  | each {ms : Members} {part : Json} {lens : Lens} (described : ms.get? "items" = some part)
    (below : Lens.Suits calm scalars lens part) : LensOp.Suits calm scalars (.each lens) (.obj ms)

inductive Lens.Suits (calm scalars : Bool) : Lens → Json → Prop
  | nil (schema : Json) : Lens.Suits calm scalars [] schema
  | cons {op : LensOp} {lens : Lens} {schema : Json} (first : LensOp.Suits calm scalars op schema)
    (others : ∀ next, (op.follow schema).outcome = .ok next → Lens.Suits calm scalars lens next) :
    Lens.Suits calm scalars (op :: lens) schema

end

namespace Schema

variable {schema part : Json} {σ τ : Form} {f : String → Option Form} {name type : String}

private theorem holdsNulls_part {ms : Members} {key : Scalar} (h : membersHoldNulls ms = false)
    (hpart : ms.get? key = some part) : holdsNulls part = false := by
  induction ms with
  | nil => cases hpart
  | cons m rest ih =>
    obtain ⟨k, v⟩ := m
    rw [membersHoldNulls, Bool.or_eq_false_iff] at h
    rw [Members.get?_cons] at hpart
    split at hpart
    · exact Option.some.inj hpart ▸ h.1
    · exact ih h.2 hpart

/-- A form is without wrapped nulls if its schema is. -/
private theorem HasForm.calm (h : HasForm schema σ) (hnulls : holdsNulls schema = false) : σ.Calm := by
  intro path hat
  induction h generalizing path with
  | leaf => cases path <;> cases hat
  | @arr ms wraps σ only htype default given free items ih =>
    rw [holdsNulls, Bool.or_eq_false_iff] at hnulls
    cases path with
    | nil =>
      obtain ⟨rfl, rfl⟩ : wraps = true ∧ σ = .leaf "null" := by simpa using hat
      cases hitems : ms.get? "items" with
      | none => cases free hitems
      | some part =>
        have hform := items part hitems
        cases hform with
        | leaf _ htype' =>
        simp [isNullArray, WellShaped.valueOf_of_get? htype, given rfl, hitems,
          WellShaped.valueOf_of_get? htype'] at hnulls
    | cons token rest =>
      obtain ⟨i, rfl, hbelow⟩ := Form.at?_arr_eq_some hat
      cases hitems : ms.get? "items" with
      | none =>
        rw [free hitems, Form.at?_any] at hbelow
        cases hbelow
      | some part => exact ih part hitems (holdsNulls_part hnulls.2 hitems) rest hbelow
  | @obj ms props names f only htype properties required described distinct text same parts ih =>
    rw [holdsNulls, Bool.or_eq_false_iff] at hnulls
    cases path with
    | nil => cases hat
    | cons token rest =>
      obtain ⟨σ, hσ, hbelow⟩ := Option.bind_eq_some_iff.1 hat
      have hforms : HaveForms props f := ⟨⟨distinct, text, fun _ _ => trivial⟩, same, parts⟩
      obtain ⟨part, hpart, -⟩ := hforms.exists_part hσ
      have hprops : membersHoldNulls props = false := by
        rcases properties with ⟨-, rfl⟩ | hsome
        · rfl
        · have := holdsNulls_part hnulls.2 hsome
          rw [holdsNulls, Bool.or_eq_false_iff] at this
          exact this.2
      exact ih token part σ hpart hσ (holdsNulls_part hprops hpart) rest hbelow

/-- Only objects have members that are described, and these are found. -/
private theorem HasForm.exists_of_part (h : HasForm schema σ) (hpart : part? schema name = some part) :
    ∃ ms f τ, schema = .obj ms ∧ σ = .obj f ∧ f name = some τ ∧ HasForm part τ ∧
      ∀ step, described ms (.str name) step = .ok part := by
  cases h with
  | leaf only =>
    rw [part?, memberSchemas_of_get? (.inl ⟨get?_of_onlyHas only (by simp), rfl⟩)] at hpart
    cases hpart
  | arr only =>
    rw [part?, memberSchemas_of_get? (.inl ⟨get?_of_onlyHas only (by simp), rfl⟩)] at hpart
    cases hpart
  | @obj ms props names f only htype properties required described distinct text same parts =>
    rw [part?, memberSchemas_of_get? properties] at hpart
    have hforms : HaveForms props f := ⟨⟨distinct, text, fun _ _ => trivial⟩, same, parts⟩
    obtain ⟨τ, hτ, hform⟩ := hforms.exists_form hpart
    refine ⟨ms, f, τ, rfl, rfl, hτ, hform, fun step => ?_⟩
    simp only [Schema.described, properties_of_get? properties, Json.asKey, Except.bind_ok]
    rw [show props.get? (.str name) = some part from hpart]
    rfl

private theorem HasForm.eq_none_of_part (h : HasForm schema (.obj f)) (hpart : part? schema name = none) :
    f name = none := by
  obtain ⟨ms, props, names, rfl, -, -, hmembers, -, -, -, hforms⟩ := h.exists_members
  rw [part?, hmembers] at hpart
  exact hforms.eq_none_iff.1 hpart

/-- The type that a schema gives is that of its form. -/
private theorem HasForm.leaf_of (h : HasForm schema σ) (hof : IsOf schema type) (htype : type ∈ scalarTypes) :
    σ = .leaf type := by
  have hne : type ≠ "array" ∧ type ≠ "object" := by
    constructor <;> rintro rfl <;> simp [scalarTypes] at htype
  cases h with
  | leaf only htype' =>
    rw [IsOf, WellShaped.lookup_obj, WellShaped.valueOf_of_get? htype'] at hof
    obtain rfl : _ = type := by simpa using hof
    rfl
  | arr only htype' =>
    rw [IsOf, WellShaped.lookup_obj, WellShaped.valueOf_of_get? htype'] at hof
    exact absurd (by simpa using hof.symm) hne.1
  | obj only htype' =>
    rw [IsOf, WellShaped.lookup_obj, WellShaped.valueOf_of_get? htype'] at hof
    exact absurd (by simpa using hof.symm) hne.2

theorem HasForm.obj_of (h : HasForm schema σ) (hof : IsOf schema "object") : ∃ f, σ = .obj f := by
  cases h with
  | leaf only htype scalar =>
    rw [IsOf, WellShaped.lookup_obj, WellShaped.valueOf_of_get? htype] at hof
    obtain rfl : _ = "object" := by simpa using hof
    simp [scalarTypes] at scalar
  | arr only htype =>
    rw [IsOf, WellShaped.lookup_obj, WellShaped.valueOf_of_get? htype] at hof
    simp at hof
  | obj => exact ⟨_, rfl⟩

end Schema

def LensOp.Forms (op : LensOp) : Prop :=
  ∀ {schema : Json} {σ : Form}, HasForm schema σ → op.Suits true true schema →
    ∃ next σ', (op.follow schema).outcome = .ok next ∧ HasForm next σ' ∧ op.Reforms σ σ'

def Lens.Forms (lens : Lens) : Prop :=
  ∀ {schema : Json} {σ : Form}, HasForm schema σ → Lens.Suits true true lens schema →
    ∃ next σ', (Lens.follow schema lens).outcome = .ok next ∧ HasForm next σ' ∧ Lens.Reforms lens σ σ'

namespace LensOp

private theorem forms_rename (s d : Json) : (LensOp.rename s d).Forms := by
  intro schema σ h hsuits
  cases hsuits with
  | @rename _ part source destination described new reserved =>
  obtain ⟨ms, f, τ, rfl, rfl, hτ, hform, -⟩ := h.exists_of_part described
  have hnew := h.eq_none_of_part new
  obtain ⟨_, props, names, heq, -, -, -, hprops, hnames, hnamed, hforms⟩ := h.exists_members
  obtain rfl := Json.obj.inj heq
  obtain ⟨part', hpart', -⟩ := hforms.exists_part hτ
  have hrenamed : renameKey props source destination = props.renamed source destination :=
    Members.ofEntries_eq (hforms.names.renamed (hforms.eq_none_iff.2 hnew)).distinct
  refine ⟨_, _, ?_, h.requiring (hforms.renamed hτ hnew) (hnamed.renamed source destination),
    .rename hτ hnew (hform.calm (reserved rfl))⟩
  simp [LensOp.follow, followFlat, Json.asObject, Schema.rename, hprops, Json.asKey, hrenamed,
    Members.has_iff.2 ⟨part', hpart'⟩, hnames]

private theorem forms_remove (property : Property) : (LensOp.remove property).Forms := by
  intro schema σ h hsuits
  cases hsuits with
  | @remove _ part property name hname described =>
  obtain ⟨-, f, τ, -, rfl, -⟩ := h.exists_of_part described
  obtain ⟨ms, props, names, rfl, -, -, -, hprops, hnames, hnamed, hforms⟩ := h.exists_members
  refine ⟨_, _, ?_, h.requiring (hforms.without name) (hnamed.unlisted name), .remove hname⟩
  simp only [LensOp.follow, followFlat, Json.asObject, Schema.remove, hprops, hname, Json.asKey,
    hnames, Noted.outcome_bind, Noted.outcome_liftM, Except.bind_ok]
  cases props.has name <;> rfl

/-- A member may be described in another way. -/
private theorem describe_eq {ms : Members} {f : String → Option Form} {part : Json} {τ : Form}
    (h : HasForm (.obj ms) (.obj f)) (name : String) (hpart : HasForm part τ) :
    ∃ ms', describe ms (.str name) part = .ok ms' ∧
      HasForm (.obj ms') (.obj (Function.update f name (some τ))) := by
  obtain ⟨_, props, names, heq, -, -, -, hprops, hnames, hnamed, hforms⟩ := h.exists_members
  obtain rfl := Json.obj.inj heq
  refine ⟨_, ?_, h.describing (hforms.put name hpart) hnames (hnamed.update name)⟩
  simp [describe, hprops, Json.asKey]

private theorem forms_hoist (h n : Json) : (LensOp.hoist h n).Forms := by
  intro schema σ hform hsuits
  cases hsuits with
  | @hoist _ inner part host name hosted object described new =>
  obtain ⟨ms, f, τ, rfl, rfl, hτ, hinner, hlookup⟩ := hform.exists_of_part hosted
  obtain ⟨g, rfl⟩ := hinner.obj_of object
  obtain ⟨ns, g', υ, rfl, heq, hυ, -⟩ := hinner.exists_of_part described
  obtain rfl := Form.obj.inj heq
  have hnew := hform.eq_none_of_part new
  obtain ⟨_, props, names, heq', -, -, -, hprops, hnames, hnamed, hforms⟩ := hform.exists_members
  obtain rfl := Json.obj.inj heq'
  obtain ⟨_, inners, inames, heq'', -, -, -, hinners, hinames, hinamed, hiforms⟩ :=
    hinner.exists_members
  obtain rfl := Json.obj.inj heq''
  obtain ⟨part₂, hpart₂, hform₂⟩ := hiforms.exists_part hυ
  have hhost := hinner.requiring (hiforms.without name) (hinamed.unlisted name)
  have hmoved := (hforms.put host hhost).put name hform₂
  refine ⟨_, _, ?_, hform.requiring hmoved
    (((hnamed.update host).update name).enlisted name (by simp) (listed inames (.str name) = true)),
    .hoist hτ hυ hnew⟩
  simp [LensOp.follow, followFlat, Json.asObject, Schema.hoist, hlookup, hinners, hprops, hnames,
    hinames, Json.asKey, hpart₂]

private theorem forms_plunge (h n : Json) : (LensOp.plunge h n).Forms := by
  intro schema σ hform hsuits
  cases hsuits with
  | @plunge _ inner part host name hosted object described new other =>
  obtain ⟨-, f, τ, -, rfl, hτ, hinner, -⟩ := hform.exists_of_part hosted
  obtain ⟨g, rfl⟩ := hinner.obj_of object
  obtain ⟨-, f', υ, -, heq, hυ, -⟩ := hform.exists_of_part described
  obtain rfl := Form.obj.inj heq
  have hnew := hinner.eq_none_of_part new
  obtain ⟨ms, props, names, rfl, -, -, -, hprops, hnames, hnamed, hforms⟩ := hform.exists_members
  obtain ⟨part₁, hpart₁, hform₁⟩ := hforms.exists_part hτ
  obtain ⟨part₂, hpart₂, hform₂⟩ := hforms.exists_part hυ
  obtain ⟨ns, inners, inames, rfl, -, -, -, hinners, hinames, hinamed, hiforms⟩ :=
    hform₁.exists_members
  have hhost := hform₁.requiring (hiforms.put name hform₂)
    ((hinamed.update name).enlisted name (by simp) (listed names (.str name) = true))
  have hmoved := (hforms.without name).put host hhost
  refine ⟨_, _, ?_, hform.requiring hmoved ((hnamed.unlisted name).update host),
    .plunge hτ hυ hnew other⟩
  have hdemand : Members.demand (props.without (.str name)) (.str host) = .ok (.obj ns) := by
    rw [Members.demand, Members.get?_without, if_neg (by simpa using Ne.symm other), hpart₁]
  simp [LensOp.follow, followFlat, Json.asObject, Schema.plunge, hinners, hprops, hnames, hinames,
    Json.asKey, hpart₂, hdemand, Members.has_iff.2 ⟨_, hpart₁⟩]

/-- Null is no value of its own in the schema of a scalar, but for its default. -/
private theorem withoutNull_eq {part : Json} {type : String} (h : HasForm part (.leaf type)) :
    ∃ part', withoutNull part = .ok part' ∧ HasForm part' (.leaf type) := by
  cases h with
  | @leaf ms _ only htype scalar default =>
  obtain ⟨ns, hns, -, htyped⟩ := withoutNull_cases (get?_of_onlyHas only (by simp))
    (get?_of_onlyHas only (by simp))
  refine ⟨_, hns, ?_⟩
  rcases htyped (by simp [htype]) with rfl | ⟨-, rfl⟩
  · exact .leaf only htype scalar default
  · refine .leaf (fun keyword hkeyword => ?_) ?_ scalar fun v hv => ?_
    · rw [Members.has, Members.get?_without] at hkeyword
      split at hkeyword
      · cases hkeyword
      · exact only keyword hkeyword
    · rwa [Members.get?_without, if_neg (by simp)]
    · rw [Members.get?_without, if_pos (by simp)] at hv
      cases hv

private theorem forms_wrap (n : Json) : (LensOp.wrap n).Forms := by
  intro schema σ h hsuits
  cases hsuits with
  | @wrap _ part name hdescribed reserved =>
  obtain ⟨ms, f, τ, rfl, rfl, hτ, hpart, hlookup⟩ := h.exists_of_part hdescribed
  obtain ⟨type, hscalar, hof⟩ := reserved rfl
  obtain rfl := hpart.leaf_of hof hscalar
  obtain ⟨items, hitems, hform⟩ := withoutNull_eq hpart
  have harray : HasForm (.obj [("type", .str "array"), ("default", .arr []), ("items", items)])
      (.arr true (.leaf type)) := by
    refine .arr (onlyHas_of_mem (by simp)) rfl (fun v hv => ?_) (fun _ => rfl) (fun hnone => ?_) fun part hpart => ?_
    · obtain rfl := Option.some.inj hv
      rfl
    · cases hnone
    · obtain rfl := Option.some.inj hpart
      exact hform
  obtain ⟨ms', hms', hform'⟩ := describe_eq h name harray
  refine ⟨_, _, ?_, hform', .wrap hτ⟩
  simp [LensOp.follow, followFlat, Json.asObject, Schema.wrap, hlookup, hitems, hms']

/-- The type and the default of a new scalar member. -/
private theorem typeAndDefault_eq {type : String} {default : Json} (hscalar : type ∈ scalarTypes)
    (h : default = .null ∨ (Form.leaf type).Allows default) :
    ∃ v, typeAndDefault (.str type) default = .ok [("type", .str type), ("default", v)] ∧
      (Form.leaf type).Allows v := by
  have hempty : ∃ v, defaultOfType (.str type) = .ok v ∧ (Form.leaf type).Allows v := by
    simp only [scalarTypes, List.mem_cons, List.not_mem_nil, or_false] at hscalar
    rcases hscalar with rfl | rfl | rfl | rfl | rfl <;> exact ⟨_, rfl, rfl⟩
  obtain ⟨v, hv, hallows⟩ := hempty
  have htype : (Json.str type).isNull = false := rfl
  cases hnull : default.isNull with
  | true => exact ⟨v, by simp [typeAndDefault, htype, hnull, hv], hallows⟩
  | false =>
    have hdefault : (Form.leaf type).Allows default := by
      rcases h with rfl | h
      · cases hnull
      · exact h
    exact ⟨default, by simp [typeAndDefault, htype, hnull]; rfl, hdefault⟩

private theorem hasForm_leaf {type : String} {ms : Members} (hscalar : type ∈ scalarTypes)
    (hms : ms = [(.str "type", .str type)] ∨
      ∃ v, ms = [(.str "type", .str type), (.str "default", v)] ∧ (Form.leaf type).Allows v) :
    HasForm (.obj ms) (.leaf type) := by
  rcases hms with rfl | ⟨v, rfl, hv⟩
  · refine .leaf (onlyHas_of_mem (by simp)) rfl hscalar fun v hv => ?_
    cases hv
  · refine .leaf (onlyHas_of_mem (by simp)) rfl hscalar fun w hw => ?_
    obtain rfl := Option.some.inj hw
    exact hv

private theorem forms_add (property : Property) : (LensOp.add property).Forms := by
  intro schema σ h hsuits
  cases hsuits with
  | @add _ property name type object hname named new htype scalar default =>
  obtain ⟨f, rfl⟩ := h.obj_of object
  have hnew := h.eq_none_of_part new
  obtain ⟨ms, props, names, rfl, -, -, -, hprops, hnames, hnamed, hforms⟩ := h.exists_members
  obtain ⟨v, hv, hallows⟩ := typeAndDefault_eq scalar default
  have hproperty : ofProperty property = .ok (.obj [("type", .str type), ("default", v)]) := by
    have hne : type ≠ "array" := by
      rintro rfl
      simp [scalarTypes] at scalar
    simp [ofProperty, htype, hv, Members.valueOf, Members.get?_cons, hne]
    rfl
  have hmember := hforms.put name (hasForm_leaf scalar (.inr ⟨v, rfl, hallows⟩))
  refine ⟨_, _, ?_, h.requiring hmember
    ((hnamed.update name).enlisted name (by simp) (¬ property.required = .bool false)),
    .add hname hnew⟩
  simp [LensOp.follow, followFlat, Json.asObject, Schema.add, hprops, hnames, hname, named, Json.truthy,
    hproperty, Json.asKey]

private theorem forms_convert (n : Json) (mapping : Mapping) (sourceType destinationType : Json) :
    (LensOp.convert n mapping sourceType destinationType).Forms := by
  intro schema σ h hsuits
  cases hsuits with
  | @convert _ part name before after mapping sourceType hdescribed source of destination values =>
  obtain ⟨ms, f, τ, rfl, rfl, hτ, hpart, hlookup⟩ := h.exists_of_part hdescribed
  obtain rfl := hpart.leaf_of of source
  obtain ⟨ms', hms', hform⟩ := describe_eq h name (hasForm_leaf destination (.inl rfl))
  refine ⟨_, _, ?_, hform, .convert hτ values⟩
  simp [LensOp.follow, followFlat, Json.asObject, Schema.convert, hlookup, Json.isNull, hms']

private theorem forms_inside (n : Json) {lens : Lens} (ih : lens.Forms) :
    (LensOp.inside n lens).Forms := by
  intro schema σ h hsuits
  cases hsuits with
  | @inside _ part name _ hdescribed below =>
  obtain ⟨ms, f, τ, rfl, rfl, hτ, hpart, hlookup⟩ := h.exists_of_part hdescribed
  obtain ⟨next, σ', hnext, hform, hreforms⟩ := ih hpart below
  obtain ⟨ms', hms', hform'⟩ := describe_eq h name hform
  exact ⟨_, _, by simp [LensOp.follow, Json.asObject, hlookup, hnext, hms'], hform',
    .inside hτ hreforms⟩

private theorem forms_each {lens : Lens} (ih : lens.Forms) : (LensOp.each lens).Forms := by
  intro schema σ h hsuits
  cases hsuits with
  | @each ms part _ hitems below =>
  cases h with
  | leaf only =>
    rw [get?_of_onlyHas only (by simp)] at hitems
    cases hitems
  | obj only =>
    rw [get?_of_onlyHas only (by simp)] at hitems
    cases hitems
  | @arr _ wraps σ only htype default given free items =>
    obtain ⟨next, σ', hnext, hform, hreforms⟩ := ih (items part hitems) below
    refine ⟨_, _, ?_, (HasForm.arr only htype default given free items).enumerating hform, .each hreforms⟩
    simp [LensOp.follow, Json.mentions, Members.has, hitems, WellShaped.valueOf_of_get? hitems, hnext]

end LensOp

mutual

theorem LensOp.forms : ∀ op : LensOp, op.Forms
  | .rename s d => LensOp.forms_rename s d
  | .hoist h n => LensOp.forms_hoist h n
  | .plunge h n => LensOp.forms_plunge h n
  | .wrap n => LensOp.forms_wrap n
  | .head _ => fun _ hsuits => by cases hsuits
  | .add property => LensOp.forms_add property
  | .remove property => LensOp.forms_remove property
  | .inside n lens => LensOp.forms_inside n (Lens.forms lens)
  | .each lens => LensOp.forms_each (Lens.forms lens)
  | .convert n mapping s d => LensOp.forms_convert n mapping s d

/-- A lens that suits a schema can be followed, and the schema tells the form that comes out. -/
theorem Lens.forms : ∀ lens : Lens, lens.Forms
  | [] => fun h _ => ⟨_, _, rfl, h, .nil _⟩
  | op :: rest => fun h hsuits => by
    cases hsuits with
    | cons first others =>
    obtain ⟨next, τ, hnext, hform, hreforms⟩ := LensOp.forms op h first
    obtain ⟨last, υ, hlast, hform', hreforms'⟩ := Lens.forms rest hform (others next hnext)
    refine ⟨last, υ, ?_, hform', .cons hreforms hreforms'⟩
    simp [Lens.follow, hnext, hlast]

end

end EditLens
