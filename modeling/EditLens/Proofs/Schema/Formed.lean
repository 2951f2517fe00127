import EditLens.Proofs.Schema.Describes
import EditLens.Proofs.Schema.Form

/-! Schemas that tell the form of documents and nothing else but defaults. Main statements: such a schema
locates the form of every part, and the blank object that it fills in has its form. -/
namespace EditLens

def Members.OnlyHas (ms : Members) (keywords : List String) : Prop :=
  ∀ keyword : String, ms.has keyword = true → keyword ∈ keywords

namespace Schema

def part? (schema : Json) (name : String) : Option Json :=
  match memberSchemas schema with
  | .ok props => props.get? name
  | .error _ => none

def scalarTypes : List String := ["string", "number", "integer", "boolean", "null"]

/-- Schemas of documents of a form. Defaults are scalars of the type that is told, or empty arrays;
these are given where scalars were wrapped. -/
inductive HasForm : Json → Form → Prop
  | leaf {ms : Members} {type : String} (only : ms.OnlyHas ["type", "default"])
    (htype : ms.get? "type" = some (.str type)) (scalar : type ∈ scalarTypes)
    (default : ∀ v, ms.get? "default" = some v → (Form.leaf type).Allows v) :
    HasForm (.obj ms) (.leaf type)
  | arr {ms : Members} {wraps : Bool} {σ : Form} (only : ms.OnlyHas ["type", "default", "items"])
    (htype : ms.get? "type" = some (.str "array"))
    (default : ∀ v, ms.get? "default" = some v → (Form.arr wraps σ).Allows v)
    (given : wraps = true → ms.has "default" = true)
    (free : ms.get? "items" = none → σ = .any)
    (items : ∀ part, ms.get? "items" = some part → HasForm part σ) :
    HasForm (.obj ms) (.arr wraps σ)
  | obj {ms props : Members} {names : List Json} {f : String → Option Form}
    (only : ms.OnlyHas ["type", "properties", "required"])
    (htype : ms.get? "type" = some (.str "object"))
    (properties : (ms.get? "properties" = none ∧ props = []) ∨
      ms.get? "properties" = some (.obj props))
    (required : (ms.get? "required" = none ∧ names = []) ∨ ms.get? "required" = some (.arr names))
    (described : ∀ n ∈ names, ∃ name : String, n = .str name ∧ props.has name = true)
    (distinct : props.Distinct) (text : ∀ m ∈ props, ∃ name : String, m.1 = .str name)
    (same : ∀ name : String, (props.get? name).isSome = (f name).isSome)
    (parts : ∀ (name : String) (part : Json) (σ : Form), props.get? name = some part →
      f name = some σ → HasForm part σ) : HasForm (.obj ms) (.obj f)

structure HaveForms (props : Members) (f : String → Option Form) : Prop where
  names : props.AreOf fun _ => True
  same : ∀ name : String, (props.get? name).isSome = (f name).isSome
  parts : ∀ (name : String) (part : Json) (σ : Form), props.get? name = some part →
    f name = some σ → HasForm part σ

def Named (names : List Json) (f : String → Option Form) : Prop :=
  ∀ n ∈ names, ∃ name : String, n = .str name ∧ f name ≠ none

namespace Named

variable {names : List Json} {f : String → Option Form} {σ : Form}

theorem update (h : Named names f) (name : String) :
    Named names (Function.update f name (some σ)) := by
  intro n hn
  obtain ⟨other, rfl, hother⟩ := h n hn
  refine ⟨other, rfl, ?_⟩
  by_cases hname : other = name
  · simp [hname]
  · rwa [Function.update_of_ne hname]

theorem unlisted (h : Named names f) (name : String) :
    Named (unlisted names (.str name)) (Function.update f name none) := by
  intro n hn
  obtain ⟨hmem, hne⟩ := List.mem_filter.1 hn
  obtain ⟨other, rfl, hother⟩ := h n hmem
  have hname : other ≠ name := by
    rintro rfl
    simp [Json.same] at hne
  exact ⟨other, rfl, by rwa [Function.update_of_ne hname]⟩

/-- One more name may be listed, and need not be. -/
theorem enlisted (h : Named names f) (name : String) (hname : f name ≠ none) (c : Prop) [Decidable c] :
    Named (if c then Schema.enlisted names (.str name) else names) f := by
  split
  · rw [Schema.enlisted]
    split
    · exact h
    · intro n hn
      rcases List.mem_append.1 hn with hn | hn
      · exact h n hn
      · exact ⟨name, List.mem_singleton.1 hn, hname⟩
  · exact h

theorem renamed (h : Named names f) (source destination : String) :
    Named (names.map fun n => if n.same (.str source) then .str destination else n)
      (Function.update (Function.update f source none) destination (some σ)) := by
  intro n hn
  obtain ⟨n', hn', rfl⟩ := List.mem_map.1 hn
  obtain ⟨other, rfl, hother⟩ := h n' hn'
  by_cases hs : other = source
  · exact ⟨destination, by simp [hs, Json.same], by simp⟩
  · refine ⟨other, by simp [hs, Json.same], ?_⟩
    by_cases hd : other = destination
    · simp [hd]
    · rwa [Function.update_of_ne hd, Function.update_of_ne hs]

end Named

section Keywords

variable {ms props : Members} {names : List Json} {keywords : List String} {keyword : String}

theorem memberSchemas_of_get? (h : (ms.get? "properties" = none ∧ props = []) ∨
    ms.get? "properties" = some (.obj props)) : memberSchemas (.obj ms) = .ok props := by
  simp only [memberSchemas, WellShaped.lookup_obj, Except.bind_ok]
  rcases h with ⟨hnone, rfl⟩ | hsome
  · rw [WellShaped.valueOf_of_get?_eq_none hnone]
    rfl
  · rw [WellShaped.valueOf_of_get? hsome]
    cases props <;> rfl

theorem properties_of_get? (h : (ms.get? "properties" = none ∧ props = []) ∨
    ms.get? "properties" = some (.obj props)) : Schema.properties ms = .ok props := by
  rw [Schema.properties]
  rcases h with ⟨hnone, rfl⟩ | hsome
  · rw [WellShaped.valueOf_of_get?_eq_none hnone]
    rfl
  · rw [WellShaped.valueOf_of_get? hsome]
    cases props <;> rfl

theorem required_of_get? (h : (ms.get? "required" = none ∧ names = []) ∨
    ms.get? "required" = some (.arr names)) : Schema.required ms = .ok names := by
  rw [Schema.required]
  rcases h with ⟨hnone, rfl⟩ | hsome
  · rw [WellShaped.valueOf_of_get?_eq_none hnone]
    rfl
  · rw [WellShaped.valueOf_of_get? hsome]
    cases names <;> rfl

theorem get?_of_onlyHas (h : ms.OnlyHas keywords) (hkeyword : keyword ∉ keywords) :
    ms.get? keyword = none := by
  rw [← Members.has_eq_false, Bool.eq_false_iff]
  exact fun hhas => hkeyword (h keyword hhas)

theorem onlyHas_of_mem (h : ∀ m ∈ ms, ∃ keyword ∈ keywords, m.1 = .str keyword) :
    ms.OnlyHas keywords := by
  intro keyword hhas
  obtain ⟨v, hv⟩ := Members.has_iff.1 hhas
  obtain ⟨k, hmem, hk⟩ := Members.exists_mem_of_get? hv
  obtain ⟨other, hother, rfl⟩ := h _ hmem
  obtain rfl : other = keyword := by simpa using hk
  exact hother

/-- Where neither members nor elements are described, anything goes below. -/
private theorem step_undescribed (hitems : ms.get? "items" = none) (hprops : ms.get? "properties" = none)
    (token : String) : step (.obj ms) token = .ok .emptyObject := by
  have hmembers : memberSchemas (.obj ms) = .ok [] := memberSchemas_of_get? (.inl ⟨hprops, rfl⟩)
  simp only [step, WellShaped.lookup_obj, Except.bind_ok, hmembers,
    WellShaped.valueOf_of_get?_eq_none hitems, Json.isObject, Bool.and_false]
  rfl

theorem locate_empty (path : Path) : locate .emptyObject path = .ok .emptyObject := by
  induction path with
  | nil => rfl
  | cons token rest ih =>
    rw [locate, show container .emptyObject = .ok .emptyObject from rfl, Except.bind_ok,
      show step .emptyObject token = .ok .emptyObject from step_undescribed rfl rfl token]
    exact ih

/-- The default value of a schema that gives no more than one type. -/
theorem defaultOf_type {type : String} (htype : ms.get? "type" = some (.str type))
    (hdefault : ms.get? "default" = none) (hany : ms.get? "anyOf" = none)
    (hone : ms.get? "oneOf" = none) :
    defaultOf (.obj ms) = if type = "null" then .ok (some .null) else do
      return some (← defaultOfName (.str type)) := by
  have hoptions : options (.obj ms) = .ok [] := by
    simp only [options, WellShaped.lookup_obj, Except.bind_ok,
      WellShaped.valueOf_of_get?_eq_none hany, WellShaped.valueOf_of_get?_eq_none hone]
    rfl
  simp only [defaultOf, Json.mentions, Members.has, hdefault, htype, Option.isSome_none, Except.bind_ok,
    isNullable, WellShaped.lookup_obj, WellShaped.valueOf_of_get? htype, hoptions, Json.isText_str]
  by_cases hnull : type = "null"
  · simp [hnull]
    rfl
  · simp [hnull, anyNull, defaultOfType]

end Keywords

namespace HaveForms

variable {props : Members} {f : String → Option Form} {name : String} {part : Json} {σ : Form}

theorem exists_form (h : HaveForms props f) (hpart : props.get? name = some part) :
    ∃ σ, f name = some σ ∧ HasForm part σ := by
  have hsome := h.same name
  rw [hpart, Option.isSome_some, eq_comm, Option.isSome_iff_exists] at hsome
  obtain ⟨σ, hσ⟩ := hsome
  exact ⟨σ, hσ, h.parts name part σ hpart hσ⟩

theorem exists_part (h : HaveForms props f) (hσ : f name = some σ) :
    ∃ part, props.get? name = some part ∧ HasForm part σ := by
  have hsome := h.same name
  rw [hσ, Option.isSome_some, Option.isSome_iff_exists] at hsome
  obtain ⟨part, hpart⟩ := hsome
  exact ⟨part, hpart, h.parts name part σ hpart hσ⟩

theorem eq_none_iff (h : HaveForms props f) : props.get? name = none ↔ f name = none := by
  rw [← Option.isSome_eq_false_iff.trans Option.isNone_iff_eq_none,
    ← Option.isSome_eq_false_iff.trans Option.isNone_iff_eq_none, h.same name]

private theorem named_iff (h : HaveForms props f) {names : List Json} :
    (∀ n ∈ names, ∃ name : String, n = .str name ∧ props.has name = true) ↔ Named names f := by
  refine forall₂_congr fun n _ => exists_congr fun name => and_congr_right fun _ => ?_
  rw [← Bool.not_eq_false, Members.has_eq_false, h.eq_none_iff]

/-- Members and forms that agree name by name. -/
private theorem of_members (names : props.AreOf fun _ => True)
    (h : ∀ name : String, (props.get? name = none ∧ f name = none) ∨
      ∃ part σ, props.get? name = some part ∧ f name = some σ ∧ HasForm part σ) :
    HaveForms props f := by
  refine ⟨names, fun name => ?_, fun name part σ hpart hσ => ?_⟩
  · rcases h name with ⟨hnone, hf⟩ | ⟨part, σ, hpart, hf, -⟩
    · rw [hnone, hf]
      rfl
    · rw [hpart, hf]
      rfl
  · rcases h name with ⟨hnone, -⟩ | ⟨part', σ', hpart', hf, hform⟩
    · rw [hpart] at hnone
      cases hnone
    · obtain rfl := Option.some.inj (hpart.symm.trans hpart')
      obtain rfl := Option.some.inj (hσ.symm.trans hf)
      exact hform

private theorem members (h : HaveForms props f) (name : String) :
    (props.get? name = none ∧ f name = none) ∨
      ∃ part σ, props.get? name = some part ∧ f name = some σ ∧ HasForm part σ := by
  cases hpart : props.get? name with
  | none => exact .inl ⟨rfl, h.eq_none_iff.1 hpart⟩
  | some part =>
    obtain ⟨σ, hσ, hform⟩ := h.exists_form hpart
    exact .inr ⟨part, σ, rfl, hσ, hform⟩

theorem put (h : HaveForms props f) (name : String) (hpart : HasForm part σ) :
    HaveForms (props.put name part) (Function.update f name (some σ)) := by
  refine of_members (h.names.put name trivial) fun other => ?_
  by_cases hother : other = name
  · subst hother
    exact .inr ⟨part, σ, Members.get?_put_self, Function.update_self .., hpart⟩
  · rw [Members.get?_put, if_neg (by simpa using Ne.symm hother), Function.update_of_ne hother]
    exact h.members other

theorem without (h : HaveForms props f) (name : String) :
    HaveForms (props.without name) (Function.update f name none) := by
  refine of_members (h.names.without name) fun other => ?_
  by_cases hother : other = name
  · subst hother
    exact .inl ⟨by rw [Members.get?_without, if_pos (by simp)], Function.update_self ..⟩
  · rw [Members.get?_without, if_neg (by simpa using Ne.symm hother), Function.update_of_ne hother]
    exact h.members other

theorem renamed (h : HaveForms props f) {source destination : String} (hσ : f source = some σ)
    (hnew : f destination = none) : HaveForms (props.renamed source destination)
      (Function.update (Function.update f source none) destination (some σ)) := by
  have hfree : props.get? destination = none := h.eq_none_iff.2 hnew
  have hne : destination ≠ source := by
    rintro rfl
    rw [hnew] at hσ
    cases hσ
  obtain ⟨part, hpart, hform⟩ := h.exists_part hσ
  refine of_members (h.names.renamed hfree) fun other => ?_
  by_cases hd : other = destination
  · subst hd
    exact .inr ⟨part, σ, by rw [Members.get?_renamed_destination hfree, hpart],
      Function.update_self .., hform⟩
  by_cases hs : other = source
  · subst hs
    refine .inl ⟨Members.get?_renamed_source (by simpa using hne), ?_⟩
    rw [Function.update_of_ne hd, Function.update_self]
  · rw [Members.get?_renamed_of_ne (by simpa using hs) (by simpa using Ne.symm hd),
      Function.update_of_ne hd, Function.update_of_ne hs]
    exact h.members other

end HaveForms

namespace HasForm

variable {schema part : Json} {ms props : Members} {f : String → Option Form} {σ τ : Form}

/-- What is known about the schema of objects. -/
theorem exists_members (h : HasForm schema (.obj f)) : ∃ (ms props : Members) (names : List Json),
    schema = .obj ms ∧ ms.OnlyHas ["type", "properties", "required"] ∧
      ms.get? "type" = some (.str "object") ∧ memberSchemas (.obj ms) = .ok props ∧
      Schema.properties ms = .ok props ∧ Schema.required ms = .ok names ∧
      Named names f ∧ HaveForms props f := by
  cases h with
  | @obj ms props names _ only htype hproperties hrequired described distinct text same parts =>
  have hforms : HaveForms props f := ⟨⟨distinct, text, fun _ _ => trivial⟩, same, parts⟩
  exact ⟨ms, props, names, rfl, only, htype, memberSchemas_of_get? hproperties,
    properties_of_get? hproperties, required_of_get? hrequired, hforms.named_iff.1 described, hforms⟩

/-- The members of objects may be described in another way. -/
theorem describing (h : HasForm (.obj ms) (.obj f)) {props : Members} {names : List Json}
    {g : String → Option Form} (hforms : HaveForms props g) (hnames : Schema.required ms = .ok names)
    (hnamed : Named names g) : HasForm (.obj (withProperties ms props)) (.obj g) := by
  cases h with
  | @obj _ _ names' _ only htype _ hrequired =>
  obtain rfl : names' = names := Except.ok.inj ((required_of_get? hrequired).symm.trans hnames)
  refine .obj ?_ ?_ (.inr (by simp [withProperties])) ?_
    (hforms.named_iff.2 hnamed) hforms.names.distinct hforms.names.text hforms.same hforms.parts
  · intro keyword hkeyword
    by_cases heq : keyword = "properties"
    · simp [heq]
    · rw [Members.has, get?_withProperties heq] at hkeyword
      exact only keyword hkeyword
  · rwa [get?_withProperties (by simp)]
  · rwa [get?_withProperties (by simp)]

/-- Other members may be required, and described in another way. -/
theorem requiring (h : HasForm (.obj ms) (.obj f)) {props : Members} {names : List Json}
    {g : String → Option Form} (hforms : HaveForms props g)
    (hnamed : Named names g) :
    HasForm (.obj (withRequired (withProperties ms props) names)) (.obj g) := by
  cases h with
  | obj only htype =>
  refine .obj ?_ ?_ (.inr ?_) (.inr (by simp [withRequired]))
    (hforms.named_iff.2 hnamed) hforms.names.distinct hforms.names.text hforms.same hforms.parts
  · intro keyword hkeyword
    by_cases heq : keyword = "required"
    · simp [heq]
    by_cases heq' : keyword = "properties"
    · simp [heq']
    · rw [Members.has, get?_withRequired _ heq, get?_withProperties heq'] at hkeyword
      exact only keyword hkeyword
  · rwa [get?_withRequired _ (by simp), get?_withProperties (by simp)]
  · rw [get?_withRequired _ (by simp)]
    simp [withProperties]

/-- Elements may be described in another way. -/
theorem enumerating {wraps : Bool} (h : HasForm (.obj ms) (.arr wraps σ)) (hpart : HasForm part τ) :
    HasForm (.obj (ms.put "items" part)) (.arr wraps τ) := by
  have hget : ∀ keyword : String, keyword ≠ "items" →
      Members.get? (ms.put "items" part) keyword = ms.get? keyword := fun keyword hne => by
    simp [Members.get?_put, hne.symm]
  cases h with
  | arr only htype default given =>
  refine .arr ?_ ?_ ?_ (fun hwraps => ?_) ?_ ?_
  · intro keyword hkeyword
    by_cases heq : keyword = "items"
    · simp [heq]
    · rw [Members.has, hget keyword heq] at hkeyword
      exact only keyword hkeyword
  · rwa [hget _ (by simp)]
  · intro v hv
    rw [hget _ (by simp)] at hv
    have hallows := default v hv
    cases v with
    | arr es => exact hallows
    | _ => cases hallows
  · rw [Members.has, hget _ (by simp)]
    exact given hwraps
  · intro hnone
    rw [Members.get?_put_self] at hnone
    cases hnone
  · intro found hfound
    rw [Members.get?_put_self] at hfound
    obtain rfl := Option.some.inj hfound
    exact hpart

/-- Schemas that tell the form of documents can be read. -/
theorem shaped (h : HasForm schema σ) : WellShaped schema := by
  induction h with
  | @leaf ms type only htype scalar default =>
    refine .mk [] [] ?_ ?_ (.inl (get?_of_onlyHas only (by simp)))
      (get?_of_onlyHas only (by simp)) (.inl ⟨get?_of_onlyHas only (by simp), rfl⟩) (by simp)
      (.inl ⟨get?_of_onlyHas only (by simp), rfl⟩) .nil (by simp) (by simp) ?_
    · intro t ht
      obtain rfl := Option.some.inj (htype.symm.trans ht)
      simp only [scalarTypes, List.mem_cons, List.not_mem_nil, or_false] at scalar
      rcases scalar with rfl | rfl | rfl | rfl | rfl <;> rfl
    · intro v hv
      have hallows := default v hv
      cases v with
      | scalar s => rfl
      | _ => cases hallows
    · intro part hpart
      rw [get?_of_onlyHas only (by simp)] at hpart
      cases hpart
  | @arr ms wraps σ only htype default given free items ih =>
    refine .mk [] [] ?_ ?_ (.inl (get?_of_onlyHas only (by simp)))
      (get?_of_onlyHas only (by simp)) (.inl ⟨get?_of_onlyHas only (by simp), rfl⟩) (by simp)
      (.inl ⟨get?_of_onlyHas only (by simp), rfl⟩) .nil (by simp) (by simp) ih
    · intro t ht
      obtain rfl := Option.some.inj (htype.symm.trans ht)
      rfl
    · intro v hv
      have hallows := default v hv
      cases v with
      | arr es =>
        obtain rfl : es = [] := hallows
        rfl
      | _ => cases hallows
  | @obj ms props names f only htype properties required described distinct text same parts ih =>
    refine .mk [] props ?_ ?_ ?_
      (get?_of_onlyHas only (by simp)) (.inl ⟨get?_of_onlyHas only (by simp), rfl⟩) (by simp)
      properties distinct text ?_ ?_
    · intro t ht
      obtain rfl := Option.some.inj (htype.symm.trans ht)
      rfl
    · intro v hv
      rw [get?_of_onlyHas only (by simp)] at hv
      cases hv
    · exact required.imp And.left fun hsome => ⟨names, hsome⟩
    · intro m hm
      obtain ⟨name, hname⟩ := text m hm
      have hpart := Members.get?_of_mem distinct hm
      rw [hname] at hpart
      have hsome := same name
      rw [hpart, Option.isSome_some, eq_comm, Option.isSome_iff_exists] at hsome
      obtain ⟨σ, hσ⟩ := hsome
      exact ih name m.2 σ hpart hσ
    · intro part hpart
      rw [get?_of_onlyHas only (by simp)] at hpart
      cases hpart

/-- No alternatives are given, so a schema stands for itself. -/
theorem container_eq (h : HasForm schema σ) : container schema = .ok schema := by
  obtain ⟨ms, rfl⟩ := h.shaped.exists_obj
  refine h.shaped.container_self ?_
  cases h with
  | leaf only => exact get?_of_onlyHas only (by simp)
  | arr only => exact get?_of_onlyHas only (by simp)
  | obj only => exact get?_of_onlyHas only (by simp)

private theorem step_member_eq {name : String} (h : HasForm schema (.obj f)) (hσ : f name = some σ) :
    ∃ part, step schema name = .ok part ∧ HasForm part σ := by
  obtain ⟨ms, props, names, rfl, only, -, hmembers, -, -, -, hforms⟩ := h.exists_members
  obtain ⟨part, hpart, hform⟩ := hforms.exists_part hσ
  exact ⟨part, step_member (get?_of_onlyHas only (by simp)) hmembers hpart hform.shaped, hform⟩

/-- The schema of the part that a path leads to tells its form, or is empty if anything goes. -/
theorem locate_eq {path : Path} (h : HasForm schema σ) (hat : σ.at? path = some τ) :
    ∃ part, locate schema path = .ok part ∧ (HasForm part τ ∨ part = .emptyObject ∧ τ = .any) := by
  induction path generalizing schema σ with
  | nil =>
    obtain rfl : σ = τ := by simpa using hat
    exact ⟨schema, h.container_eq, .inl h⟩
  | cons token rest ih =>
  cases h with
  | leaf => cases hat
  | @arr ms wraps σ only htype default given free items =>
    obtain ⟨i, rfl, hbelow⟩ := Form.at?_arr_eq_some hat
    have hself := (HasForm.arr only htype default given free items).container_eq
    cases hitems : ms.get? "items" with
    | some part =>
      have hform := items part hitems
      obtain ⟨found, hfound, hforms⟩ := ih hform hbelow
      exact ⟨found, by rw [locate, hself, Except.bind_ok, step_element i hform.shaped hitems]; exact hfound,
        hforms⟩
    | none =>
      obtain rfl := free hitems
      obtain rfl : Form.any = τ := by simpa using hbelow
      have hstep := step_undescribed hitems (get?_of_onlyHas only (by simp)) i.repr
      exact ⟨.emptyObject, by rw [locate, hself, Except.bind_ok, hstep]; exact locate_empty rest,
        .inr ⟨rfl, rfl⟩⟩
  | @obj ms props names f only htype properties required described distinct text same parts =>
    obtain ⟨τ', hτ', hbelow⟩ := Option.bind_eq_some_iff.1 hat
    have hself := HasForm.obj only htype properties required described distinct text same parts
    obtain ⟨part, hstep, hform⟩ := hself.step_member_eq hτ'
    obtain ⟨found, hfound, hforms⟩ := ih hform hbelow
    exact ⟨found, by rw [locate, hself.container_eq, Except.bind_ok, hstep]; exact hfound, hforms⟩

/-- Each described member has a default value that begins its form. -/
theorem memberDefault_eq (h : HasForm schema σ) :
    ∃ v, memberDefault schema = .ok (some v) ∧ σ.Allows v := by
  rw [memberDefault, if_pos h.shaped.isObject]
  have hgiven : ∀ (ms : Members) (v : Json), schema = .obj ms → ms.get? "default" = some v →
      defaultOf schema = .ok (some v) := by
    rintro ms v rfl hv
    simp only [defaultOf, Json.mentions, Except.bind_ok, Members.has, hv, Option.isSome_some, if_true,
      WellShaped.valueOf_of_get? hv]
    rfl
  cases h with
  | @leaf ms type only htype scalar default =>
    cases hdefault : ms.get? "default" with
    | some v => exact ⟨v, hgiven ms v rfl hdefault, default v hdefault⟩
    | none =>
      rw [defaultOf_type htype hdefault (get?_of_onlyHas only (by simp))
        (get?_of_onlyHas only (by simp))]
      simp only [scalarTypes, List.mem_cons, List.not_mem_nil, or_false] at scalar
      rcases scalar with rfl | rfl | rfl | rfl | rfl <;> exact ⟨_, rfl, rfl⟩
  | @arr ms wraps σ only htype default given free items =>
    cases hdefault : ms.get? "default" with
    | some v => exact ⟨v, hgiven ms v rfl hdefault, default v hdefault⟩
    | none =>
      rw [defaultOf_type htype hdefault (get?_of_onlyHas only (by simp))
        (get?_of_onlyHas only (by simp))]
      exact ⟨_, rfl, rfl⟩
  | @obj ms props names f only htype =>
    rw [defaultOf_type htype (get?_of_onlyHas only (by simp)) (get?_of_onlyHas only (by simp))
      (get?_of_onlyHas only (by simp))]
    exact ⟨_, rfl, rfl⟩

end HasForm

/-- What is filled in for a member has the form of its schema, if this is so for objects. -/
private theorem BlankMember.fits {schema property : Json} {name : String} {o : Option Tree} {σ : Form}
    (h : BlankMember schema name property o) (hform : HasForm property σ)
    (hbelow : Schema.below schema name = .ok property)
    (ih : ∀ f g, σ = .obj f → Blank property g → σ.Fits true (.obj g)) :
    ∃ t, o = some t ∧ σ.Fits true t := by
  obtain ⟨v, hv, hallows⟩ := hform.memberDefault_eq
  cases h with
  | none default =>
    rw [default] at hv
    cases hv
  | value default nonempty =>
    obtain rfl := Option.some.inj (Except.ok.inj (default.symm.trans hv))
    exact ⟨_, rfl, hallows.fits nonempty⟩
  | object default hpart blank =>
    obtain rfl := Option.some.inj (Except.ok.inj (default.symm.trans hv))
    obtain rfl := Except.ok.inj (hbelow.symm.trans hpart)
    cases hform with
    | leaf => cases hallows
    | arr => cases hallows
    | obj => exact ⟨_, rfl, ih _ _ rfl blank⟩

/-- The blank object of a schema has the form of the schema. -/
theorem HasForm.blank {schema : Json} {σ : Form} (h : HasForm schema σ) {f : String → Option Form}
    {g : String → Option Tree} (hσ : σ = .obj f) (hblank : Blank schema g) :
    σ.Fits true (.obj g) := by
  induction h generalizing f g with
  | leaf => cases hσ
  | arr => cases hσ
  | @obj ms props names f' only htype properties required described distinct text same parts ih =>
  have hmembers := memberSchemas_of_get? properties
  have hforms : HaveForms props f' := ⟨⟨distinct, text, fun _ _ => trivial⟩, same, parts⟩
  cases hblank with
  | @mk _ blanks _ members defaults others =>
  obtain rfl := Except.ok.inj (hmembers.symm.trans members)
  have hmember : ∀ (name : String) (σ : Form), f' name = some σ →
      ∃ t, g name = some t ∧ σ.Fits true t := by
    intro name σ hσ
    obtain ⟨part, hpart, hform⟩ := hforms.exists_part hσ
    have hbelow : Schema.below (.obj ms) name = .ok part := by
      rw [Schema.below, step_member (get?_of_onlyHas only (by simp)) hmembers hpart hform.shaped]
      exact hform.container_eq
    exact (defaults name part hpart).fits hform hbelow fun f g =>
      ih name part σ hpart hσ
  refine .obj (fun name hname => others name (hforms.eq_none_iff.2 hname)) ?_ ?_
  · intro _ name hname
    rw [Option.eq_none_iff_forall_not_mem]
    intro σ hσ
    obtain ⟨t, ht, -⟩ := hmember name σ hσ
    rw [hname] at ht
    cases ht
  · intro name σ t hσ ht
    obtain ⟨t', ht', hfits⟩ := hmember name σ hσ
    obtain rfl := Option.some.inj (ht.symm.trans ht')
    exact hfits

end Schema

end EditLens
