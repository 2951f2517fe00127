import EditLens.Proofs.Schema.WellShaped
import EditLens.Schema.Follow

/-! Schemas in which nothing but the names of types can be wrong. Main statements: every step leads to such a
schema again, additions keep it such, and a default is missing only where a type has none. -/
namespace EditLens.Schema

/-- Schemas whose alternatives are schemas and whose members are described by name. What describes a member or
the elements need not be a schema at all. -/
inductive Legible : Json → Prop
  | mk {ms props : Members} {os : List Json} (union : options (.obj ms) = .ok os)
    (alternatives : ∀ o ∈ os, Legible o) (described : memberSchemas (.obj ms) = .ok props)
    (distinct : props.Distinct) (text : ∀ m ∈ props, ∃ name : String, m.1 = .str name)
    (members : ∀ m ∈ props, m.2.isObject = true → Legible m.2)
    (items : ∀ part, ms.get? "items" = some part → part.isObject = true → Legible part)
    (default : ∀ v, ms.get? "default" = some v → v.isDocument = true) : Legible (.obj ms)

namespace Legible

variable {schema : Json} {ms props : Members}

private theorem isObject (h : Legible schema) : schema.isObject = true := by
  cases h
  rfl

/-- A schema without alternatives that describes no members. -/
theorem flat (hunion : options (.obj ms) = .ok []) (hdescribed : memberSchemas (.obj ms) = .ok [])
    (items : ∀ part, ms.get? "items" = some part → part.isObject = true → Legible part)
    (default : ∀ v, ms.get? "default" = some v → v.isDocument = true) : Legible (.obj ms) :=
  .mk hunion (by simp) hdescribed .nil (by simp) (by simp) items default

private theorem empty : Legible .emptyObject := .flat rfl rfl (by simp) (by simp)

theorem container_eq (h : Legible schema) : ∃ found, container schema = .ok found ∧ Legible found := by
  cases h with
  | @mk ms props os union alternatives described distinct text members items default =>
  obtain ⟨found?, hfound⟩ := findContainer?_eq fun o ho => (alternatives o ho).isObject
  refine ⟨found?.getD (.obj ms), by simp [container, union, hfound], ?_⟩
  cases found? with
  | none => exact .mk union alternatives described distinct text members items default
  | some o => exact alternatives o (findContainer?_mem hfound)

theorem memberSchemas_eq (h : Legible schema) : ∃ props, memberSchemas schema = .ok props ∧
    props.AreOf fun part => part.isObject = true → Legible part := by
  cases h with
  | mk union alternatives described distinct text members => exact ⟨_, described, distinct, text, members⟩

theorem step_eq (h : Legible schema) (token : String) : ∃ part, step schema token = .ok part ∧ Legible part := by
  obtain ⟨props, hprops, hshaped⟩ := h.memberSchemas_eq
  cases h with
  | @mk ms _ os union alternatives described distinct text members items default =>
  simp only [step, WellShaped.lookup_obj, Except.bind_ok, hprops]
  split
  · rename_i hitems
    rw [Bool.and_eq_true] at hitems
    cases hget : ms.get? "items" with
    | none =>
      rw [WellShaped.valueOf_of_get?_eq_none hget] at hitems
      cases hitems.2
    | some part =>
      rw [WellShaped.valueOf_of_get? hget] at hitems ⊢
      exact ⟨part, rfl, items part hget hitems.2⟩
  · split
    · rename_i hpart
      cases hmember : props.get? token with
      | none =>
        rw [WellShaped.valueOf_of_get?_eq_none hmember] at hpart
        cases hpart
      | some part =>
        rw [WellShaped.valueOf_of_get? hmember] at hpart ⊢
        exact ⟨part, rfl, hshaped.part hmember hpart⟩
    · exact ⟨_, rfl, empty⟩

theorem below_eq (h : Legible schema) (token : String) :
    ∃ part, Schema.below schema token = .ok part ∧ Legible part := by
  obtain ⟨part, hpart, hlegible⟩ := h.step_eq token
  obtain ⟨found, hfound, hlegible'⟩ := hlegible.container_eq
  exact ⟨found, by rw [Schema.below, hpart]; exact hfound, hlegible'⟩

private theorem isNullable_eq (h : Legible schema) : ∃ b, isNullable schema = .ok b := by
  cases h with
  | @mk ms props os union alternatives =>
  obtain ⟨b, hb⟩ := anyNull_eq fun o ho => (alternatives o ho).isObject
  simp only [isNullable, WellShaped.lookup_obj, Except.bind_ok, union, hb]
  repeat' split
  all_goals exact ⟨_, rfl⟩

end Legible

private theorem isDocument_of_defaultOfType {types v : Json} (h : defaultOfType types = .ok v) :
    v.isDocument = true := by
  have hname : ∀ type, defaultOfName type = .ok v → v.isDocument = true := by
    intro type h
    simp only [defaultOfName, bind, Except.bind] at h
    split at h
    · cases h
    · split at h
      · rename_i entry _ hfind
        obtain rfl := Except.ok.inj h
        have hall : ∀ entry ∈ defaultByName, entry.2.isDocument = true := by decide
        exact hall _ (List.mem_of_find?_eq_some hfind)
      · cases h
  unfold defaultOfType at h
  split at h
  · obtain rfl := Except.ok.inj h
    rfl
  · split at h
    · obtain rfl := Except.ok.inj h
      rfl
    · exact hname _ h
  · exact hname _ h

/-- A member has a default or none, and else the type that is given for it has none. -/
theorem memberDefault_cases {property : Json} (h : property.isObject = true → Legible property) :
    (∃ o, memberDefault property = .ok o ∧ ∀ v, o = some v → v.isDocument = true) ∨
      ∃ types fault, defaultOfType types = .error fault ∧ memberDefault property = .error fault := by
  rw [memberDefault]
  split
  · rename_i hobject
    have hlegible := h hobject
    obtain ⟨nullable, hnullable⟩ := hlegible.isNullable_eq
    cases hlegible with
    | @mk ms props os union alternatives described distinct text members items default =>
    simp only [defaultOf, Json.mentions, WellShaped.lookup_obj, Except.bind_ok, hnullable]
    by_cases hdefault : ms.has "default" = true
    · obtain ⟨v, hv⟩ := Members.has_iff.1 hdefault
      rw [if_pos hdefault, WellShaped.valueOf_of_get? hv]
      exact .inl ⟨some v, rfl, fun w hw => Option.some.inj hw ▸ default v hv⟩
    · rw [if_neg hdefault]
      cases nullable with
      | true => exact .inl ⟨some .null, rfl, fun w hw => Option.some.inj hw ▸ rfl⟩
      | false =>
        by_cases htype : ms.has "type" = true
        · cases hv : defaultOfType (ms.valueOf "type") with
          | error fault => exact .inr ⟨_, fault, hv, by simp [htype]⟩
          | ok v =>
            refine .inl ⟨some v, by simp [htype], fun w hw => ?_⟩
            exact Option.some.inj hw ▸ isDocument_of_defaultOfType hv
        · exact .inl ⟨none, by simp [htype]; rfl, by simp⟩
  · exact .inl ⟨none, rfl, by simp⟩

section Adding

variable {property : Property} {type default v : Json}

/-- A new property has a type and a default and nothing else is said about it. -/
private theorem legible_of_typeAndDefault {description : Members} (hdefault : default.isDocument = true)
    (h : typeAndDefault type default = .ok description) :
    ∃ (t w : Json), description = [(.str "type", t), (.str "default", w)] ∧ w.isDocument = true := by
  simp only [typeAndDefault, bind, Except.bind] at h
  split at h
  · cases h
  · cases hnull : default.isNull with
    | true =>
      rw [hnull] at h
      cases hw : defaultOfType (if type.isNull = true then .str default.typeName else type) with
      | error fault => simp [hw] at h
      | ok w =>
        simp only [hw] at h
        exact ⟨_, w, (Except.ok.inj h).symm, isDocument_of_defaultOfType hw⟩
    | false =>
      rw [hnull] at h
      exact ⟨_, default, (Except.ok.inj h).symm, hdefault⟩

private theorem isDocument_lookup {w : Json} {key : Scalar} (hv : v.isDocument = true) (h : v.lookup key = .ok w) :
    w.isDocument = true := by
  cases v with
  | obj ms =>
    obtain rfl := Except.ok.inj h
    cases hget : Members.get? ms key with
    | none => rfl
    | some part => exact (Json.isDocument_obj.1 hv).part hget
  | scalar s => cases h
  | arr es => cases h

private theorem legible_ofProperty (hdefault : property.default.isDocument = true)
    (hitems : property.items.isDocument = true) (h : ofProperty property = .ok v) : Legible v := by
  simp only [ofProperty, bind, Except.bind] at h
  cases hdesc : typeAndDefault property.type property.default with
  | error fault => simp [hdesc] at h
  | ok description =>
  obtain ⟨t, w, rfl, hw⟩ := legible_of_typeAndDefault hdefault hdesc
  simp only [hdesc] at h
  split at h
  · cases htype : property.items.lookup "type" with
    | error fault => simp [htype] at h
    | ok type =>
    cases hgiven : property.items.lookup "default" with
    | error fault => simp [htype, hgiven] at h
    | ok default =>
    cases hinner : typeAndDefault type default with
    | error fault => simp [htype, hgiven, hinner] at h
    | ok inner =>
    obtain ⟨t', w', rfl, hw'⟩ := legible_of_typeAndDefault (isDocument_lookup hitems hgiven) hinner
    simp only [htype, hgiven, hinner] at h
    obtain rfl := Except.ok.inj h
    refine .flat rfl rfl (fun part hpart _ => ?_) fun u hu => ?_
    · obtain rfl := Option.some.inj hpart
      refine .flat rfl rfl (fun part hpart => by cases hpart) fun u hu => ?_
      exact Option.some.inj hu ▸ hw'
    · exact Option.some.inj hu ▸ hw
  · obtain rfl := Except.ok.inj h
    refine .flat rfl rfl (fun part hpart => by cases hpart) fun u hu => ?_
    exact Option.some.inj hu ▸ hw

/-- What is read of a schema is the same as long as no other keywords change. -/
private theorem options_congr {ms ns : Members} (h : ∀ keyword : String, keyword = "anyOf" ∨ keyword = "oneOf" →
    ns.get? keyword = ms.get? keyword) : options (.obj ns) = options (.obj ms) := by
  simp only [options, WellShaped.lookup_obj, Members.valueOf, h "anyOf" (.inl rfl), h "oneOf" (.inr rfl)]

/-- Adding a member leaves a schema legible. -/
theorem Legible.add {schema : Json} {ms : Members} {name : String} (h : Legible schema)
    (hname : property.name = .str name) (hdefault : property.default.isDocument = true)
    (hitems : property.items.isDocument = true) (hadd : Schema.add schema property = .ok ms) :
    Legible (.obj ms) := by
  cases h with
  | @mk ms props os union alternatives described distinct text members items default =>
  have hprops : properties ms = .ok props := by
    simp only [memberSchemas, WellShaped.lookup_obj, Except.bind_ok] at described
    rw [properties]
    generalize ((ms.valueOf "properties").orElse .emptyObject) = given at described ⊢
    cases given with
    | obj ns => exact described
    | scalar s => cases described
    | arr es => cases described
  simp only [Schema.add, Json.asObject, hprops, hname, Json.asKey, bind, Except.bind] at hadd
  split at hadd
  · cases hadd
  · cases hpart : ofProperty property with
    | error fault => simp [hpart] at hadd
    | ok part =>
    cases hnames : required ms with
    | error fault => simp [hpart, hnames] at hadd
    | ok names =>
    simp only [hpart, hnames] at hadd
    obtain rfl := Except.ok.inj hadd
    have hlegible := legible_ofProperty hdefault hitems hpart
    have hparts : (props.put name part).AreOf fun part => part.isObject = true → Legible part :=
      Members.AreOf.put ⟨distinct, text, members⟩ name fun _ => hlegible
    have hget : ∀ (keyword : String) (names : List Json), keyword ≠ "properties" → keyword ≠ "required" →
        (withRequired (withProperties ms (props.put name part)) names).get? keyword = ms.get? keyword :=
      fun keyword names hne hne' => by rw [get?_withRequired _ hne', get?_withProperties hne]
    refine .mk ((options_congr ?_).trans union) alternatives (by simp) hparts.distinct hparts.text hparts.parts ?_ ?_
    · rintro keyword (rfl | rfl) <;> exact hget _ _ (by simp) (by simp)
    · rwa [hget _ _ (by simp) (by simp)]
    · rwa [hget _ _ (by simp) (by simp)]

end Adding

end EditLens.Schema
