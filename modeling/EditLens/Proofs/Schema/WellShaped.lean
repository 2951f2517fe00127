import EditLens.Proofs.Json.Document
import EditLens.Proofs.Lens.Convert
import EditLens.Schema.Fill
import EditLens.Schema.NullFree

/-! Schemas whose keywords have the shapes that readers of schemas expect. Main statements: no reading
of such a schema fails, and every step leads to such a schema again. -/
namespace EditLens

theorem Json.exists_obj_of_isObject {v : Json} (h : v.isObject = true) : ∃ ms : Members, v = .obj ms := by
  cases v <;> first | exact ⟨_, rfl⟩ | cases h

namespace Schema

def isTypeName (type : Json) : Bool := defaultByName.any fun entry => type = .str entry.1

def areTypes : Json → Bool
  | .arr types => types.all isTypeName
  | type => isTypeName type

/-- Schemas all of whose keywords can be read, down to the schemas of parts. -/
inductive WellShaped : Json → Prop
  | mk {ms : Members} (os : List Json) (props : Members)
    (type : ∀ t, ms.get? "type" = some t → areTypes t = true)
    (default : ∀ v, ms.get? "default" = some v → v.isDocument = true)
    (required : ms.get? "required" = none ∨ ∃ names, ms.get? "required" = some (.arr names))
    (oneOf : ms.get? "oneOf" = none)
    (anyOf : (ms.get? "anyOf" = none ∧ os = []) ∨ ms.get? "anyOf" = some (.arr os))
    (options : ∀ o ∈ os, WellShaped o)
    (properties : (ms.get? "properties" = none ∧ props = []) ∨
      ms.get? "properties" = some (.obj props))
    (distinct : props.Distinct) (text : ∀ m ∈ props, ∃ name : String, m.1 = .str name)
    (members : ∀ m ∈ props, WellShaped m.2)
    (items : ∀ t, ms.get? "items" = some t → WellShaped t) : WellShaped (.obj ms)

abbrev AreWellShaped (props : Members) : Prop := props.AreOf WellShaped

private theorem defaultOfName_eq {type : Json} (h : isTypeName type = true) :
    ∃ v, defaultOfName type = .ok v ∧ v.isDocument = true := by
  simp only [isTypeName, defaultByName, List.any_cons, List.any_nil, Bool.or_false, Bool.or_eq_true,
    decide_eq_true_eq] at h
  rcases h with rfl | rfl | rfl | rfl | rfl | rfl | rfl <;> exact ⟨_, rfl, rfl⟩

private theorem defaultOfType_eq {types : Json} (h : areTypes types = true) :
    ∃ v, defaultOfType types = .ok v ∧ v.isDocument = true := by
  cases types with
  | arr ts =>
    cases ts with
    | nil => exact ⟨.null, rfl, rfl⟩
    | cons first rest =>
      rw [areTypes, List.all_cons, Bool.and_eq_true] at h
      rw [defaultOfType]
      split
      · exact ⟨.null, rfl, rfl⟩
      · exact defaultOfName_eq h.1
  | scalar s => exact defaultOfName_eq h
  | obj ms => exact defaultOfName_eq h

/-- Among objects, one that describes a container is looked for without failure. -/
theorem findContainer?_eq {os : List Json} (h : ∀ o ∈ os, o.isObject = true) :
    ∃ found?, findContainer? os = .ok found? := by
  induction os with
  | nil => exact ⟨none, rfl⟩
  | cons o rest ih =>
    rw [List.forall_mem_cons] at h
    obtain ⟨found?, hfound⟩ := ih h.2
    obtain ⟨ms, rfl⟩ := Json.exists_obj_of_isObject h.1
    simp only [findContainer?, Json.mentions, hfound, Except.bind_ok]
    cases Members.has ms "properties" <;> cases Members.has ms "items" <;> exact ⟨_, rfl⟩

theorem anyNull_eq {os : List Json} (h : ∀ o ∈ os, o.isObject = true) : ∃ b, anyNull os = .ok b := by
  induction os with
  | nil => exact ⟨false, rfl⟩
  | cons o rest ih =>
    rw [List.forall_mem_cons] at h
    obtain ⟨b, hb⟩ := ih h.2
    obtain ⟨ms, rfl⟩ := Json.exists_obj_of_isObject h.1
    simp only [anyNull, Json.lookup, Json.asObject, Except.bind_ok, pure, Except.pure]
    split
    · exact ⟨true, rfl⟩
    · exact ⟨b, hb⟩

namespace WellShaped

variable {schema : Json} {ms : Members}

theorem exists_obj (h : WellShaped schema) : ∃ ms, schema = .obj ms := by
  cases h
  exact ⟨_, rfl⟩

theorem isObject (h : WellShaped schema) : schema.isObject = true := by
  obtain ⟨ms, rfl⟩ := h.exists_obj
  rfl

theorem empty : WellShaped .emptyObject :=
  .mk [] [] (by simp) (by simp) (.inl rfl) rfl (.inl ⟨rfl, rfl⟩) (by simp) (.inl ⟨rfl, rfl⟩) .nil
    (by simp) (by simp) (by simp)

/-- What a schema refers to does not matter. -/
theorem congr {ns : Members} (h : WellShaped (.obj ms))
    (heq : ∀ keyword : String, keyword ≠ "$schema" → ns.get? keyword = ms.get? keyword) :
    WellShaped (.obj ns) := by
  cases h with
  | mk os props type default required oneOf anyOf options properties distinct text members items =>
  refine .mk os props ?_ ?_ ?_ ?_ ?_ options ?_ distinct text members ?_
  · rwa [heq _ (by simp)]
  · rwa [heq _ (by simp)]
  · rwa [heq _ (by simp)]
  · rwa [heq _ (by simp)]
  · rwa [heq _ (by simp)]
  · rwa [heq _ (by simp)]
  · rwa [heq _ (by simp)]

@[simp] theorem lookup_obj (key : Scalar) :
    (Json.obj ms).lookup key = .ok (Members.valueOf ms key) := rfl

theorem valueOf_of_get? {key : Scalar} {v : Json} (h : ms.get? key = some v) :
    ms.valueOf key = v := by
  rw [Members.valueOf, h, Option.getD_some]

theorem valueOf_of_get?_eq_none {key : Scalar} (h : ms.get? key = none) :
    ms.valueOf key = .null := by
  rw [Members.valueOf, h, Option.getD_none]

theorem options_of_get? {os : List Json} (oneOf : ms.get? "oneOf" = none)
    (anyOf : (ms.get? "anyOf" = none ∧ os = []) ∨ ms.get? "anyOf" = some (.arr os)) :
    Schema.options (.obj ms) = .ok os := by
  simp only [Schema.options, lookup_obj, Except.bind_ok, valueOf_of_get?_eq_none oneOf]
  rcases anyOf with ⟨hnone, rfl⟩ | hsome
  · rw [valueOf_of_get?_eq_none hnone]
    rfl
  · rw [valueOf_of_get? hsome]
    cases os <;> rfl

private theorem options_eq (h : WellShaped schema) :
    ∃ os, Schema.options schema = .ok os ∧ ∀ o ∈ os, WellShaped o := by
  cases h with
  | @mk ms os props type default required oneOf anyOf options =>
  exact ⟨os, options_of_get? oneOf anyOf, options⟩

theorem memberSchemas_eq (h : WellShaped schema) :
    ∃ props, memberSchemas schema = .ok props ∧ AreWellShaped props := by
  cases h with
  | @mk ms os props type default required oneOf anyOf options properties distinct text members =>
  refine ⟨props, ?_, distinct, text, members⟩
  simp only [memberSchemas, lookup_obj, Except.bind_ok]
  rcases properties with ⟨hnone, rfl⟩ | hsome
  · rw [valueOf_of_get?_eq_none hnone]
    rfl
  · rw [valueOf_of_get? hsome]
    cases props <;> rfl

theorem areWellShaped (h : WellShaped schema) {props : Members}
    (hprops : memberSchemas schema = .ok props) : AreWellShaped props := by
  obtain ⟨props', hprops', hshaped⟩ := h.memberSchemas_eq
  exact Except.ok.inj (hprops'.symm.trans hprops) ▸ hshaped

theorem properties_eq_memberSchemas (h : WellShaped (.obj ms)) :
    properties ms = memberSchemas (.obj ms) := by
  cases h with
  | @mk ms os props type default required oneOf anyOf options hproperties =>
  simp only [memberSchemas, properties, lookup_obj, Except.bind_ok]
  rcases hproperties with ⟨hnone, rfl⟩ | hsome
  · rw [valueOf_of_get?_eq_none hnone]
    rfl
  · rw [valueOf_of_get? hsome]
    cases props <;> rfl

theorem required_eq (h : WellShaped (.obj ms)) : ∃ names, required ms = .ok names := by
  cases h with
  | mk os props type default hrequired =>
  rw [required]
  rcases hrequired with hnone | ⟨names, hsome⟩
  · rw [valueOf_of_get?_eq_none hnone]
    exact ⟨[], rfl⟩
  · rw [valueOf_of_get? hsome]
    cases names <;> exact ⟨_, rfl⟩

private theorem items (h : WellShaped schema) {t : Json} (ht : schema.lookup "items" = .ok t)
    (hobject : t.isObject = true) : WellShaped t := by
  cases h with
  | @mk ms os props type default required oneOf anyOf options properties distinct text members items =>
  obtain rfl := Except.ok.inj ht
  cases hitems : ms.get? "items" with
  | none => rw [hitems] at hobject; cases hobject
  | some t => exact items t hitems

private theorem container_eq (h : WellShaped schema) :
    ∃ found, container schema = .ok found ∧ WellShaped found := by
  obtain ⟨os, hos, hshaped⟩ := h.options_eq
  obtain ⟨found?, hfound⟩ := findContainer?_eq fun o ho => (hshaped o ho).isObject
  refine ⟨found?.getD schema, by simp [container, hos, hfound], ?_⟩
  cases found? with
  | none => exact h
  | some o => exact hshaped o (findContainer?_mem hfound)

private theorem step_eq (h : WellShaped schema) (token : String) :
    ∃ found, step schema token = .ok found ∧ WellShaped found := by
  obtain ⟨ms, rfl⟩ := h.exists_obj
  obtain ⟨props, hprops, hshaped⟩ := h.memberSchemas_eq
  simp only [step, lookup_obj, Except.bind_ok, hprops]
  split
  · rename_i hitems
    rw [Bool.and_eq_true] at hitems
    exact ⟨_, rfl, h.items rfl hitems.2⟩
  · split
    · rename_i hpart
      refine ⟨_, rfl, ?_⟩
      cases hmember : props.get? token with
      | none => rw [valueOf_of_get?_eq_none hmember] at hpart; cases hpart
      | some part =>
        rw [valueOf_of_get? hmember]
        obtain ⟨k, hmem, -⟩ := Members.exists_mem_of_get? hmember
        exact hshaped.parts _ hmem
    · exact ⟨_, rfl, .empty⟩

theorem below_eq (h : WellShaped schema) (token : String) :
    ∃ found, Schema.below schema token = .ok found ∧ WellShaped found := by
  obtain ⟨part, hpart, hshaped⟩ := h.step_eq token
  obtain ⟨found, hfound, hshaped'⟩ := hshaped.container_eq
  exact ⟨found, by rw [Schema.below, hpart]; exact hfound, hshaped'⟩

theorem locate_eq (h : WellShaped schema) (path : Path) :
    ∃ found, locate schema path = .ok found ∧ WellShaped found := by
  induction path generalizing schema with
  | nil => exact h.container_eq
  | cons token rest ih =>
    obtain ⟨whole, hwhole, hshaped⟩ := h.container_eq
    obtain ⟨part, hpart, hshaped'⟩ := hshaped.step_eq token
    obtain ⟨found, hfound, hshaped''⟩ := ih hshaped'
    exact ⟨found, by rw [locate, hwhole, Except.bind_ok, hpart]; exact hfound, hshaped''⟩

private theorem isNullable_eq (h : WellShaped schema) : ∃ b, isNullable schema = .ok b := by
  obtain ⟨os, hos, hshaped⟩ := h.options_eq
  obtain ⟨ms, rfl⟩ := h.exists_obj
  obtain ⟨b, hb⟩ := anyNull_eq fun o ho => (hshaped o ho).isObject
  simp only [isNullable, lookup_obj, Except.bind_ok, hos, hb]
  repeat' split
  all_goals exact ⟨_, rfl⟩

/-- A schema gives a default value or none, and never fails to tell. -/
theorem defaultOf_eq (h : WellShaped schema) :
    ∃ o, defaultOf schema = .ok o ∧ ∀ v, o = some v → v.isDocument = true := by
  obtain ⟨nullable, hnullable⟩ := h.isNullable_eq
  cases h with
  | @mk ms os props type default =>
  simp only [defaultOf, Json.mentions, lookup_obj, Except.bind_ok, hnullable]
  by_cases hdefault : ms.has "default" = true
  · obtain ⟨v, hv⟩ := Members.has_iff.1 hdefault
    rw [if_pos hdefault, valueOf_of_get? hv]
    exact ⟨some v, rfl, fun w hw => Option.some.inj hw ▸ default v hv⟩
  · rw [if_neg hdefault]
    cases nullable with
    | true => exact ⟨some .null, rfl, fun w hw => Option.some.inj hw ▸ rfl⟩
    | false =>
      by_cases htype : ms.has "type" = true
      · obtain ⟨t, ht⟩ := Members.has_iff.1 htype
        obtain ⟨v, hv, hdocument⟩ := defaultOfType_eq (type t ht)
        refine ⟨some v, ?_, fun w hw => Option.some.inj hw ▸ hdocument⟩
        simp [htype, valueOf_of_get? ht, hv]
      · exact ⟨none, by simp [htype]; rfl, by simp⟩

end WellShaped

section Editing

variable {ms props : Members} {keyword : String}

theorem get?_withProperties (hne : keyword ≠ "properties") :
    (withProperties ms props).get? keyword = ms.get? keyword := by
  simp [withProperties, Members.get?_put, hne.symm]

theorem get?_withRequired (names : List Json) (hne : keyword ≠ "required") :
    (withRequired ms names).get? keyword = ms.get? keyword := by
  simp [withRequired, Members.get?_put, hne.symm]

@[simp] theorem memberSchemas_withProperties :
    memberSchemas (.obj (withProperties ms props)) = .ok props := by
  simp only [memberSchemas, WellShaped.lookup_obj, Except.bind_ok, withProperties, Members.valueOf,
    Members.get?_put_self]
  cases props <;> rfl

@[simp] theorem memberSchemas_withRequired (names : List Json) :
    memberSchemas (.obj (withRequired ms names)) = memberSchemas (.obj ms) := by
  simp only [memberSchemas, WellShaped.lookup_obj, Members.valueOf]
  rw [get?_withRequired names (by simp)]

/-- Members may be described in other ways that can be read. -/
theorem WellShaped.describing (h : WellShaped (.obj ms)) (hprops : AreWellShaped props) :
    WellShaped (.obj (withProperties ms props)) := by
  cases h with
  | mk os _ type default required oneOf anyOf options properties distinct text members items =>
  refine .mk os props ?_ ?_ ?_ ?_ ?_ options (.inr (by simp [withProperties])) hprops.distinct
    hprops.text hprops.parts ?_
  · rwa [get?_withProperties (by simp)]
  · rwa [get?_withProperties (by simp)]
  · rwa [get?_withProperties (by simp)]
  · rwa [get?_withProperties (by simp)]
  · rwa [get?_withProperties (by simp)]
  · rwa [get?_withProperties (by simp)]

/-- Any names may be required. -/
theorem WellShaped.requiring (h : WellShaped (.obj ms)) (names : List Json) :
    WellShaped (.obj (withRequired ms names)) := by
  cases h with
  | mk os props type default required oneOf anyOf options properties distinct text members items =>
  refine .mk os props ?_ ?_ (.inr ⟨names, by simp [withRequired]⟩) ?_ ?_ options ?_ distinct text
    members ?_
  · rwa [get?_withRequired _ (by simp)]
  · rwa [get?_withRequired _ (by simp)]
  · rwa [get?_withRequired _ (by simp)]
  · rwa [get?_withRequired _ (by simp)]
  · rwa [get?_withRequired _ (by simp)]
  · rwa [get?_withRequired _ (by simp)]

/-- Elements may be described in another way that can be read. -/
theorem WellShaped.enumerating (h : WellShaped (.obj ms)) {part : Json} (hpart : WellShaped part) :
    WellShaped (.obj (ms.put "items" part)) := by
  have hget : ∀ keyword : String, keyword ≠ "items" →
      Members.get? (ms.put "items" part) keyword = ms.get? keyword := fun keyword hne => by
    simp [Members.get?_put, hne.symm]
  cases h with
  | mk os props type default required oneOf anyOf options properties distinct text members items =>
  refine .mk os props ?_ ?_ ?_ ?_ ?_ options ?_ distinct text members ?_
  · rwa [hget _ (by simp)]
  · rwa [hget _ (by simp)]
  · rwa [hget _ (by simp)]
  · rwa [hget _ (by simp)]
  · rwa [hget _ (by simp)]
  · rwa [hget _ (by simp)]
  · intro t ht
    rw [Members.get?_put_self] at ht
    exact Option.some.inj ht ▸ hpart

/-- Taking null out of a schema without alternatives changes no more than its type and its default. Where
there is one type, it may be the default alone that goes. -/
theorem withoutNull_cases (anyOf : ms.get? "anyOf" = none) (oneOf : ms.get? "oneOf" = none) :
    ∃ ns : Members, withoutNull (.obj ms) = .ok (.obj ns) ∧
      (∀ keyword : String, keyword ≠ "type" → keyword ≠ "default" → ns.get? keyword = ms.get? keyword) ∧
      ((∀ types, ms.get? "type" ≠ some (.arr types)) →
        ns = ms ∨ ms.get? "default" = some .null ∧ ns = ms.without "default") := by
  have hunion : ∀ {keyword : String} {typed : Members}, typed.get? keyword = none →
      unionWithoutNull keyword typed = .ok typed := by
    intro keyword typed hnone
    rw [unionWithoutNull, hnone]
    rfl
  have hdropped : ∀ {keyword : String} {typed : Members}, keyword ≠ "default" →
      (typed.without "default").get? keyword = typed.get? keyword := fun hkeyword => by
    rw [Members.get?_without, if_neg (by simpa using Ne.symm hkeyword)]
  rw [withoutNull, Json.asObject, Except.bind_ok]
  split
  · rename_i types htypes
    have hput : ∀ {keyword : String}, keyword ≠ "type" →
        (ms.put "type" (typeWithoutNull types)).get? keyword = ms.get? keyword := fun hkeyword => by
      rw [Members.get?_put, if_neg (by simpa using Ne.symm hkeyword)]
    dsimp only
    rw [hunion ((hput (by simp)).trans anyOf), Except.bind_ok, hunion ((hput (by simp)).trans oneOf),
      Except.bind_ok]
    refine ⟨_, rfl, fun keyword htype hdefault => ?_, fun h => absurd htypes (h types)⟩
    split
    · rw [hdropped hdefault, hput htype]
    · exact hput htype
  · dsimp only
    rw [hunion anyOf, Except.bind_ok, hunion oneOf, Except.bind_ok]
    refine ⟨_, rfl, fun keyword _ hdefault => ?_, fun _ => ?_⟩
    · split
      · exact hdropped hdefault
      · rfl
    · split
      · rename_i hnull
        exact .inr ⟨hnull, rfl⟩
      · exact .inl rfl

end Editing

end Schema

end EditLens
