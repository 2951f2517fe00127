import EditLens.Proofs.Lens.Following
import EditLens.Proofs.Schema.Regular

/-! Operations on regular schemas. Main statements: what each operation makes of such a schema, told by what
describes each member before and after. -/
namespace EditLens

open Function (update)
open Schema

namespace LensOp

variable {ms ps : Members} {part inner : Json} {source destination host name : String} {lens : Lens}

/-- A member is described under another name. -/
theorem follow_rename (h : Regular (.obj ms)) (hsource : part? (.obj ms) source = some part)
    (hdestination : part? (.obj ms) destination = none) :
    ∃ next, (LensOp.follow (.obj ms) (.rename (.str source) (.str destination))).outcome = .ok next ∧
      Retold ms next (update (update (part? (.obj ms)) source none) destination (some part)) := by
  obtain ⟨props, names, hprops, hnames, hparts, heq⟩ := h.exists_members
  simp only [heq] at hsource hdestination ⊢
  have hnew : (props.renamed (.str source) (.str destination)).AreOf Regular := hparts.renamed hdestination
  have hrenamed : renameKey props (.str source) (.str destination) = props.renamed (.str source) (.str destination) :=
    Members.ofEntries_eq hnew.distinct
  refine ⟨_, ?_, h.retold_required hnew
    (names.map fun n => if n.same (.str source) then .str destination else n)
    ((Members.get?_renamed_eq_update hdestination).trans (by rw [hsource]))⟩
  simp [LensOp.follow, followFlat, Json.asObject, Schema.rename, hprops, Json.asKey, hrenamed,
    Members.has_iff.2 ⟨part, hsource⟩, hnames]

/-- What is not described can be renamed; nothing changes. -/
theorem follow_rename_undescribed (h : Regular (.obj ms)) (hsource : part? (.obj ms) source = none) :
    (LensOp.follow (.obj ms) (.rename (.str source) (.str destination))).outcome = .ok (.obj ms) := by
  obtain ⟨props, names, hprops, -, -, heq⟩ := h.exists_members
  simp only [heq] at hsource
  simp [LensOp.follow, followFlat, Json.asObject, Schema.rename, hprops, Json.asKey,
    Members.has_eq_false.2 hsource]

/-- What is described is described no longer. -/
theorem follow_remove (h : Regular (.obj ms)) {property : Property} (hname : property.name = .str name) :
    ∃ next, (LensOp.follow (.obj ms) (.remove property)).outcome = .ok next ∧
      Retold ms next (update (part? (.obj ms)) name none) := by
  obtain ⟨props, names, hprops, hnames, hparts, heq⟩ := h.exists_members
  refine ⟨_, ?_, h.retold_required (hparts.without name) (unlisted names (.str name))
    (Members.get?_without_eq_update.trans (by rw [heq]))⟩
  simp only [LensOp.follow, followFlat, Json.asObject, Schema.remove, hprops, hname, Json.asKey, hnames,
    Noted.outcome_bind, Noted.outcome_liftM, Except.bind_ok]
  cases props.has name <;> rfl

/-- A member is described in addition. -/
theorem follow_add (h : Regular (.obj ms)) {property : Property} (hname : property.name = .str name)
    (hne : name ≠ "") (hpart : ofProperty property = .ok part) (hregular : Regular part) :
    ∃ next, (LensOp.follow (.obj ms) (.add property)).outcome = .ok next ∧
      Retold ms next (update (part? (.obj ms)) name (some part)) := by
  obtain ⟨props, names, hprops, hnames, hparts, heq⟩ := h.exists_members
  refine ⟨_, ?_, h.retold_required (hparts.put name hregular)
    (if property.required = .bool false then names else enlisted names property.name)
    (Members.get?_put_eq_update.trans (by rw [heq]))⟩
  have htruthy : (Json.str name).truthy = true := by simpa [Json.truthy] using hne
  simp [LensOp.follow, followFlat, Schema.add, htruthy, Json.asObject, hprops, hpart, hname, Json.asKey, hnames]

/-- What is added has a name and a description. -/
theorem exists_added {property : Property} {next : Json} (hname : property.name = .str name)
    (hfollow : (LensOp.follow (.obj ms) (.add property)).outcome = .ok next) :
    name ≠ "" ∧ ∃ part, ofProperty property = .ok part := by
  simp only [LensOp.follow, followFlat, Noted.outcome_bind, Noted.outcome_liftM] at hfollow
  obtain ⟨added, hadded, -⟩ := Except.exists_of_bind hfollow
  rw [Schema.add, hname] at hadded
  cases htruthy : (Json.str name).truthy with
  | false =>
    rw [htruthy] at hadded
    cases hadded
  | true =>
    refine ⟨by simpa [Json.truthy] using htruthy, ?_⟩
    rw [htruthy] at hadded
    obtain ⟨_, -, hadded⟩ := Except.exists_of_bind hadded
    obtain ⟨_, -, hadded⟩ := Except.exists_of_bind hadded
    obtain ⟨part, hpart, -⟩ := Except.exists_of_bind hadded
    exact ⟨part, hpart⟩

/-- What describes the host and what describes the member change places: the host no longer describes the
member. -/
theorem follow_hoist (h : Regular (.obj ms)) (hhost : part? (.obj ms) host = some (.obj ps))
    (hpart : part? (.obj ps) name = some part) :
    ∃ next inner, (LensOp.follow (.obj ms) (.hoist (.str host) (.str name))).outcome = .ok next ∧
      Retold ps inner (update (part? (.obj ps)) name none) ∧
      Retold ms next (update (update (part? (.obj ms)) host (some inner)) name (some part)) := by
  have hps := h.of_part hhost
  have hregular := hps.of_part hpart
  obtain ⟨props, names, hprops, hnames, hparts, heq⟩ := h.exists_members
  obtain ⟨inners, inames, hinners, hinames, hiparts, hieq⟩ := hps.exists_members
  have hinner : Retold ps _ (update (part? (.obj ps)) name none) :=
    hps.retold_required (hiparts.without name) (unlisted inames (.str name))
      (Members.get?_without_eq_update.trans (by rw [hieq]))
  refine ⟨_, _, ?_, hinner, h.retold_required ((hparts.put host hinner.regular).put name hregular)
    (if listed inames (.str name) then enlisted names (.str name) else names)
    (Members.get?_put_eq_update.trans (by rw [Members.get?_put_eq_update, heq]))⟩
  simp only [heq, hieq] at hhost hpart
  simp [LensOp.follow, followFlat, Json.asObject, Schema.hoist, Schema.described, hprops, hhost, hinners,
    hnames, hinames, Json.asKey, hpart, pure, Except.pure]

theorem follow_plunge (h : Regular (.obj ms)) (hhost : part? (.obj ms) host = some (.obj ps))
    (hpart : part? (.obj ms) name = some part) (hne : host ≠ name) :
    ∃ next inner, (LensOp.follow (.obj ms) (.plunge (.str host) (.str name))).outcome = .ok next ∧
      Retold ps inner (update (part? (.obj ps)) name (some part)) ∧
      Retold ms next (update (update (part? (.obj ms)) name none) host (some inner)) := by
  have hps := h.of_part hhost
  have hregular := h.of_part hpart
  obtain ⟨props, names, hprops, hnames, hparts, heq⟩ := h.exists_members
  obtain ⟨inners, inames, hinners, hinames, hiparts, hieq⟩ := hps.exists_members
  have hinner : Retold ps _ (update (part? (.obj ps)) name (some part)) :=
    hps.retold_required (hiparts.put name hregular)
      (if listed names (.str name) then enlisted inames (.str name) else inames)
      (Members.get?_put_eq_update.trans (by rw [hieq]))
  refine ⟨_, _, ?_, hinner, h.retold_required ((hparts.without name).put host hinner.regular)
    (unlisted names (.str name))
    (Members.get?_put_eq_update.trans (by rw [Members.get?_without_eq_update, heq]))⟩
  simp only [heq] at hhost hpart
  have hdemand : Members.demand (props.without (.str name)) (.str host) = .ok (.obj ps) := by
    rw [Members.demand, Members.get?_without, if_neg (by simpa using Ne.symm hne), hhost]
  simp [LensOp.follow, followFlat, Json.asObject, Schema.plunge, hinners, hprops, hnames, hinames,
    Json.asKey, hpart, hdemand, Members.has_iff.2 ⟨_, hhost⟩]

/-- What is not described can be plunged; nothing changes. -/
theorem follow_plunge_undescribed (h : Regular (.obj ms)) (hhost : part? (.obj ms) host = some part)
    (hname : part? (.obj ms) name = none) :
    (LensOp.follow (.obj ms) (.plunge (.str host) (.str name))).outcome = .ok (.obj ms) := by
  obtain ⟨props, names, hprops, -, -, heq⟩ := h.exists_members
  simp only [heq] at hhost hname
  simp [LensOp.follow, followFlat, Json.asObject, Schema.plunge, hprops, Json.asKey, hname,
    Members.has_iff.2 ⟨_, hhost⟩]

theorem follow_wrap (h : Regular (.obj ms)) (hpart : part? (.obj ms) name = some part) :
    ∃ next rest, (LensOp.follow (.obj ms) (.wrap (.str name))).outcome = .ok next ∧
      withoutNull part = .ok rest ∧ Regular rest ∧
      Retold ms next (update (part? (.obj ms)) name (some (arrayOf rest))) := by
  obtain ⟨rest, hrest, hregular⟩ := (h.of_part hpart).exists_withoutNull
  obtain ⟨ns, hns, hretold⟩ := h.exists_describe name hregular.arrayOf
  rw [arrayOf] at hns
  refine ⟨_, rest, ?_, hrest, hregular, hretold⟩
  simp [LensOp.follow, followFlat, Json.asObject, Schema.wrap, h.described_eq hpart, hrest, hns]

/-- The first element is taken of what is described as an array, and of nothing else. -/
theorem follow_head (h : Regular (.obj ms)) (hpart : part? (.obj ms) name = some (.obj ps)) :
    (isArray ps = true ∧ ∃ next, (LensOp.follow (.obj ms) (.head (.str name))).outcome = .ok next ∧
      Retold ms next (update (part? (.obj ms)) name (some (nullable (elements ps))))) ∨
    isArray ps = false ∧ ∃ fault, (LensOp.follow (.obj ms) (.head (.str name))).outcome = .error fault := by
  obtain ⟨ns, hns, hretold⟩ := h.exists_describe name (h.of_part hpart).elements.nullable
  rw [nullable, elements] at hns
  simp only [LensOp.follow, followFlat, Json.asObject, Schema.head, h.described_eq hpart, Json.mentions,
    WellShaped.lookup_obj, Noted.outcome_bind, Noted.outcome_liftM, Except.bind_ok, isArray]
  cases ps.has "items" with
  | true => exact .inl ⟨rfl, _, by simp [hns], hretold⟩
  | false =>
  cases (ps.valueOf "type").isText "array" with
  | true => exact .inl ⟨rfl, _, by simp [hns], hretold⟩
  | false => exact .inr ⟨rfl, _, rfl⟩

/-- A conversion to a type describes the member by this type alone. -/
theorem follow_convert_typed (h : Regular (.obj ms)) (hpart : part? (.obj ms) name = some part)
    {mapping : Mapping} {type other : Json} (htype : type.isNull = false) :
    ∃ next, (LensOp.follow (.obj ms) (.convert (.str name) mapping other type)).outcome = .ok next ∧
      Retold ms next (update (part? (.obj ms)) name (some (.obj [("type", type)]))) := by
  obtain ⟨ns, hns, hretold⟩ := h.exists_describe name (.typed type)
  refine ⟨_, ?_, hretold⟩
  simp [LensOp.follow, followFlat, Json.asObject, Schema.convert, h.described_eq hpart, htype, hns]

private theorem exists_recoded (h : Regular (.obj ms)) (hpart : part? (.obj ms) name = some (.obj ps))
    {type : Json} (htype : type.isNull = true) (mapping : Mapping) :
    ∃ qs, Recoded ps qs ∧ Schema.convert ms (.str name) mapping type = describe ms (.str name) (.obj qs) := by
  have hps := Recoded.refl (h.of_part hpart)
  simp only [Schema.convert, h.described_eq hpart, htype, Except.bind_ok, Json.asMembers]
  cases henum : ps.get? "enum" with
  | none =>
    cases hdefault : ps.get? "default" with
    | none => exact ⟨ps, hps, by simp [hdefault]⟩
    | some v => exact ⟨_, hps.defaulting ((mapping.recode? v).getD v), by simp [hdefault]⟩
  | some values =>
    obtain ⟨vs, rfl⟩ := hps.regular.exists_list (.inr rfl) henum
    have hlisted := hps.listing (vs.map fun v => (mapping.recode? v).getD v)
    cases hdefault : ps.get? "default" with
    | none => exact ⟨_, hlisted, by simp [Json.asList, Members.get?_put, hdefault]⟩
    | some v =>
      exact ⟨_, hlisted.defaulting ((mapping.recode? v).getD v), by
        simp [Json.asList, Members.get?_put, hdefault]⟩

/-- A conversion to no type changes what is listed and the default, nothing else. -/
theorem follow_convert_untyped (h : Regular (.obj ms)) (hpart : part? (.obj ms) name = some (.obj ps))
    {mapping : Mapping} {type other : Json} (htype : type.isNull = true) :
    ∃ next qs, (LensOp.follow (.obj ms) (.convert (.str name) mapping other type)).outcome = .ok next ∧
      Recoded ps qs ∧ Retold ms next (update (part? (.obj ms)) name (some (.obj qs))) := by
  obtain ⟨qs, hqs, hconvert⟩ := exists_recoded h hpart htype mapping
  obtain ⟨ns, hns, hretold⟩ := h.exists_describe name hqs.regular
  exact ⟨.obj ns, qs, by simp [LensOp.follow, followFlat, Json.asObject, hconvert, hns], hqs, hretold⟩

/-- What a member's description becomes by a lens stands in its place. -/
theorem follow_inside (h : Regular (.obj ms)) (hpart : part? (.obj ms) name = some part)
    (hlens : (Lens.follow part lens).outcome = .ok inner) (hinner : Regular inner) :
    ∃ next, (LensOp.follow (.obj ms) (.inside (.str name) lens)).outcome = .ok next ∧
      Retold ms next (update (part? (.obj ms)) name (some inner)) := by
  obtain ⟨ns, hns, hretold⟩ := h.exists_describe name hinner
  exact ⟨.obj ns, by simp [LensOp.follow, Json.asObject, h.described_eq hpart, hlens, hns], hretold⟩

theorem exists_followed_inside {next : Json} (h : Regular (.obj ms)) (hpart : part? (.obj ms) name = some part)
    (hfollow : (LensOp.follow (.obj ms) (.inside (.str name) lens)).outcome = .ok next) :
    ∃ inner, (Lens.follow part lens).outcome = .ok inner := by
  simp only [LensOp.follow, Json.asObject, h.described_eq hpart, Noted.outcome_bind, Noted.outcome_liftM,
    Except.bind_ok] at hfollow
  obtain ⟨inner, hinner, -⟩ := Except.exists_of_bind hfollow
  exact ⟨inner, hinner⟩

theorem follow_each (hitems : ms.get? "items" = some part) (hlens : (Lens.follow part lens).outcome = .ok inner) :
    (LensOp.follow (.obj ms) (.each lens)).outcome = .ok (.obj (ms.put "items" inner)) := by
  simp [LensOp.follow, Json.mentions, Members.has, hitems, WellShaped.valueOf_of_get? hitems, hlens]

theorem exists_followed_each {next : Json} (hitems : ms.get? "items" = some part)
    (hfollow : (LensOp.follow (.obj ms) (.each lens)).outcome = .ok next) :
    ∃ inner, (Lens.follow part lens).outcome = .ok inner := by
  simp only [LensOp.follow, Json.mentions, Members.has, hitems, Option.isSome_some, Noted.outcome_bind,
    Noted.outcome_liftM, Except.bind_ok, if_true, WellShaped.valueOf_of_get? hitems] at hfollow
  obtain ⟨inner, hinner, -⟩ := Except.exists_of_bind hfollow
  exact ⟨inner, hinner⟩

theorem isArray_of_follow_each {next : Json} (hitems : ms.get? "items" = none)
    (hfollow : (LensOp.follow (.obj ms) (.each lens)).outcome = .ok next) :
    (ms.valueOf "type").isText "array" = true := by
  cases harray : (ms.valueOf "type").isText "array" with
  | true => rfl
  | false => simp [LensOp.follow, Json.mentions, Members.has, hitems, harray] at hfollow

/-- Where nothing is known about elements, a lens for them changes nothing. -/
theorem follow_each_unknown (hitems : ms.get? "items" = none) (harray : (ms.valueOf "type").isText "array" = true) :
    (LensOp.follow (.obj ms) (.each lens)).outcome = .ok (.obj ms) := by
  simp [LensOp.follow, Json.mentions, Members.has, hitems, harray]

end LensOp

end EditLens
