import EditLens.Proofs.Lens.Convert
import EditLens.Proofs.Schema.Accepting

/-! Schemas made of types and unions, without null. Main statement: what is left accepts all other values as before,
and null only if an alternative that is not the type of null itself does. -/
namespace EditLens.Schema

variable {s o v : Json} {os ps : List Json}

/-- Schemas made of types and of unions of such schemas. -/
inductive TypeUnion : Json → Prop
  | type (name : String) : TypeUnion (only "type" (.str name))
  | types (names : List String) : TypeUnion (only "type" (.arr (names.map .str)))
  | anyOf {os : List Json} (parts : ∀ o ∈ os, TypeUnion o) : TypeUnion (only "anyOf" (.arr os))
  | oneOf {os : List Json} (parts : ∀ o ∈ os, TypeUnion o) : TypeUnion (only "oneOf" (.arr os))

abbrev nullType : Json := only "type" (.str "null")

def remaining (os : List Json) : List Json := os.filter (· ≠ nullType)

/-- Schemas that accept null still when the type of null is taken out, as what remains of them does. A single
alternative takes the place of its union; as a `oneOf` in the place of an `anyOf` it is gone through in turn. -/
inductive KeepsNull : Json → Prop
  | anyOf {os : List Json} {o : Json} (left : o ∈ remaining os) (null : accepts .null o = true)
    (single : ∀ ps, remaining os ≠ [only "oneOf" (.arr ps)]) : KeepsNull (only "anyOf" (.arr os))
  | merged {os ps : List Json} (left : remaining os = [only "oneOf" (.arr ps)])
    (null : (remaining ps).countP (accepts .null) = 1) : KeepsNull (only "anyOf" (.arr os))
  | oneOf {os : List Json} (null : (remaining os).countP (accepts .null) = 1) : KeepsNull (only "oneOf" (.arr os))

private theorem not_keepsNull_type {type : Json} : ¬KeepsNull (only "type" type) := by
  intro h
  generalize hs : only "type" type = s at h
  cases h <;> simp at hs

private theorem keepsNull_anyOf : KeepsNull (only "anyOf" (.arr os)) ↔
    (∃ ps, remaining os = [only "oneOf" (.arr ps)] ∧ (remaining ps).countP (accepts .null) = 1) ∨
      (∀ ps, remaining os ≠ [only "oneOf" (.arr ps)]) ∧ ∃ o ∈ remaining os, accepts .null o = true := by
  constructor
  · intro h
    generalize hs : only "anyOf" (.arr os) = s at h
    cases h with
    | anyOf left null single =>
      obtain rfl : os = _ := by simpa using hs
      exact .inr ⟨single, _, left, null⟩
    | merged left null =>
      obtain rfl : os = _ := by simpa using hs
      exact .inl ⟨_, left, null⟩
    | oneOf null => simp at hs
  · rintro (⟨ps, left, null⟩ | ⟨single, o, left, null⟩)
    · exact .merged left null
    · exact .anyOf left null single

private theorem keepsNull_oneOf :
    KeepsNull (only "oneOf" (.arr os)) ↔ (remaining os).countP (accepts .null) = 1 := by
  refine ⟨fun h => ?_, .oneOf⟩
  generalize hs : only "oneOf" (.arr os) = s at h
  cases h with
  | oneOf null =>
    obtain rfl : os = _ := by simpa using hs
    exact null
  | _ => simp at hs

private theorem TypeUnion.parts_oneOf (h : TypeUnion (only "oneOf" (.arr ps))) : ∀ o ∈ ps, TypeUnion o := by
  generalize hs : only "oneOf" (.arr ps) = s at h
  cases h with
  | oneOf parts =>
    obtain rfl : ps = _ := by simpa using hs
    exact parts
  | _ => simp at hs

private theorem typeName_eq_null : v.typeName = "null" ↔ v = .null := by
  cases v with
  | scalar a => cases a <;> simp [Json.typeName]
  | _ => simp [Json.typeName]

private theorem isOfType_null : v.isOfType "null" = decide (v = .null) := by
  have hname : v.isOfType "null" = (v.typeName == "null") := by
    unfold Json.isOfType
    split <;> simp
  rw [hname, beq_eq_decide, decide_eq_decide, typeName_eq_null]

private theorem accepts_nullType : accepts v nullType = decide (v = .null) := by
  rw [accepts_type, typeAccepts, isOfType_null]

/-- A schema of the kind has one keyword. -/
private theorem TypeUnion.exists_only (h : TypeUnion o) :
    ∃ keyword content, o = only keyword content ∧ keyword ≠ "default" ∧
      (keyword = "oneOf" → ∃ ps, content = .arr ps) := by
  cases h with
  | type name => exact ⟨_, _, rfl, by decide, fun h => absurd h (by decide)⟩
  | types names => exact ⟨_, _, rfl, by decide, fun h => absurd h (by decide)⟩
  | anyOf parts => exact ⟨_, _, rfl, by decide, fun h => absurd h (by decide)⟩
  | oneOf parts => exact ⟨_, _, rfl, by decide, fun _ => ⟨_, rfl⟩⟩

/-- The type of null is told by its keyword. -/
private theorem TypeUnion.lookup_type (h : TypeUnion o) :
    ∃ type, o.lookup "type" = .ok type ∧ type.isText "null" = decide (o = nullType) := by
  cases h with
  | type name => exact ⟨.str name, rfl, by simp⟩
  | types names => exact ⟨.arr (names.map .str), rfl, by simp [Json.isText]⟩
  | anyOf parts => exact ⟨.null, rfl, by simp [Json.isText]⟩
  | oneOf parts => exact ⟨.null, rfl, by simp [Json.isText]⟩

private theorem optionsWithoutNull_eq (h : ∀ o ∈ os, TypeUnion o) : optionsWithoutNull os = .ok (remaining os) := by
  induction os with
  | nil => rfl
  | cons o rest ih =>
    rw [List.forall_mem_cons] at h
    obtain ⟨type, htype, hnull⟩ := h.1.lookup_type
    simp only [optionsWithoutNull, htype, ih h.2, Except.bind_ok, hnull]
    by_cases ho : o = nullType <;> simp [ho, remaining, pure, Except.pure]

private def merged (keyword : String) : List Json → Members
  | [.obj option] => option
  | options => [(.str keyword, .arr options)]

private theorem unionWithoutNull_self (keyword : String) (h : ∀ o ∈ os, TypeUnion o) :
    unionWithoutNull keyword [(.str keyword, .arr os)] = .ok (merged keyword (remaining os)) := by
  have hget : Members.get? [(.str keyword, .arr os)] (.str keyword) = some (.arr os) := by simp [Members.get?_cons]
  simp only [unionWithoutNull, hget, Json.asList, Except.bind_ok, optionsWithoutNull_eq h]
  have hleft : ∀ o ∈ remaining os, TypeUnion o := fun o ho => h o (List.mem_of_mem_filter ho)
  split
  · rename_i option heq
    obtain ⟨k, w, hoption, -⟩ := (hleft (.obj option) (heq ▸ List.mem_cons_self)).exists_only
    obtain rfl := Json.obj.inj hoption
    rw [heq]
    simp [Members.without, Members.putAll, Members.put, merged, pure, Except.pure]
  · rename_i hmany
    rw [merged]
    · simp [Members.put]
      rfl
    · exact hmany

/-- Keywords that no schema of the kind has are not seen. -/
private theorem unionWithoutNull_of_ne {keyword : String} {k : String} {w : Json} (hne : k ≠ keyword) :
    unionWithoutNull keyword [(.str k, w)] = .ok [(.str k, w)] := by
  have hget : Members.get? [(.str k, w)] (.str keyword) = none := by simp [Members.get?_cons, hne]
  rw [unionWithoutNull, hget]
  rfl

private theorem accepts_merged_anyOf : accepts v (.obj (merged "anyOf" os)) = os.any (accepts v) := by
  unfold merged
  split
  · simp
  · exact accepts_anyOf

private theorem accepts_merged_oneOf :
    accepts v (.obj (merged "oneOf" os)) = (os.countP (accepts v) == 1) := by
  unfold merged
  split
  · rename_i option
    rw [List.countP_singleton]
    cases accepts v (.obj option) <;> rfl
  · exact accepts_oneOf

/-- Other values than null do not tell what is taken out. -/
private theorem any_remaining (hv : v ≠ .null) : (remaining os).any (accepts v) = os.any (accepts v) := by
  have hnull : accepts v nullType = false := by simp [accepts_nullType, hv]
  rw [remaining, List.any_filter]
  congr 1
  funext o
  by_cases ho : o = nullType <;> simp [ho, hnull]

private theorem countP_remaining (hv : v ≠ .null) :
    (remaining os).countP (accepts v) = os.countP (accepts v) := by
  have hnull : accepts v nullType = false := by simp [accepts_nullType, hv]
  rw [remaining, List.countP_filter]
  refine List.countP_congr fun o _ => ?_
  by_cases ho : o = nullType <;> simp [ho, hnull]

/-- What is left of a union has one keyword. -/
private theorem exists_merged (keyword : String) (hkeyword : keyword ≠ "default") (h : ∀ o ∈ os, TypeUnion o) :
    ∃ k w, merged keyword os = [(.str k, w)] ∧ k ≠ "default" ∧
      (k = "oneOf" → (∃ ps, os = [only "oneOf" (.arr ps)]) ∨ keyword = "oneOf") := by
  unfold merged
  split
  · rename_i option
    obtain ⟨k, w, heq, hk, hone⟩ := (h (.obj option) List.mem_cons_self).exists_only
    obtain rfl := Json.obj.inj heq
    refine ⟨k, w, rfl, hk, ?_⟩
    rintro rfl
    obtain ⟨ps, rfl⟩ := hone rfl
    exact .inl ⟨ps, rfl⟩
  · exact ⟨keyword, _, rfl, hkeyword, .inr⟩

private theorem withoutNull_union {keyword : String} {content : Json} {ms : Members} {k : String} {w : Json}
    (hkeyword : keyword ≠ "type") (hk : k ≠ "default")
    (hany : unionWithoutNull "anyOf" [(.str keyword, content)] = .ok ms)
    (hone : unionWithoutNull "oneOf" ms = .ok [(.str k, w)]) :
    withoutNull (only keyword content) = .ok (only k w) := by
  have htype : Members.get? [(.str keyword, content)] (.str "type") = none := by simp [Members.get?_cons, hkeyword]
  have hdefault : Members.get? [(.str k, w)] (.str "default") = none := by simp [Members.get?_cons, hk]
  simp only [withoutNull, Json.asObject, Except.bind_ok, htype, hany, hone, hdefault]
  rfl

private theorem isOfType_null_name (name : String) : Json.null.isOfType name = decide (name = "null") := by
  rw [show Json.null.isOfType name = ("null" == name || false) from rfl, Bool.or_false, beq_eq_decide,
    decide_eq_decide]
  exact eq_comm

private theorem typeAccepts_names (names : List String) :
    typeAccepts v (.arr (names.map .str)) = names.any (v.isOfType ·) := by
  rw [typeAccepts, List.any_map]
  rfl

private theorem typeAccepts_typeWithoutNull (names : List String) :
    typeAccepts v (typeWithoutNull (names.map .str)) = (names.filter (· ≠ "null")).any (v.isOfType ·) := by
  have hfilter : (names.map Json.str).filter (fun t => !t.isText "null") = (names.filter (· ≠ "null")).map .str := by
    rw [List.filter_map]
    congr 1
    refine List.filter_congr fun name _ => ?_
    simp
  rw [typeWithoutNull, hfilter]
  generalize names.filter (· ≠ "null") = left
  split
  · rename_i type heq
    obtain ⟨name, rfl, rfl⟩ := List.map_eq_singleton_iff.1 heq
    simp [typeAccepts]
  · exact typeAccepts_names left

private theorem withoutNull_type (name : String) :
    withoutNull (only "type" (.str name)) = .ok (only "type" (.str name)) :=
  rfl

private theorem withoutNull_types (names : List String) :
    withoutNull (only "type" (.arr (names.map .str))) = .ok (only "type" (typeWithoutNull (names.map .str))) :=
  rfl

private theorem accepts_null_left_types (names : List String) :
    ((names.filter (· ≠ "null")).any (Json.null.isOfType ·)) = false := by
  rw [List.any_eq_false]
  intro name hname
  simpa [isOfType_null_name] using (List.mem_filter.1 hname).2

private theorem withoutNull_accepts_anyOf (h : ∀ o ∈ os, TypeUnion o) :
    ∃ t, withoutNull (only "anyOf" (.arr os)) = .ok t ∧
      (∀ v, v ≠ .null → accepts v t = os.any (accepts v)) ∧
      (accepts .null t = true ↔ KeepsNull (only "anyOf" (.arr os))) := by
  have hleft : ∀ o ∈ remaining os, TypeUnion o := fun o ho => h o (List.mem_of_mem_filter ho)
  have hany := unionWithoutNull_self "anyOf" h
  rw [keepsNull_anyOf]
  -- `oneOf` is gone through after `anyOf`, so that a single alternative of the first kind is looked at once more
  by_cases hsingle : ∃ ps, remaining os = [only "oneOf" (.arr ps)]
  · obtain ⟨ps, hps⟩ := hsingle
    have hparts := (hleft _ (hps ▸ List.mem_cons_self)).parts_oneOf
    have hleft' : ∀ o ∈ remaining ps, TypeUnion o := fun o ho => hparts o (List.mem_of_mem_filter ho)
    obtain ⟨k, w, hmerged, hk, -⟩ := exists_merged "oneOf" (by decide) hleft'
    have hone := (unionWithoutNull_self "oneOf" hparts).trans (congrArg Except.ok hmerged)
    rw [hps] at hany
    refine ⟨only k w, withoutNull_union (by decide) hk hany hone, fun v hv => ?_, ?_⟩
    · rw [only, ← hmerged, accepts_merged_oneOf, countP_remaining hv, ← accepts_oneOf, ← any_remaining hv, hps]
      simp
    · rw [only, ← hmerged, accepts_merged_oneOf, beq_iff_eq, hps]
      simp
  · obtain ⟨k, w, hmerged, hk, hkind⟩ := exists_merged "anyOf" (by decide) hleft
    have hne : k ≠ "oneOf" := fun heq => (hkind heq).elim hsingle (by decide)
    have hone := unionWithoutNull_of_ne (w := w) hne
    rw [← hmerged] at hone
    have hwithout := withoutNull_union (by decide) hk hany (hone.trans (congrArg Except.ok hmerged))
    refine ⟨only k w, hwithout, fun v hv => ?_, ?_⟩
    · rw [only, ← hmerged, accepts_merged_anyOf, any_remaining hv]
    · rw [only, ← hmerged, accepts_merged_anyOf, List.any_eq_true]
      exact ⟨fun hnull => .inr ⟨fun ps hps => hsingle ⟨ps, hps⟩, hnull⟩,
        fun hkeeps => hkeeps.elim (fun ⟨ps, hps, _⟩ => absurd ⟨ps, hps⟩ hsingle) And.right⟩

private theorem withoutNull_accepts_oneOf (h : ∀ o ∈ os, TypeUnion o) :
    ∃ t, withoutNull (only "oneOf" (.arr os)) = .ok t ∧
      (∀ v, v ≠ .null → accepts v t = (os.countP (accepts v) == 1)) ∧
      (accepts .null t = true ↔ KeepsNull (only "oneOf" (.arr os))) := by
  have hleft : ∀ o ∈ remaining os, TypeUnion o := fun o ho => h o (List.mem_of_mem_filter ho)
  obtain ⟨k, w, hmerged, hk, -⟩ := exists_merged "oneOf" (by decide) hleft
  have hone := (unionWithoutNull_self "oneOf" h).trans (congrArg Except.ok hmerged)
  refine ⟨only k w, withoutNull_union (by decide) hk (unionWithoutNull_of_ne (by decide)) hone, fun v hv => ?_, ?_⟩
  · rw [only, ← hmerged, accepts_merged_oneOf, countP_remaining hv]
  · rw [only, ← hmerged, accepts_merged_oneOf, beq_iff_eq, keepsNull_oneOf]

/-- What is left of a schema accepts all values other than null as before, and null only where an alternative does
that is not the type of null itself. -/
theorem withoutNull_accepts (h : TypeUnion s) (hne : s ≠ nullType) : ∃ t, withoutNull s = .ok t ∧
    (∀ v, v ≠ .null → accepts v t = accepts v s) ∧ (accepts .null t = true ↔ KeepsNull s) := by
  cases h with
  | type name =>
    have hname : name ≠ "null" := fun heq => hne (heq ▸ rfl)
    refine ⟨_, withoutNull_type name, fun v _ => rfl, iff_of_false ?_ not_keepsNull_type⟩
    rw [accepts_type, typeAccepts, isOfType_null_name]
    simpa using hname
  | types names =>
    refine ⟨_, withoutNull_types names, fun v hv => ?_, iff_of_false ?_ not_keepsNull_type⟩
    · rw [accepts_type, accepts_type, typeAccepts_typeWithoutNull, typeAccepts_names, List.any_filter]
      congr 1
      funext name
      by_cases hname : name = "null" <;> simp [hname, isOfType_null, hv]
    · rw [accepts_type, typeAccepts_typeWithoutNull, accepts_null_left_types]
      decide
  | anyOf parts =>
    simp only [accepts_anyOf]
    exact withoutNull_accepts_anyOf parts
  | oneOf parts =>
    simp only [accepts_oneOf]
    exact withoutNull_accepts_oneOf parts

/-- A list of types with null, alone in a union with the type of null, is left as it is. -/
theorem withoutNull_accepts_nested :
    let nested : Json := only "type" (.arr [.str "string", .str "null"])
    let s : Json := only "anyOf" (.arr [nullType, nested])
    (TypeUnion s ∧ s ≠ nullType ∧ withoutNull s = .ok nested ∧ accepts .null nested = true) ∧
      ∃ t, withoutNull s = .ok t ∧ (∀ v, v ≠ .null → accepts v t = accepts v s) ∧
        (accepts .null t = true ↔ KeepsNull s) := by
  intro nested s
  have hs : TypeUnion s := by
    refine .anyOf fun o ho => ?_
    rcases List.mem_cons.1 ho with rfl | ho
    · exact .type "null"
    · rw [List.mem_singleton.1 ho]
      exact .types ["string", "null"]
  exact ⟨⟨hs, by decide, rfl, by decide⟩, withoutNull_accepts hs (by decide)⟩

end EditLens.Schema
