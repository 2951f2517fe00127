import EditLens.Proofs.Json.Entry
import EditLens.Proofs.Lens.Carry
import EditLens.Proofs.Patch.Written
import EditLens.Proofs.Schema.Accepting
import EditLens.Proofs.Schema.Revising

/-! Members whose values are recoded, and their descriptions by types and enumerations. Main statement: what a
conversion makes of the description accepts what it makes of a value exactly if this is of the type described. -/
namespace EditLens

/-- Values that are equal in enumerations have one entry. -/
private theorem Scalar.entry_eq_of_equals {a b : Scalar} (h : (Json.scalar a).equals (.scalar b) = true) :
    (Json.scalar a).entry = (Json.scalar b).entry := by
  rw [Json.equals, Bool.and_eq_true, beq_iff_eq] at h
  obtain ⟨hsame, hbool⟩ := h
  by_cases ha : ∃ x, a = .bool x
  · obtain ⟨x, rfl⟩ := ha
    cases b with
    | bool y => cases x <;> cases y <;> first | rfl | exact absurd hsame (by decide)
    | _ => cases hbool
  · refine entry_eq_of_same (fun x hx => ha ⟨x, hx⟩) (fun y hy => ?_) hsame
    subst hy
    cases a with
    | bool x => exact ha ⟨x, rfl⟩
    | _ => cases hbool

/-- What a table gives for a value is one of its own values. -/
private theorem Mapping.exists_mem_of_recode? {mapping : Mapping} {v w : Json} (h : mapping.recode? v = some w) :
    ∃ m ∈ mapping.forward, m.2 = w := by
  rcases Members.exists_of_putAll h with ⟨m, hm, rfl⟩ | hnone
  · obtain ⟨row, hrow, rfl⟩ := List.mem_map.1 hm
    exact ⟨row, hrow, rfl⟩
  · cases hnone

namespace Schema

/-- Descriptions by a type, or by several, and perhaps by an enumeration. -/
structure Enumerates (part : Members) (type : Json) : Prop where
  names : part.AreOf fun _ => True
  only : part.OnlyHas ["type", "enum"]
  given : part.get? "type" = some type
  enum : ∀ values, part.get? "enum" = some values → ∃ vs, values = .arr vs

variable {part : Members} {type : Json} {mapping : Mapping}

/-- The type stays as it is, and the enumeration is recoded value by value. -/
private theorem exists_converted (mapping : Mapping) (h : Enumerates part type) : ∃ part' : Members,
    converted mapping .null (.obj part) = .ok (.obj part') ∧ part'.AreOf (fun _ => True) ∧
      part'.get? "type" = some type ∧ ∀ (keyword : String) (content : Json), part'.get? keyword = some content →
        keyword = "type" ∨ keyword = "enum" ∧ ∃ vs, part.get? "enum" = some (.arr vs) ∧
          content = .arr (vs.map fun v => (mapping.recode? v).getD v) := by
  have hdefault : part.get? "default" = none := get?_of_onlyHas h.only (by decide)
  have honly : ∀ (keyword : String) (content : Json), part.get? keyword = some content →
      keyword = "type" ∨ keyword = "enum" := by
    intro keyword content hget
    simpa using h.only keyword (Members.has_iff.2 ⟨content, hget⟩)
  cases henum : part.get? "enum" with
  | none =>
    refine ⟨part, ?_, h.names, h.given, fun keyword content hget => ?_⟩
    · simp only [converted, Json.isNull, Json.asMembers, Except.bind_ok, henum, pure_bind, hdefault, Bool.not_true,
        Bool.false_eq_true, if_false]
      rfl
    · rcases honly keyword content hget with htype | rfl
      · exact .inl htype
      · cases henum.symm.trans hget
  | some values =>
    obtain ⟨vs, rfl⟩ := h.enum values henum
    refine ⟨part.put "enum" (.arr (vs.map fun v => (mapping.recode? v).getD v)), ?_, h.names.put _ trivial, ?_,
      fun keyword content hget => ?_⟩
    · have hdefault' : (part.put "enum" (.arr (vs.map fun v => (mapping.recode? v).getD v))).get? "default" = none := by
        rw [Members.get?_put, if_neg (by decide), hdefault]
      simp only [converted, Json.isNull, Json.asMembers, Json.asList, Except.bind_ok, henum, pure_bind, hdefault',
        Bool.not_true, Bool.false_eq_true, if_false]
      rfl
    · rw [Members.get?_put, if_neg (by decide), h.given]
    · rw [Members.get?_put] at hget
      split at hget
      · rename_i hsame
        obtain rfl : "enum" = keyword := by simpa using hsame
        exact .inr ⟨rfl, vs, rfl, (Option.some.inj hget).symm⟩
      · rename_i hsame
        rcases honly keyword content hget with htype | rfl
        · exact .inl htype
        · exact absurd (Scalar.same_refl _) hsame

/-- The recoded description accepts what a value is recoded to if this is of the type, and only then. -/
theorem accepts_converted (h : Enumerates part type) (hrows : ∀ m ∈ mapping.forward, m.2.isDocument = true) :
    ∃ part' : Json, converted mapping .null (.obj part) = .ok part' ∧
      ∀ (a : Scalar) (w : Json), accepts (.scalar a) (.obj part) = true → mapping.recode? (.scalar a) = some w →
        accepts w part' = typeAccepts w type := by
  obtain ⟨part', hconverted, hnames, htype, hcontent⟩ := exists_converted mapping h
  refine ⟨.obj part', hconverted, fun a w haccepts hrecode => ?_⟩
  rw [accepts_obj_iff h.names] at haccepts
  rw [Bool.eq_iff_iff, accepts_obj_iff hnames]
  constructor
  · intro hall
    rw [← keywordAccepts_type]
    exact hall "type" type htype
  · intro hkind keyword content hget
    rcases hcontent keyword content hget with rfl | ⟨rfl, vs, hvs, rfl⟩
    · rw [keywordAccepts_type, ← Option.some.inj (htype.symm.trans hget)]
      exact hkind
    · have hlisted := haccepts "enum" _ hvs
      rw [keywordAccepts_enum, List.any_eq_true] at hlisted ⊢
      obtain ⟨u, hu, hequals⟩ := hlisted
      have hu' : mapping.recode? u = some w := by
        cases u with
        | scalar b => rw [← hrecode, Mapping.recode?, Mapping.recode?, Scalar.entry_eq_of_equals hequals]
        | _ => cases hequals
      obtain ⟨m, hm, rfl⟩ := Mapping.exists_mem_of_recode? hrecode
      exact ⟨m.2, List.mem_map.2 ⟨u, hu, by rw [hu', Option.getD_some]⟩, Json.equals_refl (hrows m hm)⟩

end Schema

namespace Lens

open Schema

variable {ms props part : Members} {type : Json} {name : String} {mapping : Mapping} {source : Json}

/-- After a conversion, the schema accepts what an accepted value is recoded to exactly if this is of the type that
the schema gave before: the type is not recoded. -/
theorem follow_convert_accepts (hprops : Schema.properties ms = .ok props) (hpart : props.get? name = some (.obj part))
    (h : Enumerates part type) (hrows : ∀ m ∈ mapping.forward, m.2.isDocument = true) :
    ∃ (next props' : Members) (part' : Json),
      (Lens.follow (.obj ms) [.convert (.str name) mapping source .null]).outcome = .ok (.obj next) ∧
      Schema.properties next = .ok props' ∧ props'.get? name = some part' ∧
      ∀ (a : Scalar) (w : Json), accepts (.scalar a) (.obj part) = true → mapping.recode? (.scalar a) = some w →
        (∀ (write : Write) (p : PatchOp), p.Edits (write.edit (.scalar a)) [name] →
          (Lens.carry p [.convert (.str name) mapping source .null]).outcome = .ok (some (p.withValue w))) ∧
        accepts w part' = typeAccepts w type := by
  obtain ⟨part', hconverted, haccepts⟩ := accepts_converted h hrows
  have hrevise : Lens.revise (roster ms) [.convert (.str name) mapping source .null] =
      .ok (.described (props.put name part')) := by
    simp only [Lens.revise, LensOp.revise, roster, hprops, redescribe, Json.asKey, Except.bind_ok, hpart, hconverted]
    rfl
  refine ⟨withProperties ms (props.put name part'), props.put name part', part', ?_, properties_withProperties,
    Members.get?_put_self, fun a w ha hrecode => ⟨fun write p hp => ?_, haccepts a w ha hrecode⟩⟩
  · rw [Lens.outcome_follow_eq (by simp), hrevise]
    rfl
  · exact Lens.outcome_carry_convert hp (write.written?_edit _) hrecode source .null

/-- An enumeration of texts that are recoded to texts and to a number. -/
theorem follow_convert_accepts_items :
    let part : Members := [("type", .str "string"), ("enum", .arr [.str "a", .str "b", .str "c"])]
    let ms : Members := [("properties", .obj [("s", .obj part)])]
    let mapping : Mapping := ⟨[("a", .str "x"), ("b", .int 1)], []⟩
    (Schema.properties ms = .ok [("s", .obj part)] ∧ Members.get? [("s", .obj part)] "s" = some (.obj part) ∧
      Enumerates part (.str "string") ∧ ∀ m ∈ mapping.forward, m.2.isDocument = true) ∧
    ∃ (next props' : Members) (part' : Json),
      (Lens.follow (.obj ms) [.convert (.str "s") mapping .null .null]).outcome = .ok (.obj next) ∧
      Schema.properties next = .ok props' ∧ props'.get? "s" = some part' ∧
      ∀ (a : Scalar) (w : Json), accepts (.scalar a) (.obj part) = true → mapping.recode? (.scalar a) = some w →
        (∀ (write : Write) (p : PatchOp), p.Edits (write.edit (.scalar a)) ["s"] →
          (Lens.carry p [.convert (.str "s") mapping .null .null]).outcome = .ok (some (p.withValue w))) ∧
        accepts w part' = typeAccepts w (.str "string") := by
  intro part ms mapping
  have hpart : Enumerates part (.str "string") := by
    refine ⟨?_, ?_, rfl, ?_⟩
    · exact .cons (.cons .nil rfl trivial) (by decide) trivial
    · intro keyword hhas
      by_contra hother
      simp only [List.mem_cons, List.not_mem_nil, or_false, not_or] at hother
      simp [part, Members.has, Members.get?_cons, Ne.symm hother.1, Ne.symm hother.2] at hhas
    · rintro values hvalues
      exact ⟨_, (Option.some.inj hvalues).symm⟩
  have hrows : ∀ m ∈ mapping.forward, m.2.isDocument = true := by decide
  exact ⟨⟨rfl, rfl, hpart, hrows⟩, follow_convert_accepts rfl rfl hpart hrows⟩

/-- A text that is recoded to a number is no value of the member any more, whose type is still that of texts. -/
theorem follow_convert_rejects :
    let part : Members := [("type", .str "string")]
    let ms : Members := [("properties", .obj [("s", .obj part)])]
    let op : LensOp := .convert (.str "s") ⟨[("a", .int 1)], [("1", .str "a")]⟩ .null .null
    accepts (.str "a") (.obj part) = true ∧
      (Lens.carry (.add ["s"] (.str "a")) [op]).outcome = .ok (some (.add ["s"] (.int 1))) ∧
      (Lens.follow (.obj ms) [op]).outcome = .ok (.obj ms) ∧ accepts (.int 1) (.obj part) = false :=
  ⟨by decide, by rfl, by decide +kernel, by decide⟩

end Lens

end EditLens
