import EditLens.Proofs.Lens.Convert
import EditLens.Proofs.Schema.Formed
import EditLens.Schema.Follow

/-! Schemas whose keywords say what they are to say, with any alternatives and any types. Main statements: such
schemas stay regular when members are described in other ways, and when null is taken out of them. -/
namespace EditLens

open Function (update)

namespace Members

theorem Distinct.putAll {ms : Members} (h : ms.Distinct) (extra : Members) : (ms.putAll extra).Distinct := by
  induction extra generalizing ms with
  | nil => exact h
  | cons m rest ih => exact ih (h.put m.1 m.2)

def AllNamed (sort : String → Json → Prop) (ms : Members) : Prop :=
  ∀ m ∈ ms, ∀ name : String, m.1.same (.str name) = true → sort name m.2

namespace AllNamed

variable {sort : String → Json → Prop} {ms extra : Members} {key : Scalar} {name : String} {v : Json}

private theorem get? (h : ms.AllNamed sort) (hv : ms.get? name = some v) : sort name v := by
  obtain ⟨k, hmem, hk⟩ := exists_mem_of_get? hv
  exact h _ hmem name hk

private theorem without (h : ms.AllNamed sort) (key : Scalar) : (ms.without key).AllNamed sort :=
  fun m hm => h m (List.mem_filter.1 hm).1

private theorem put (h : ms.AllNamed sort) (hv : ∀ name : String, key.same (.str name) = true → sort name v) :
    (ms.put key v).AllNamed sort := by
  induction ms with
  | nil => simpa [Members.put, AllNamed] using hv
  | cons m rest ih =>
    obtain ⟨k, w⟩ := m
    obtain ⟨hfirst, hrest⟩ := List.forall_mem_cons.1 h
    rw [Members.put]
    split
    · rename_i hk
      refine List.forall_mem_cons.2 ⟨fun name hname => hv name (Scalar.same_trans ?_ hname), hrest⟩
      rwa [Scalar.same_comm]
    · exact List.forall_mem_cons.2 ⟨hfirst, ih hrest⟩

private theorem put_text (h : ms.AllNamed sort) (hv : sort name v) : (ms.put (.str name) v).AllNamed sort :=
  h.put fun other hother => by
    obtain rfl : name = other := by simpa using hother
    exact hv

private theorem putAll (h : ms.AllNamed sort) (hextra : extra.AllNamed sort) : (ms.putAll extra).AllNamed sort := by
  induction extra generalizing ms with
  | nil => exact h
  | cons m rest ih =>
    obtain ⟨hfirst, hrest⟩ := List.forall_mem_cons.1 hextra
    exact ih (h.put hfirst) hrest

end AllNamed

end Members

namespace Schema

mutual

/-- Schemas that are objects, as are all the schemas in them. Members are described by name; unions, and what is
required or allowed, are lists. Nothing is asked of types and defaults. -/
inductive Regular : Json → Prop
  | mk {ms : Members} (distinct : ms.Distinct)
    (keywords : ∀ m ∈ ms, ∀ keyword : String, m.1.same (.str keyword) = true → RegularAt keyword m.2) :
    Regular (.obj ms)

inductive RegularAt : String → Json → Prop
  | properties {keyword : String} {props : Members} (hkeyword : keyword = "properties") (distinct : props.Distinct)
    (text : ∀ m ∈ props, ∃ name : String, m.1 = .str name) (members : ∀ m ∈ props, Regular m.2) :
    RegularAt keyword (.obj props)
  | items {keyword : String} {part : Json} (hkeyword : keyword = "items") (h : Regular part) :
    RegularAt keyword part
  | union {keyword : String} {os : List Json} (hkeyword : keyword = "anyOf" ∨ keyword = "oneOf")
    (alternatives : ∀ o ∈ os, Regular o) : RegularAt keyword (.arr os)
  | list {keyword : String} {vs : List Json} (hkeyword : keyword = "required" ∨ keyword = "enum") :
    RegularAt keyword (.arr vs)
  | other {keyword : String} {v : Json} (hmembers : keyword ≠ "properties") (helements : keyword ≠ "items")
    (hunion : keyword ≠ "anyOf" ∧ keyword ≠ "oneOf") (hlist : keyword ≠ "required" ∧ keyword ≠ "enum") :
    RegularAt keyword v

end

private theorem RegularAt.type (v : Json) : RegularAt "type" v := .other (by simp) (by simp) (by simp) (by simp)

private theorem RegularAt.default (v : Json) : RegularAt "default" v := .other (by simp) (by simp) (by simp) (by simp)

/-- Schemas that differ in what they say about members alone, where the second one describes each member as
told. -/
structure Retold (ms : Members) (next : Json) (parts : String → Option Json) : Prop where
  regular : Regular next
  part?_eq : part? next = parts
  beside : ∃ ns : Members, next = .obj ns ∧ ns.has "properties" = true ∧
    ∀ keyword : String, keyword ≠ "properties" → keyword ≠ "required" → ns.get? keyword = ms.get? keyword

theorem part?_congr {ms ns : Members} (h : ns.get? "properties" = ms.get? "properties") :
    part? (.obj ns) = part? (.obj ms) := by
  funext name
  simp only [part?, memberSchemas, WellShaped.lookup_obj, Members.valueOf, h]

/-- A schema that describes these members and requires those names, whether or not it leaves out what is empty. -/
structure Tells (ms props : Members) (names : List Json) : Prop where
  properties : (ms.get? "properties" = none ∧ props = []) ∨ ms.get? "properties" = some (.obj props)
  required : (ms.get? "required" = none ∧ names = []) ∨ ms.get? "required" = some (.arr names)
  members : props.AreOf fun _ => True

theorem Tells.part?_eq {ms props : Members} {names : List Json} (h : Tells ms props names) :
    part? (.obj ms) = fun name : String => props.get? name :=
  funext fun name => by rw [part?, memberSchemas_of_get? h.properties]

namespace Regular

variable {schema part : Json} {ms props : Members} {keyword name : String} {v : Json}

theorem exists_obj (h : Regular schema) : ∃ ms : Members, schema = .obj ms := by
  cases h
  exact ⟨_, rfl⟩

theorem distinct (h : Regular (.obj ms)) : ms.Distinct := by
  cases h with
  | mk distinct => exact distinct

private theorem allNamed (h : Regular (.obj ms)) : ms.AllNamed RegularAt := by
  cases h with
  | mk _ keywords => exact keywords

private theorem put (h : Regular (.obj ms)) (hv : RegularAt keyword v) : Regular (.obj (ms.put (.str keyword) v)) :=
  .mk (h.distinct.put _ _) (h.allNamed.put_text hv)

private theorem without (h : Regular (.obj ms)) (keyword : String) : Regular (.obj (ms.without (.str keyword))) :=
  .mk (h.distinct.filter _) (h.allNamed.without _)

private theorem putAll {extra : Members} (h : Regular (.obj ms)) (hextra : Regular (.obj extra)) :
    Regular (.obj (ms.putAll extra)) :=
  .mk (h.distinct.putAll extra) (h.allNamed.putAll hextra.allNamed)

theorem empty : Regular .emptyObject := .mk .nil (by simp)

theorem of_items (h : Regular (.obj ms)) (hitems : ms.get? "items" = some part) : Regular part := by
  generalize hkeyword : "items" = keyword at hitems
  cases h.allNamed.get? hitems with
  | items _ h => exact h
  | _ => grind

/-- The alternatives of a union are schemas. -/
theorem exists_alternatives (h : Regular (.obj ms)) (hkeyword : keyword = "anyOf" ∨ keyword = "oneOf")
    (hv : ms.get? keyword = some v) : ∃ os, v = .arr os ∧ ∀ o ∈ os, Regular o := by
  cases h.allNamed.get? hv with
  | union _ alternatives => exact ⟨_, rfl, alternatives⟩
  | _ => grind

theorem exists_list (h : Regular (.obj ms)) (hkeyword : keyword = "required" ∨ keyword = "enum")
    (hv : ms.get? keyword = some v) : ∃ vs, v = .arr vs := by
  cases h.allNamed.get? hv with
  | union | list => exact ⟨_, rfl⟩
  | _ => grind

/-- What a regular schema says about members. -/
theorem exists_tells (h : Regular (.obj ms)) : ∃ (props : Members) (names : List Json),
    Tells ms props names ∧ props.AreOf Regular := by
  have hrequired : ∃ names : List Json, (ms.get? "required" = none ∧ names = []) ∨
      ms.get? "required" = some (.arr names) := by
    cases hnames : ms.get? "required" with
    | none => exact ⟨[], .inl ⟨rfl, rfl⟩⟩
    | some v =>
      obtain ⟨names, rfl⟩ := h.exists_list (.inl rfl) hnames
      exact ⟨names, .inr rfl⟩
  obtain ⟨names, hnames⟩ := hrequired
  have hproperties : ∃ props : Members, ((ms.get? "properties" = none ∧ props = []) ∨
      ms.get? "properties" = some (.obj props)) ∧ props.AreOf Regular := by
    cases hprops : ms.get? "properties" with
    | none => exact ⟨[], .inl ⟨rfl, rfl⟩, .nil⟩
    | some v =>
      generalize hkeyword : "properties" = keyword at hprops
      cases h.allNamed.get? hprops with
      | @properties _ props _ distinct text members => exact ⟨props, .inr rfl, distinct, text, members⟩
      | _ => grind
  obtain ⟨props, hprops, hparts⟩ := hproperties
  exact ⟨props, names, ⟨hprops, hnames, hparts.any⟩, hparts⟩

theorem exists_members (h : Regular (.obj ms)) : ∃ (props : Members) (names : List Json),
    Schema.properties ms = .ok props ∧ Schema.required ms = .ok names ∧ props.AreOf Regular ∧
      part? (.obj ms) = fun name : String => props.get? name := by
  obtain ⟨props, names, htells, hparts⟩ := h.exists_tells
  exact ⟨props, names, properties_of_get? htells.properties, required_of_get? htells.required, hparts, htells.part?_eq⟩

theorem of_part (h : Regular schema) (hpart : part? schema name = some part) : Regular part := by
  obtain ⟨ms, rfl⟩ := h.exists_obj
  obtain ⟨props, -, -, -, hparts, heq⟩ := h.exists_members
  exact hparts.part ((congrFun heq name).symm.trans hpart)

/-- Members may be described in other ways. -/
theorem retold (h : Regular (.obj ms)) (hprops : props.AreOf Regular) {parts : String → Option Json}
    (hparts : (fun name : String => props.get? name) = parts) :
    Retold ms (.obj (withProperties ms props)) parts where
  regular := h.put (.properties rfl hprops.distinct hprops.text hprops.parts)
  part?_eq := by
    funext name
    rw [part?, memberSchemas_withProperties, ← hparts]
  beside := ⟨_, rfl, by simp [withProperties, Members.has], fun keyword hne _ => get?_withProperties hne⟩

theorem retold_required (h : Regular (.obj ms)) (hprops : props.AreOf Regular) (names : List Json)
    {parts : String → Option Json} (hparts : (fun name : String => props.get? name) = parts) :
    Retold ms (.obj (withRequired (withProperties ms props) names)) parts where
  regular := (h.retold hprops hparts).regular.put (.list (.inl rfl))
  part?_eq := by
    funext name
    rw [part?, memberSchemas_withRequired, memberSchemas_withProperties, ← hparts]
  beside := ⟨_, rfl, by simp [withRequired, withProperties, Members.has, Members.get?_put],
    fun keyword hne hne' => by rw [get?_withRequired _ hne', get?_withProperties hne]⟩

/-- Schemas with one keyword after another. -/
theorem cons {rest : Members} (h : Regular (.obj rest)) (hnew : rest.get? keyword = none)
    (hv : RegularAt keyword v) : Regular (.obj ((.str keyword, v) :: rest)) := by
  refine .mk (List.pairwise_cons.2 ⟨fun m hm => ?_, h.distinct⟩)
    (List.forall_mem_cons.2 ⟨fun other hother => ?_, h.allNamed⟩)
  · rw [Scalar.same_comm, Members.same_eq_false_of_get?_eq_none hnew hm]
  obtain rfl : keyword = other := by simpa using hother
  exact hv

private theorem exists_optionsWithoutNull {os : List Json} (h : ∀ o ∈ os, Regular o) :
    ∃ os', optionsWithoutNull os = .ok os' ∧ ∀ o ∈ os', Regular o := by
  induction os with
  | nil => exact ⟨[], rfl, by simp⟩
  | cons o rest ih =>
    obtain ⟨ho, hrest⟩ := List.forall_mem_cons.1 h
    obtain ⟨os', hos', hall⟩ := ih hrest
    obtain ⟨ms, rfl⟩ := ho.exists_obj
    rw [optionsWithoutNull, WellShaped.lookup_obj, Except.bind_ok, hos', Except.bind_ok]
    cases (ms.valueOf "type").isText "null" with
    | true => exact ⟨os', rfl, hall⟩
    | false => exact ⟨.obj ms :: os', rfl, List.forall_mem_cons.2 ⟨ho, hall⟩⟩

private theorem exists_unionWithoutNull (h : Regular (.obj ms)) (hkeyword : keyword = "anyOf" ∨ keyword = "oneOf") :
    ∃ ns, unionWithoutNull keyword ms = .ok ns ∧ Regular (.obj ns) := by
  rw [unionWithoutNull]
  cases hunion : ms.get? keyword with
  | none => exact ⟨ms, rfl, h⟩
  | some v =>
  obtain ⟨os, rfl, hos⟩ := h.exists_alternatives hkeyword hunion
  obtain ⟨os', hos', hall⟩ := exists_optionsWithoutNull hos
  simp only [Json.asList, Except.bind_ok, hos']
  split
  · rename_i _ option
    have hoption := hall (.obj option) List.mem_cons_self
    exact ⟨_, rfl, (h.without keyword).putAll hoption⟩
  · exact ⟨_, rfl, h.put (.union hkeyword hall)⟩

private theorem exists_unionsWithoutNull (h : Regular (.obj ms)) (f : Members → Members)
    (hf : ∀ ns, Regular (.obj ns) → Regular (.obj (f ns))) : ∃ rest, (do
      let ns ← unionWithoutNull "anyOf" ms
      let ns ← unionWithoutNull "oneOf" ns
      return Json.obj (f ns)) = .ok rest ∧ Regular rest := by
  obtain ⟨ns, hns, hregular⟩ := exists_unionWithoutNull h (.inl (Eq.refl "anyOf"))
  obtain ⟨ns', hns', hregular'⟩ := exists_unionWithoutNull hregular (.inr (Eq.refl "oneOf"))
  exact ⟨_, by rw [hns, Except.bind_ok, hns', Except.bind_ok]; rfl, hf ns' hregular'⟩

/-- Null can be taken out of a regular schema. -/
theorem exists_withoutNull (h : Regular schema) : ∃ rest, withoutNull schema = .ok rest ∧ Regular rest := by
  obtain ⟨ms, rfl⟩ := h.exists_obj
  have htyped : ∀ types, Regular (.obj (ms.put "type" (typeWithoutNull types))) := fun types =>
    h.put (.type _)
  rw [withoutNull, Json.asObject, Except.bind_ok]
  split
  · exact exists_unionsWithoutNull (htyped _) _ fun ns hns => by split; exacts [hns.without _, hns]
  · exact exists_unionsWithoutNull h _ fun ns hns => by split; exacts [hns.without _, hns]

end Regular

end Schema

namespace Members

variable {ms : Members} {name : String} {v : Json}

theorem get?_put_eq_update :
    (fun other : String => get? (ms.put (.str name) v) other) =
      update (fun other : String => ms.get? other) name v := by
  funext other
  rw [get?_put, Function.update_apply]
  simp [eq_comm]

theorem get?_without_eq_update :
    (fun other : String => get? (ms.without (.str name)) other) =
      update (fun other : String => ms.get? other) name none := by
  funext other
  rw [get?_without, Function.update_apply]
  simp [eq_comm]

theorem get?_renamed_eq_update {source destination : String} (hdestination : ms.get? destination = none) :
    (fun other : String => get? (ms.renamed source destination) other) =
      update (update (fun other : String => ms.get? other) source none) destination (ms.get? source) := by
  funext other
  rw [Function.update_apply, Function.update_apply]
  split
  · rename_i hother
    rw [hother, get?_renamed_destination hdestination]
  split
  · rename_i hother hsource
    rw [hsource, get?_renamed_source (by simpa [hsource] using Ne.symm hother)]
  · rename_i hother hsource
    rw [get?_renamed_of_ne (by simpa using hsource) (by simpa using Ne.symm hother)]

end Members

namespace Schema

def nullable (part : Json) : Json := .obj [("anyOf", .arr [.obj [("type", .str "null")], part])]

def arrayOf (part : Json) : Json := .obj [("type", .str "array"), ("default", .arr []), ("items", part)]

def isArray (ms : Members) : Bool := ms.has "items" || (ms.valueOf "type").isText "array"

def elements (ms : Members) : Json := (ms.get? "items").getD .emptyObject

/-- The description of a new member has a type and a default. -/
theorem eq_of_typeAndDefault {ms : Members} {type default : Json} (h : typeAndDefault type default = .ok ms) :
    ∃ t d : Json, ms = ([("type", t), ("default", d)] : Members) := by
  simp only [typeAndDefault, bind, Except.bind] at h
  split at h
  · cases h
  split at h
  · split at h
    · cases h
    · exact ⟨_, _, (Except.ok.inj h).symm⟩
  · exact ⟨_, _, (Except.ok.inj h).symm⟩

namespace Regular

variable {ms : Members} {part : Json} {name : String}

theorem described_eq (h : Regular (.obj ms)) (hpart : part? (.obj ms) name = some part) (step : SchemaStep) :
    described ms (.str name) step = .ok part := by
  obtain ⟨props, names, hprops, -, -, heq⟩ := h.exists_members
  simp only [heq] at hpart
  simp [described, hprops, Json.asKey, hpart, pure, Except.pure]

/-- One member may be described in another way. -/
theorem exists_describe (h : Regular (.obj ms)) (name : String) (hpart : Regular part) :
    ∃ ns, describe ms (.str name) part = .ok ns ∧
      Retold ms (.obj ns) (update (part? (.obj ms)) name (some part)) := by
  obtain ⟨props, names, hprops, -, hparts, heq⟩ := h.exists_members
  refine ⟨_, ?_, h.retold (hparts.put name hpart) (Members.get?_put_eq_update.trans (by rw [heq]))⟩
  simp [describe, hprops, Json.asKey, pure, Except.pure]

theorem nullable (h : Regular part) : Regular (Schema.nullable part) :=
  .cons .empty rfl (.union (.inl rfl) (List.forall_mem_cons.2
    ⟨.cons .empty rfl (.type _), List.forall_mem_singleton.2 h⟩))

theorem arrayOf (h : Regular part) : Regular (Schema.arrayOf part) :=
  .cons (.cons (.cons .empty rfl (.items rfl h)) rfl (.default _)) rfl (.type _)

private theorem of_typeAndDefault {type default : Json} (h : typeAndDefault type default = .ok ms) :
    Regular (.obj ms) := by
  obtain ⟨type, default, rfl⟩ := eq_of_typeAndDefault h
  exact .cons (.cons .empty rfl (.default _)) rfl (.type _)

/-- The description of a new member is regular. -/
theorem of_ofProperty {property : Property} (h : ofProperty property = .ok part) : Regular part := by
  obtain ⟨description, hdescription, h⟩ := Except.exists_of_bind h
  have hregular := of_typeAndDefault hdescription
  split at h
  · obtain ⟨type, -, h⟩ := Except.exists_of_bind h
    obtain ⟨default, -, h⟩ := Except.exists_of_bind h
    obtain ⟨items, hitems, h⟩ := Except.exists_of_bind h
    obtain rfl := Except.ok.inj h
    exact hregular.put (.items rfl (of_typeAndDefault hitems))
  · obtain rfl := Except.ok.inj h
    exact hregular

theorem typed (type : Json) : Regular (.obj [("type", type)]) :=
  .cons .empty rfl (.type _)

theorem elements (h : Regular (.obj ms)) : Regular (elements ms) := by
  rw [Schema.elements]
  cases hitems : ms.get? "items" with
  | none => exact .empty
  | some part => exact h.of_items hitems

theorem put_items (h : Regular (.obj ms)) (hpart : Regular part) : Regular (.obj (ms.put "items" part)) :=
  h.put (.items rfl hpart)

end Regular

structure Recoded (ms ns : Members) : Prop where
  regular : Regular (.obj ns)
  beside : ∀ keyword : String, keyword ≠ "enum" → keyword ≠ "default" → ns.get? keyword = ms.get? keyword

namespace Recoded

variable {ms ns : Members}

theorem refl (h : Regular (.obj ms)) : Recoded ms ms := ⟨h, fun _ _ _ => rfl⟩

theorem listing (h : Recoded ms ns) (vs : List Json) : Recoded ms (ns.put "enum" (.arr vs)) where
  regular := h.regular.put (.list (.inr rfl))
  beside keyword henum hdefault := by
    rw [Members.get?_put, if_neg (by simpa using Ne.symm henum), h.beside keyword henum hdefault]

theorem defaulting (h : Recoded ms ns) (v : Json) : Recoded ms (ns.put "default" v) where
  regular := h.regular.put (.default _)
  beside keyword henum hdefault := by
    rw [Members.get?_put, if_neg (by simpa using Ne.symm hdefault), h.beside keyword henum hdefault]

end Recoded

end Schema

end EditLens
