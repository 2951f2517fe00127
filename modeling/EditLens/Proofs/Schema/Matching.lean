import EditLens.Proofs.Schema.Revising

/-! Schemas that say the same at every level, up to the order in which members are described and required and to what
is left out because it is empty. Main statement: where one of two such schemas was revised, the other one can be
revised so that it says what the first one said before. -/
namespace EditLens

open Function (update)

namespace Schema

section Required

variable {names : List Json} {name source destination : String} {n : Json}

private theorem same_text_iff : n.same (.str name) = true ↔ n = .str name := by
  cases n <;> simp [Json.same]

theorem listed_text_iff : listed names (.str name) = true ↔ .str name ∈ names := by
  simp [listed, same_text_iff]

theorem mem_unlisted : n ∈ unlisted names (.str name) ↔ n ∈ names ∧ n ≠ .str name := by
  simp [unlisted, ← same_text_iff (n := n)]

theorem mem_enlisted : n ∈ enlisted names (.str name) ↔ n ∈ names ∨ n = .str name := by
  rw [enlisted]
  split
  · rename_i hlisted
    exact ⟨.inl, fun h => h.elim id fun heq => heq ▸ listed_text_iff.1 hlisted⟩
  · simp

theorem mem_enlisted_if {b : Bool} : n ∈ (if b then enlisted names (.str name) else names) ↔
    n ∈ names ∨ (b = true ∧ n = .str name) := by
  cases b <;> simp [mem_enlisted]

theorem mem_replaced : n ∈ replaced names (.str source) (.str destination) ↔
    (n = .str destination ∧ .str source ∈ names) ∨ (n ∈ names ∧ n ≠ .str source) := by
  simp only [replaced, List.mem_map, same_text_iff]
  constructor
  · rintro ⟨m, hm, rfl⟩
    split
    · rename_i hsource
      exact .inl ⟨rfl, hsource ▸ hm⟩
    · rename_i hsource
      exact .inr ⟨hm, hsource⟩
  · rintro (⟨rfl, hm⟩ | ⟨hm, hne⟩)
    · exact ⟨_, hm, if_pos rfl⟩
    · exact ⟨n, hm, if_neg hne⟩

end Required

/-- Schemas that say the same at every level. -/
inductive Matches : Json → Json → Prop
  | refl (schema : Json) : Matches schema schema
  | level {ms ns props qs : Members} {names others : List Json} (left : Tells ms props names)
    (right : Tells ns qs others) (parts : ∀ name : String, Option.Rel Matches (props.get? name) (qs.get? name))
    (needed : ∀ name, name ∈ names ↔ name ∈ others)
    (items : Option.Rel Matches (ms.get? "items") (ns.get? "items"))
    (beside : ∀ key : Scalar, key ≠ "properties" → key ≠ "required" → key ≠ "items" → ms.get? key = ns.get? key) :
    Matches (.obj ms) (.obj ns)

variable {ms ns props qs : Members} {names others : List Json} {schema : Json}

namespace Tells

theorem roster_eq (h : Tells ms props names) : roster ms = ⟨.ok props, .ok names⟩ := by
  rw [roster, properties_of_get? h.properties, required_of_get? h.required]

private theorem unique (h : Tells ms props names) (h' : Tells ms qs others) : props = qs ∧ names = others := by
  have heq := h.roster_eq.symm.trans h'.roster_eq
  exact ⟨Except.ok.inj (congrArg Roster.properties heq), Except.ok.inj (congrArg Roster.required heq)⟩

theorem described (h : Tells ms props names) (hqs : qs.AreOf fun _ => True) :
    Tells ((Revision.described qs).write ms) qs names where
  properties := .inr (by simp [Revision.write, withProperties])
  required := by rw [Revision.write, get?_withProperties (by simp)]; exact h.required
  members := hqs

theorem told (ms : Members) (hqs : qs.AreOf fun _ => True) (others : List Json) :
    Tells ((Revision.told qs others).write ms) qs others where
  properties := .inr (by rw [Revision.write, get?_withRequired _ (by simp)]; simp [withProperties])
  required := .inr (by simp [Revision.write, withRequired])
  members := hqs

theorem put_items (h : Tells ms props names) (part : Json) : Tells (ms.put "items" part) props names where
  properties := by rw [Members.get?_put, if_neg (by simp)]; exact h.properties
  required := by rw [Members.get?_put, if_neg (by simp)]; exact h.required
  members := h.members

end Tells

private theorem get?_write (r : Revision) {key : Scalar} (hprops : key ≠ "properties") (hrequired : key ≠ "required") :
    (r.write ms).get? key = ms.get? key := by
  cases r <;> simp [Revision.write, withProperties, withRequired, Members.get?_put, hprops, hrequired]

/-- Schemas that are objects, as are the descriptions of members and of elements in them, level by level. Nothing is
asked of what else they say. -/
inductive Layered : Json → Prop
  | mk {ms props : Members} {names : List Json} (tells : Tells ms props names) (parts : ∀ m ∈ props, Layered m.2)
    (items : ∀ part, ms.get? "items" = some part → Layered part) : Layered (.obj ms)

namespace Layered

variable {part : Json} {name : String}

theorem exists_tells (h : Layered (.obj ms)) : ∃ (props : Members) (names : List Json),
    Tells ms props names ∧ props.AreOf Layered := by
  cases h with
  | mk tells parts => exact ⟨_, _, tells, tells.members.distinct, tells.members.text, parts⟩

theorem of_items (h : Layered (.obj ms)) (hitems : ms.get? "items" = some part) : Layered part := by
  cases h with
  | mk _ _ items => exact items part hitems

/-- A schema stays layered when members are described anew by layered schemas. -/
theorem revised (h : Layered (.obj ms)) {r : Revision} (htells : Tells (r.write ms) props names)
    (hprops : props.AreOf Layered) : Layered (.obj (r.write ms)) :=
  .mk htells hprops.parts fun _ hitems => h.of_items (by rwa [get?_write r (by simp) (by simp)] at hitems)

theorem put_items (h : Layered (.obj ms)) (hpart : Layered part) : Layered (.obj (ms.put "items" part)) := by
  obtain ⟨props, names, htells, hprops⟩ := h.exists_tells
  refine .mk (htells.put_items part) hprops.parts fun inner hinner => ?_
  rw [Members.get?_put_self] at hinner
  exact Option.some.inj hinner ▸ hpart

/-- What says nothing about members is layered if its elements are. -/
private theorem of_silent (hprops : ms.get? "properties" = none) (hrequired : ms.get? "required" = none)
    (hitems : ∀ part, ms.get? "items" = some part → Layered part) : Layered (.obj ms) :=
  .mk ⟨.inl ⟨hprops, rfl⟩, .inl ⟨hrequired, rfl⟩, .nil⟩ (by simp) hitems

private theorem of_typeAndDefault {type default : Json} (h : typeAndDefault type default = .ok ms) :
    Layered (.obj ms) ∧ ms.get? "properties" = none ∧ ms.get? "required" = none := by
  obtain ⟨type, default, rfl⟩ := eq_of_typeAndDefault h
  exact ⟨of_silent rfl rfl (fun _ hitems => nomatch hitems), rfl, rfl⟩

/-- The description of a new member is layered. -/
theorem of_ofProperty {property : Property} (h : ofProperty property = .ok part) : Layered part := by
  obtain ⟨description, hdescription, h⟩ := Except.exists_of_bind h
  obtain ⟨hlayered, hprops, hrequired⟩ := of_typeAndDefault hdescription
  split at h
  · obtain ⟨type, -, h⟩ := Except.exists_of_bind h
    obtain ⟨default, -, h⟩ := Except.exists_of_bind h
    obtain ⟨items, hitems, h⟩ := Except.exists_of_bind h
    obtain rfl := Except.ok.inj h
    exact hlayered.put_items (of_typeAndDefault hitems).1
  · obtain rfl := Except.ok.inj h
    exact hlayered

end Layered

structure Beside (ms ns : Members) : Prop where
  items : Option.Rel Matches (ms.get? "items") (ns.get? "items")
  others : ∀ key : Scalar, key ≠ "properties" → key ≠ "required" → key ≠ "items" → ms.get? key = ns.get? key

structure Level (ms props : Members) (names : List Json) (ns qs : Members) (others : List Json) : Prop where
  left : Tells ms props names
  right : Tells ns qs others
  parts : ∀ name : String, Option.Rel Matches (props.get? name) (qs.get? name)
  needed : ∀ name, name ∈ names ↔ name ∈ others
  beside : Beside ms ns

private theorem rel_refl (found : Option Json) : Option.Rel Matches found found := by
  cases found with
  | none => exact .none
  | some schema => exact .some (.refl schema)

theorem exists_of_rel {found : Option Json} (h : Option.Rel Matches found (some schema)) :
    ∃ part, found = some part ∧ Matches part schema := by
  cases h with
  | some h => exact ⟨_, rfl, h⟩

theorem eq_none_of_rel {found : Option Json} (h : Option.Rel Matches found none) : found = none := by
  cases h
  rfl

/-- What one of them describes is described by the other one. -/
theorem Level.exists_part (h : Level ms props names ns qs others) (name : String) {part : Json}
    (hpart : qs.get? name = some part) : ∃ part', props.get? name = some part' ∧ Matches part' part :=
  exists_of_rel (hpart ▸ h.parts name)

theorem Level.get?_eq_none (h : Level ms props names ns qs others) {name : String} (hnone : qs.get? name = none) :
    props.get? name = none := eq_none_of_rel (hnone ▸ h.parts name)

/-- What matches a schema tells what it tells. -/
theorem Matches.exists_level (h : Matches schema (.obj ns)) (hns : Tells ns qs others) :
    ∃ ms props names, schema = .obj ms ∧ Level ms props names ns qs others := by
  cases h with
  | refl =>
    exact ⟨ns, qs, others, rfl, hns, hns, fun _ => rel_refl _, fun _ => .rfl, rel_refl _, fun _ _ _ _ => rfl⟩
  | @level ms _ props qs' names others' left right parts needed items beside =>
    obtain ⟨rfl, rfl⟩ := right.unique hns
    exact ⟨ms, props, names, rfl, left, right, parts, needed, items, beside⟩

/-- Where a revised schema was matched, one that matches what the schema was before says the same about members. -/
theorem Level.taken_back {r r' : Revision} {old back : Members} {onames bnames : List Json}
    (h : Level ms props names (r.write ns) qs others) (hold : Tells ns old onames)
    (hback : Tells (r'.write ms) back bnames)
    (parts : ∀ name : String, Option.Rel Matches (back.get? name) (old.get? name))
    (needed : ∀ name, name ∈ bnames ↔ name ∈ onames) : Matches (.obj (r'.write ms)) (.obj ns) := by
  refine .level hback hold parts needed ?_ fun key hprops hrequired hitems => ?_
  · have hitems := h.beside.items
    rwa [get?_write r (by simp) (by simp), ← get?_write r' (by simp) (by simp)] at hitems
  · rw [get?_write r' hprops hrequired, h.beside.others key hprops hrequired hitems, get?_write r hprops hrequired]

/-- Parts that match still do when one of them is put in the place of another on both sides. -/
theorem rel_update {f g : String → Option Json} (h : ∀ name, Option.Rel Matches (f name) (g name)) (name : String)
    {v w : Option Json} (hv : Option.Rel Matches v w) :
    ∀ other, Option.Rel Matches (update f name v other) (update g name w other) := fun other => by
  by_cases hother : other = name
  · subst hother
    rwa [Function.update_self, Function.update_self]
  · rw [Function.update_of_ne hother, Function.update_of_ne hother]
    exact h other

theorem rel_put (h : ∀ name : String, Option.Rel Matches (props.get? name) (qs.get? name)) (name : String)
    {v w : Json} (hv : Matches v w) (other : String) :
    Option.Rel Matches (Members.get? (props.put name v) other) (Members.get? (qs.put name w) other) := by
  have hupdate := rel_update h name (.some hv) other
  rwa [← Members.get?_put_eq_update, ← Members.get?_put_eq_update] at hupdate

theorem rel_without (h : ∀ name : String, Option.Rel Matches (props.get? name) (qs.get? name)) (name other : String) :
    Option.Rel Matches (Members.get? (props.without name) other) (Members.get? (qs.without name) other) := by
  have hupdate := rel_update h name .none other
  rwa [← Members.get?_without_eq_update, ← Members.get?_without_eq_update] at hupdate

end Schema

end EditLens
