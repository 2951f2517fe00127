import EditLens.Proofs.Schema.Blank

/-! Schemas that describe sample values. Main statements: the members of such a schema at the root are
those of the samples, and if all samples have the members that are described, this is so at every
place in a sample. -/
namespace EditLens

open EditLens.Tree

namespace Json

def member? (name : String) : Json → Option Json
  | .obj ms => Members.get? ms name
  | _ => none

def elements : Json → List Json
  | .arr es => es
  | _ => []

def isArray : Json → Bool
  | .arr _ => true
  | _ => false

@[simp] theorem member?_obj (name : String) (ms : Members) :
    (Json.obj ms).member? name = ms.get? name := rfl

@[simp] theorem elements_arr (es : List Json) : (Json.arr es).elements = es := rfl

theorem exists_arr_of_isArray {v : Json} (h : v.isArray = true) : ∃ es, v = .arr es := by
  cases v <;> first | exact ⟨_, rfl⟩ | cases h

end Json

namespace Tree

def member? (name : String) : Tree → Option Tree
  | .obj f => f name
  | _ => none

def elements : Tree → List Tree
  | .arr es => es
  | _ => []

end Tree

namespace Json

variable {v v' : Json}

private theorem map_tree_member? (name : String) (v : Json) : (v.member? name).map tree = v.tree.member? name := by
  cases v with
  | obj ms => rw [tree_obj]; rfl
  | arr es => rw [tree_arr]; rfl
  | scalar s => rfl

private theorem map_tree_elements (v : Json) : v.elements.map tree = v.tree.elements := by
  cases v with
  | obj ms => rw [tree_obj]; rfl
  | arr es => rw [tree_arr]; rfl
  | scalar s => rfl

private theorem isObject_congr (h : v.tree = v'.tree) : v.isObject = v'.isObject := by
  cases v <;> cases v' <;> simp_all [isObject]

private theorem isArray_congr (h : v.tree = v'.tree) : v.isArray = v'.isArray := by
  cases v <;> cases v' <;> simp_all [isArray]

end Json

namespace Schema

variable {schema part : Json} {ms props : Members} {vs : List Json} {full : Bool}

/-- Whether every object in a document has all the members that are described at its place. -/
def Frames (schema : Json) (t : Tree) : Prop :=
  ∀ path f part props, t.at? path = some (.obj f) → locate schema path = .ok part →
    memberSchemas part = .ok props → ∀ name : String, props.has name = true → ∃ u, f name = some u

namespace Frames

theorem scalar (schema : Json) (s : Scalar) : Frames schema (.scalar s) := by
  intro path f part props hat
  cases path <;> cases hat

/-- An object fits if it has all members that are described, and each of its members fits. -/
theorem obj {f : String → Option Tree} (hroot : ∀ part props, container schema = .ok part →
      memberSchemas part = .ok props → ∀ name : String, props.has name = true → ∃ u, f name = some u)
    (hparts : ∀ token u, f token = some u → ∀ whole part, container schema = .ok whole →
      step whole token = .ok part → Frames part u) : Frames schema (.obj f) := by
  intro path g part props hat hlocate
  cases path with
  | nil =>
    obtain rfl := Tree.obj.inj (Option.some.inj hat)
    exact hroot part props hlocate
  | cons token rest =>
    obtain ⟨u, hu, hat⟩ := Option.bind_eq_some_iff.1 hat
    rw [locate] at hlocate
    cases hwhole : container schema with
    | error fault => rw [hwhole] at hlocate; cases hlocate
    | ok whole =>
    rw [hwhole, Except.bind_ok] at hlocate
    cases hstep : step whole token with
    | error fault => rw [hstep] at hlocate; cases hlocate
    | ok next =>
    rw [hstep] at hlocate
    exact hparts token u hu whole next hwhole hstep rest g part props hat hlocate

/-- An array fits if each of its elements does. -/
theorem arr {es : List Tree} (hparts : ∀ (i : Nat) (u : Tree), es[i]? = some u → ∀ whole part,
      container schema = .ok whole → step whole i.repr = .ok part → Frames part u) :
    Frames schema (.arr es) := by
  intro path g part props hat hlocate
  cases path with
  | nil => cases hat
  | cons token rest =>
    obtain ⟨i, hi, hbelow⟩ := Option.bind_eq_some_iff.1 hat
    obtain rfl := Pointer.eq_repr_of_position? hi
    obtain ⟨u, hu, hfound⟩ := Option.bind_eq_some_iff.1 hbelow
    rw [locate] at hlocate
    cases hwhole : container schema with
    | error fault => rw [hwhole] at hlocate; cases hlocate
    | ok whole =>
    rw [hwhole, Except.bind_ok] at hlocate
    cases hstep : step whole i.repr with
    | error fault => rw [hstep] at hlocate; cases hlocate
    | ok next =>
    rw [hstep] at hlocate
    exact hparts i u hu whole next hwhole hstep rest g part props hfound hlocate

end Frames

structure OfType (ms : Members) (type : String) : Prop where
  type : ms.get? "type" = some (.str type)
  default : ms.get? "default" = none
  anyOf : ms.get? "anyOf" = none

namespace OfType

variable {type keyword : String}

theorem congr (h : OfType ms type) {ns : Members}
    (heq : ∀ keyword ∈ ["type", "default", "anyOf"], ns.get? keyword = ms.get? keyword) : OfType ns type where
  type := by rw [heq "type" (by simp), h.type]
  default := by rw [heq "default" (by simp), h.default]
  anyOf := by rw [heq "anyOf" (by simp), h.anyOf]

/-- Other keywords may say anything. -/
theorem put (h : OfType ms type) (hkeyword : keyword ∉ ["type", "default", "anyOf"]) (v : Json) :
    OfType (ms.put keyword v) type :=
  h.congr fun other hother => by
    have hne : keyword ≠ other := by
      rintro rfl
      exact hkeyword hother
    rw [Members.get?_put, if_neg (by simpa using hne)]

end OfType

/-- Schemas that describe all of some values that stand at one place. Objects have no members but
those that are described, or just these if so required; about values of several kinds no more is said
than where members may stand. -/
inductive Describes (full : Bool) : Json → List Json → Prop
  | objects {ms props : Members} {vs : List Json} (shaped : WellShaped (.obj ms))
    (nonempty : vs ≠ []) (all : ∀ v ∈ vs, v.isObject = true) (type : OfType ms "object")
    (items : ms.get? "items" = none) (members : memberSchemas (.obj ms) = .ok props)
    (known : ∀ (name : String) (part : Json), ∀ v ∈ vs, v.member? name = some part →
      props.has name = true)
    (filled : full = true → ∀ name : String, props.has name = true → ∀ v ∈ vs,
      ∃ part, v.member? name = some part)
    (parts : ∀ name : String, ∀ part, props.get? name = some part →
      Describes full part (vs.filterMap (Json.member? name))) : Describes full (.obj ms) vs
  | arrays {ms : Members} {vs : List Json} (shaped : WellShaped (.obj ms)) (nonempty : vs ≠ [])
    (all : ∀ v ∈ vs, v.isArray = true) (type : OfType ms "array")
    (known : ms.get? "items" = none → vs.flatMap Json.elements = [])
    (parts : ∀ part, ms.get? "items" = some part → Describes full part (vs.flatMap Json.elements)) :
    Describes full (.obj ms) vs
  | others {ms : Members} {vs : List Json} (shaped : WellShaped (.obj ms)) (nonempty : vs ≠ [])
    (objects : ∃ v ∈ vs, v.isObject = false) (arrays : ∃ v ∈ vs, v.isArray = false)
    (default : ms.get? "default" = none) (enum : ms.get? "enum" = none)
    (frames : full = true → ∀ v ∈ vs, Frames (.obj ms) v.tree) : Describes full (.obj ms) vs

inductive DescribesMember (full : Bool) : Option Json → List (Option Json) → Prop
  | absent {os : List (Option Json)} (h : ∀ o ∈ os, o = none) : DescribesMember full none os
  | present {part : Json} {os : List (Option Json)} (h : Describes full part (os.filterMap id))
    (all : full = true → ∀ o ∈ os, o.isSome = true) : DescribesMember full (some part) os

theorem Describes.nonempty (h : Describes full schema vs) : vs ≠ [] := by
  cases h <;> assumption

theorem Describes.shaped (h : Describes full schema vs) : WellShaped schema := by
  cases h <;> assumption

namespace DescribesMember

variable {o : Option Json} {os : List (Option Json)}

theorem exists_part (h : DescribesMember full o os) {v : Json} (hv : some v ∈ os) :
    ∃ part, o = some part ∧ Describes full part (os.filterMap id) := by
  cases h with
  | absent habsent => cases habsent _ hv
  | present hpart => exact ⟨_, rfl, hpart⟩

/-- What no object has is not described. -/
theorem eq_none (h : DescribesMember full o os) (hos : ∀ o ∈ os, o = none) : o = none := by
  cases h with
  | absent => rfl
  | present hpart =>
    obtain ⟨v, hv⟩ := List.exists_mem_of_ne_nil _ hpart.nonempty
    obtain ⟨x, hx, hv⟩ := List.mem_filterMap.1 hv
    rw [hos x hx] at hv
    cases hv

theorem of_describes {name : String} (h : Describes full part (vs.filterMap (Json.member? name)))
    (hall : ∀ v ∈ vs, ∃ w, v.member? name = some w) :
    DescribesMember full (some part) (vs.map (Json.member? name)) := by
  refine .present (by simpa [List.filterMap_map] using h) fun _ o ho => ?_
  obtain ⟨v, hv, rfl⟩ := List.mem_map.1 ho
  obtain ⟨w, hw⟩ := hall v hv
  rw [hw, Option.isSome_some]

theorem of_eq_none {name : String} (hall : ∀ v ∈ vs, v.member? name = none) :
    DescribesMember full none (vs.map (Json.member? name)) := by
  refine .absent fun o ho => ?_
  obtain ⟨v, hv, rfl⟩ := List.mem_map.1 ho
  exact hall v hv

end DescribesMember

/-- A schema without alternatives stands for itself. -/
theorem container_of_get? (hany : ms.get? "anyOf" = none) (hone : ms.get? "oneOf" = none) :
    container (.obj ms) = .ok (.obj ms) := by
  rw [container, WellShaped.options_of_get? hone (.inl ⟨hany, rfl⟩)]
  rfl

theorem WellShaped.container_self (h : WellShaped (.obj ms)) (hany : ms.get? "anyOf" = none) :
    container (.obj ms) = .ok (.obj ms) := by
  cases h with
  | mk os props type default required hone => exact container_of_get? hany hone

/-- A step from an object leads to the schema of the member. -/
theorem step_member {name : String} (hitems : ms.get? "items" = none)
    (hprops : memberSchemas (.obj ms) = .ok props) (hpart : props.get? name = some part)
    (hshaped : WellShaped part) : step (.obj ms) name = .ok part := by
  simp only [step, WellShaped.lookup_obj, Except.bind_ok, hprops,
    WellShaped.valueOf_of_get?_eq_none hitems, WellShaped.valueOf_of_get? hpart, hshaped.isObject]
  simp [Json.isObject, pure, Except.pure]

/-- A step from an array leads to the schema of the elements. -/
theorem step_element (i : Nat) (hshaped : WellShaped part) (hitems : ms.get? "items" = some part) :
    step (.obj ms) i.repr = .ok part := by
  simp [step, WellShaped.valueOf_of_get? hitems, hshaped.isObject, pure, Except.pure]

namespace Describes

/-- Objects are described member by member. -/
theorem of_members (shaped : WellShaped (.obj ms)) (nonempty : vs ≠ [])
    (all : ∀ v ∈ vs, v.isObject = true) (type : OfType ms "object")
    (items : ms.get? "items" = none) (members : memberSchemas (.obj ms) = .ok props)
    (described : ∀ name : String,
      DescribesMember full (props.get? name) (vs.map (Json.member? name))) :
    Describes full (.obj ms) vs := by
  refine .objects shaped nonempty all type items members ?_ ?_ ?_
  · intro name part v hv hpart
    have hname := described name
    generalize ho : props.get? name = o at hname
    cases hname with
    | absent habsent =>
      have := habsent _ (List.mem_map_of_mem hv)
      rw [hpart] at this
      cases this
    | present => exact Members.has_iff.2 ⟨_, ho⟩
  · intro hfull name hname v hv
    obtain ⟨part, hpart⟩ := Members.has_iff.1 hname
    have hname := described name
    rw [hpart] at hname
    cases hname with
    | present _ hall => exact Option.isSome_iff_exists.1 (hall hfull _ (List.mem_map_of_mem hv))
  · intro name part hpart
    have hname := described name
    rw [hpart] at hname
    cases hname with
    | present hpart => simpa [List.filterMap_map] using hpart

/-- What is known about the schema of objects. -/
theorem exists_members (h : Describes full schema vs) (hvs : ∀ v ∈ vs, v.isObject = true) :
    ∃ ms props : Members, schema = .obj ms ∧ OfType ms "object" ∧ ms.get? "items" = none ∧
      memberSchemas (.obj ms) = .ok props ∧
      ∀ name : String, DescribesMember full (props.get? name) (vs.map (Json.member? name)) := by
  cases h with
  | @objects ms props vs shaped nonempty all type items members known filled parts =>
    refine ⟨ms, props, rfl, type, items, members, fun name => ?_⟩
    cases hpart : props.get? name with
    | none =>
      refine .absent fun o ho => ?_
      obtain ⟨v, hv, rfl⟩ := List.mem_map.1 ho
      rw [Option.eq_none_iff_forall_not_mem]
      intro part hp
      obtain ⟨w, hw⟩ := Members.has_iff.1 (known name part v hv hp)
      rw [hpart] at hw
      cases hw
    | some part =>
      refine .present (by simpa [List.filterMap_map] using parts name part hpart) fun hfull o ho => ?_
      obtain ⟨v, hv, rfl⟩ := List.mem_map.1 ho
      exact Option.isSome_iff_exists.2 (filled hfull name (Members.has_iff.2 ⟨part, hpart⟩) v hv)
  | arrays shaped nonempty all =>
    obtain ⟨v, hv⟩ := List.exists_mem_of_ne_nil _ nonempty
    obtain ⟨es, rfl⟩ := Json.exists_arr_of_isArray (all v hv)
    cases hvs _ hv
  | others shaped nonempty objects =>
    obtain ⟨v, hv, hobject⟩ := objects
    rw [hvs v hv] at hobject
    cases hobject

/-- What is known about the schema of arrays. -/
theorem exists_elements (h : Describes full schema vs) (hvs : ∀ v ∈ vs, v.isArray = true) :
    ∃ ms : Members, schema = .obj ms ∧ OfType ms "array" ∧
      (ms.get? "items" = none → vs.flatMap Json.elements = []) ∧
      ∀ part, ms.get? "items" = some part → Describes full part (vs.flatMap Json.elements) := by
  cases h with
  | arrays shaped nonempty all type known parts => exact ⟨_, rfl, type, known, parts⟩
  | objects shaped nonempty all =>
    obtain ⟨v, hv⟩ := List.exists_mem_of_ne_nil _ nonempty
    obtain ⟨es, rfl⟩ := Json.exists_arr_of_isArray (hvs v hv)
    cases all _ hv
  | others shaped nonempty objects arrays =>
    obtain ⟨v, hv, harray⟩ := arrays
    rw [hvs v hv] at harray
    cases harray

/-- What is known about the schema of scalars. -/
theorem exists_scalars (h : Describes full schema vs) (hvs : ∀ v ∈ vs, ∃ s, v = .scalar s) :
    ∃ ms : Members, schema = .obj ms ∧ ms.get? "default" = none ∧ ms.get? "enum" = none := by
  obtain ⟨v, hv⟩ := List.exists_mem_of_ne_nil _ h.nonempty
  obtain ⟨s, rfl⟩ := hvs v hv
  cases h with
  | others shaped nonempty objects arrays default enum => exact ⟨_, rfl, default, enum⟩
  | objects shaped nonempty all => cases all _ hv
  | arrays shaped nonempty all => cases all _ hv

theorem of_scalars (shaped : WellShaped (.obj ms)) (nonempty : vs ≠ [])
    (default : ms.get? "default" = none) (enum : ms.get? "enum" = none)
    (hvs : ∀ v ∈ vs, ∃ s, v = .scalar s) : Describes full (.obj ms) vs := by
  obtain ⟨v, hv⟩ := List.exists_mem_of_ne_nil _ nonempty
  obtain ⟨s, rfl⟩ := hvs v hv
  refine .others shaped nonempty ⟨_, hv, rfl⟩ ⟨_, hv, rfl⟩ default enum fun _ w hw => ?_
  obtain ⟨t, rfl⟩ := hvs w hw
  exact .scalar _ t

private theorem exists_alike {vs' : List Json} (hvs : vs'.map Json.tree = vs.map Json.tree) {v' : Json}
    (hv' : v' ∈ vs') : ∃ v ∈ vs, v.tree = v'.tree := by
  have hmem : v'.tree ∈ vs'.map Json.tree := List.mem_map_of_mem hv'
  rw [hvs] at hmem
  exact List.mem_map.1 hmem

private theorem ne_nil_alike {vs' : List Json} (hvs : vs'.map Json.tree = vs.map Json.tree) (hne : vs ≠ []) :
    vs' ≠ [] := by
  rintro rfl
  exact hne (List.map_eq_nil_iff.1 hvs.symm)

/-- The order of members does not matter to a description. -/
theorem congr (h : Describes full schema vs) {vs' : List Json} (hvs : vs'.map Json.tree = vs.map Json.tree) :
    Describes full schema vs' := by
  induction h generalizing vs' with
  | @objects ms props vs shaped nonempty all type items members known filled parts ih =>
    have hmember : ∀ {v v' : Json} (name : String), v.tree = v'.tree →
        ((v.member? name).isSome = (v'.member? name).isSome) := fun name h => by
      rw [← Option.isSome_map, Json.map_tree_member?, h, ← Json.map_tree_member?, Option.isSome_map]
    refine .objects shaped (ne_nil_alike hvs nonempty) (fun v' hv' => ?_) type items members ?_ ?_
      fun name part hpart => ?_
    · obtain ⟨v, hv, htree⟩ := exists_alike hvs hv'
      rw [← Json.isObject_congr htree]
      exact all v hv
    · intro name part v' hv' hpart
      obtain ⟨v, hv, htree⟩ := exists_alike hvs hv'
      have hsome := hmember name htree
      rw [hpart] at hsome
      obtain ⟨part', hpart'⟩ := Option.isSome_iff_exists.1 hsome
      exact known name part' v hv hpart'
    · intro hfull name hname v' hv'
      obtain ⟨v, hv, htree⟩ := exists_alike hvs hv'
      obtain ⟨part, hpart⟩ := filled hfull name hname v hv
      exact Option.isSome_iff_exists.1 (by rw [← hmember name htree, hpart]; rfl)
    · refine ih name part hpart ?_
      have hparts : ∀ us : List Json, (us.filterMap (Json.member? name)).map Json.tree =
          (us.map Json.tree).filterMap (Tree.member? name) := fun us => by
        rw [List.map_filterMap, List.filterMap_map]
        exact congrArg (List.filterMap · us) (funext (Json.map_tree_member? name))
      rw [hparts, hparts, hvs]
  | @arrays ms vs shaped nonempty all type known parts ih =>
    have helements : ∀ us : List Json, (us.flatMap Json.elements).map Json.tree =
        (us.map Json.tree).flatMap Tree.elements := fun us => by
      rw [List.map_flatMap, List.flatMap_map]
      exact congrArg (List.flatMap · us) (funext Json.map_tree_elements)
    have heq : (vs'.flatMap Json.elements).map Json.tree = (vs.flatMap Json.elements).map Json.tree := by
      rw [helements, helements, hvs]
    refine .arrays shaped (ne_nil_alike hvs nonempty) (fun v' hv' => ?_) type (fun hitems => ?_)
      fun part hitems => ih part hitems heq
    · obtain ⟨v, hv, htree⟩ := exists_alike hvs hv'
      rw [← Json.isArray_congr htree]
      exact all v hv
    · rw [known hitems] at heq
      exact List.map_eq_nil_iff.1 heq
  | @others ms vs shaped nonempty objects arrays default enum frames =>
    refine .others shaped (ne_nil_alike hvs nonempty) ?_ ?_ default enum fun hfull v' hv' => ?_
    · obtain ⟨v, hv, hobject⟩ := objects
      obtain ⟨v', hv', htree⟩ := exists_alike hvs.symm hv
      exact ⟨v', hv', by rw [Json.isObject_congr htree, hobject]⟩
    · obtain ⟨v, hv, harray⟩ := arrays
      obtain ⟨v', hv', htree⟩ := exists_alike hvs.symm hv
      exact ⟨v', hv', by rw [Json.isArray_congr htree, harray]⟩
    · obtain ⟨v, hv, htree⟩ := exists_alike hvs hv'
      rw [← htree]
      exact frames hfull v hv

/-- If all samples have the members that are described, this is so all the way down. -/
theorem frames (h : Describes true schema vs) {v : Json} (hv : v ∈ vs) : Frames schema v.tree := by
  induction h generalizing v with
  | objects shaped nonempty all type items members known filled parts ih =>
    obtain ⟨ns, rfl⟩ := Json.exists_obj_of_isObject (all v hv)
    have hself := shaped.container_self type.anyOf
    rw [Json.tree_obj]
    refine .obj ?_ ?_
    · intro part props' hpart hprops name hname
      obtain rfl := Except.ok.inj (hself.symm.trans hpart)
      obtain rfl := Except.ok.inj (members.symm.trans hprops)
      obtain ⟨w, hw⟩ := filled rfl name hname _ hv
      rw [Json.member?_obj] at hw
      exact ⟨w.tree, by rw [Members.trees, hw, Option.map_some]⟩
    · intro token u hu whole part hwhole hstep
      obtain rfl := Except.ok.inj (hself.symm.trans hwhole)
      obtain ⟨w, hw, rfl⟩ := Option.map_eq_some_iff.1 hu
      obtain ⟨found, hfound⟩ := Members.has_iff.1 (known token w _ hv hw)
      obtain rfl := Except.ok.inj
        ((step_member items members hfound (parts token found hfound).shaped).symm.trans hstep)
      exact ih token found hfound (List.mem_filterMap.2 ⟨_, hv, hw⟩)
  | @arrays ms vs shaped nonempty all type known parts ih =>
    obtain ⟨es, rfl⟩ := Json.exists_arr_of_isArray (all v hv)
    have hself := shaped.container_self type.anyOf
    rw [Json.tree_arr]
    refine .arr fun i u hu whole part hwhole hstep => ?_
    obtain rfl := Except.ok.inj (hself.symm.trans hwhole)
    rw [List.getElem?_map] at hu
    obtain ⟨e, he, rfl⟩ := Option.map_eq_some_iff.1 hu
    have hmem : e ∈ vs.flatMap Json.elements :=
      List.mem_flatMap.2 ⟨_, hv, List.mem_of_getElem? he⟩
    cases hitems : ms.get? "items" with
    | none => rw [known hitems] at hmem; cases hmem
    | some found =>
      obtain rfl := Except.ok.inj
        ((step_element i (parts found hitems).shaped hitems).symm.trans hstep)
      exact ih found hitems hmem
  | others shaped nonempty objects arrays default enum frames => exact frames rfl v hv

end Describes

end Schema

end EditLens
