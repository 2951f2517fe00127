import EditLens.Proofs.Schema.Describes
import EditLens.Schema.Infer

/-! What samples leave in the schema that is inferred from them. Main statement: the schema describes
the samples, and says of objects no more than they all have if all objects at one place have the same
members. -/
namespace EditLens

namespace Json

def entries : Json → Members
  | .obj ms => ms
  | _ => []

/-- The values at one place of some documents, where a step that names no member leads to all the
elements of arrays. -/
def places : List Json → List (Option String) → List Json
  | vs, [] => vs
  | vs, some name :: rest => places (vs.filterMap (member? name)) rest
  | vs, none :: rest => places (vs.flatMap elements) rest

/-- Values whose objects have the same members, none of which can be taken for an element where there
are arrays as well. -/
structure OneShape (vs : List Json) : Prop where
  names : ∀ {ms ns : Members}, .obj ms ∈ vs → .obj ns ∈ vs → ∀ name : String,
    ms.has name = true → ns.has name = true
  indices : ∀ {es : List Json} {ms : Members}, .arr es ∈ vs → .obj ms ∈ vs → ∀ name : String,
    ms.has name = true → Pointer.isIndex name = false

/-- Documents in which objects at one place have the same members. -/
def Uniform (vs : List Json) : Prop := ∀ place, OneShape (places vs place)

variable {vs : List Json}

private theorem Uniform.members (h : Uniform vs) (name : String) : Uniform (vs.filterMap (member? name)) :=
  fun place => h (some name :: place)

private theorem Uniform.elements (h : Uniform vs) : Uniform (vs.flatMap elements) :=
  fun place => h (none :: place)

theorem Uniform.nil : Uniform [] := by
  intro place
  have hplaces : places [] place = [] := by
    induction place with
    | nil => rfl
    | cons token rest ih => cases token <;> exact ih
  rw [hplaces]
  exact ⟨by simp, by simp⟩

/-- What stands at a place is compared before what stands below it. -/
theorem Uniform.of_parts (h : OneShape vs) (hmembers : ∀ name, Uniform (vs.filterMap (member? name)))
    (helements : Uniform (vs.flatMap Json.elements)) : Uniform vs := by
  intro place
  match place with
  | [] => exact h
  | some name :: rest => exact hmembers name rest
  | none :: rest => exact helements rest

private theorem elementsWeight_append (es fs : List Json) :
    elementsWeight (es ++ fs) = elementsWeight es + elementsWeight fs := by
  induction es with
  | nil => simp [elementsWeight]
  | cons e rest ih =>
    rw [List.cons_append, elementsWeight, elementsWeight, ih]
    omega

private theorem weight_member_lt {v part : Json} {name : String} (h : v.member? name = some part) :
    part.weight < v.weight := by
  cases v with
  | obj ms =>
    have := weight_le_of_get? h
    rw [weight]
    omega
  | scalar s => cases h
  | arr es => cases h

private theorem weight_members_lt (hvs : vs ≠ []) (name : String) :
    elementsWeight (vs.filterMap (member? name)) < elementsWeight vs := by
  induction vs with
  | nil => exact absurd rfl hvs
  | cons v rest ih =>
    have hrest : elementsWeight (rest.filterMap (member? name)) ≤ elementsWeight rest := by
      by_cases h : rest = []
      · simp [h]
      · exact (ih h).le
    rw [elementsWeight]
    cases hv : v.member? name with
    | none =>
      rw [List.filterMap_cons_none hv]
      have := v.weight_pos
      omega
    | some part =>
      rw [List.filterMap_cons_some hv, elementsWeight]
      have := weight_member_lt hv
      omega

private theorem weight_elements_lt (hvs : vs ≠ []) :
    elementsWeight (vs.flatMap elements) < elementsWeight vs := by
  induction vs with
  | nil => exact absurd rfl hvs
  | cons v rest ih =>
    have hrest : elementsWeight (rest.flatMap elements) ≤ elementsWeight rest := by
      by_cases h : rest = []
      · simp [h]
      · exact (ih h).le
    have hfirst : elementsWeight v.elements < v.weight := by
      cases v with
      | arr es => exact Nat.lt_succ_self _
      | scalar s => exact weight_pos _
      | obj ms => exact weight_pos _
    rw [List.flatMap_cons, elementsWeight_append, elementsWeight]
    omega

end Json

namespace SampleType

def ofJson : Json → SampleType
  | .scalar s => .ofScalar s
  | .arr _ => .array
  | .obj _ => .object

/-- Samples of one type show that type alone. -/
private theorem foldl_insert {types : List SampleType} {type : SampleType} (htype : insert [] type = [type])
    (hagain : insert [type] type = [type]) (hne : types ≠ []) (hall : ∀ t ∈ types, t = type) :
    types.foldl insert [] = [type] := by
  have hrest : ∀ types : List SampleType, (∀ t ∈ types, t = type) →
      types.foldl insert [type] = [type] := by
    intro types
    induction types with
    | nil => exact fun _ => rfl
    | cons t rest ih =>
      intro hall
      rw [List.forall_mem_cons] at hall
      rw [List.foldl_cons, hall.1, hagain, ih hall.2]
  cases types with
  | nil => exact absurd rfl hne
  | cons t rest =>
    rw [List.forall_mem_cons] at hall
    rw [List.foldl_cons, hall.1, htype, hrest rest hall.2]

end SampleType

namespace Schema

structure Partless (schema : Json) : Prop where
  members : memberSchemas schema = .ok []
  items : schema.lookup "items" = .ok .null

private theorem Partless.step_eq {schema : Json} (h : Partless schema) (token : String) :
    step schema token = .ok .emptyObject := by
  simp [step, h.items, h.members, Json.isObject, Members.valueOf, pure, Except.pure]

/-- Where nothing is known, nothing can be missing. -/
private theorem Frames.empty (t : Tree) : Frames .emptyObject t := by
  have hlocate : ∀ path, locate .emptyObject path = .ok .emptyObject := by
    intro path
    induction path with
    | nil => rfl
    | cons token rest ih =>
      have hstep : step .emptyObject token = .ok .emptyObject := Partless.step_eq ⟨rfl, rfl⟩ token
      rw [locate, show container .emptyObject = .ok .emptyObject from rfl, Except.bind_ok, hstep]
      exact ih
  intro path f part props _ hpart hprops name hname
  obtain rfl := Except.ok.inj ((hlocate path).symm.trans hpart)
  obtain rfl := Except.ok.inj (hprops : Except.ok [] = .ok props)
  cases hname

end Schema

namespace Shape

section Observing

variable {members : List (Scalar × Shape)} {key other : Scalar} {shape : Shape}

private theorem observeElements_eq (elements : Option Shape) (es : List Json) :
    observeElements elements es =
      if es = [] then elements else some (es.foldl observe (elements.getD unseen)) := by
  induction es generalizing elements with
  | nil => rfl
  | cons e rest ih =>
    rw [observeElements, ih]
    cases rest <;> rfl

private theorem observeElements_append (elements : Option Shape) (es fs : List Json) :
    observeElements elements (es ++ fs) = observeElements (observeElements elements es) fs := by
  induction es generalizing elements with
  | nil => rfl
  | cons e rest ih => rw [List.cons_append, observeElements, observeElements, ih]

private theorem observeMembers_append (ms ns : Members) :
    observeMembers members (ms ++ ns) = observeMembers (observeMembers members ms) ns := by
  induction ms generalizing members with
  | nil => rfl
  | cons m rest ih =>
    obtain ⟨k, v⟩ := m
    rw [List.cons_append, observeMembers, observeMembers, ih]

/-- Samples one after another: their types, their elements and their members are seen in order. -/
theorem foldl_observe (vs : List Json) (types : List SampleType) (elements : Option Shape)
    (members : List (Scalar × Shape)) (always : Option (List Scalar)) :
    ∃ always', vs.foldl observe (.mk types elements members always) =
      .mk ((vs.map SampleType.ofJson).foldl SampleType.insert types)
        (observeElements elements (vs.flatMap Json.elements))
        (observeMembers members (vs.flatMap Json.entries)) always' := by
  induction vs generalizing types elements members always with
  | nil => exact ⟨always, rfl⟩
  | cons v rest ih =>
    rw [List.foldl_cons, List.flatMap_cons, List.flatMap_cons, observeElements_append,
      observeMembers_append]
    cases v with
    | scalar s => exact ih _ _ _ _
    | arr es => exact ih _ _ _ _
    | obj ms => exact ih _ _ _ _

private theorem member?_cons (k : Scalar) (s : Shape) (rest : List (Scalar × Shape)) (key : Scalar) :
    member? ((k, s) :: rest) key = if k.same key then some s else member? rest key := rfl

private theorem member?_congr (h : key.same other = true) : member? members key = member? members other := by
  induction members with
  | nil => rfl
  | cons m rest ih =>
    obtain ⟨k, s⟩ := m
    have hk : k.same key = k.same other := by
      simp only [Scalar.same, Scalar.same_iff.1 h]
    rw [member?_cons, member?_cons, ih, hk]

theorem member?_putMember : member? (putMember members key shape) other =
    if key.same other then some shape else member? members other := by
  induction members with
  | nil => simp [putMember, member?_cons]
  | cons m rest ih =>
    obtain ⟨k, s⟩ := m
    by_cases hk : k.same key = true
    · have hko : k.same other = key.same other := by
        simp only [Scalar.same, Scalar.same_iff.1 hk]
      simp only [putMember, hk, if_true, member?_cons, hko]
      split <;> rfl
    · simp only [putMember, hk, Bool.false_eq_true, if_false, member?_cons, ih]
      by_cases hko : k.same other = true
      · have hne : key.same other = false := by
          rw [Bool.eq_false_iff]
          intro h
          exact hk (Scalar.same_trans hko (by rwa [Scalar.same_comm]))
        simp [hko, hne]
      · simp [hko]

/-- The samples of one member, among the entries of objects. -/
private theorem member?_observeMembers (ms : Members) (key : Scalar) :
    member? (observeMembers members ms) key =
      observeElements (member? members key)
        ((ms.filter fun m => m.1.same key).map Prod.snd) := by
  induction ms generalizing members with
  | nil => rfl
  | cons m rest ih =>
    obtain ⟨k, v⟩ := m
    rw [observeMembers, ih, member?_putMember]
    by_cases hk : k.same key = true
    · rw [List.filter_cons_of_pos (by exact hk), List.map_cons, observeElements, if_pos hk,
        member?_congr hk]
    · rw [List.filter_cons_of_neg (by exact hk), if_neg hk]

end Observing

section Describing

variable {members : List (Scalar × Shape)} {ms : Members}

@[simp] theorem memberSchemas_cons (k : Scalar) (s : Shape) (rest : List (Scalar × Shape)) :
    memberSchemas ((k, s) :: rest) = (k, .obj s.toMembers) :: memberSchemas rest := by
  rw [memberSchemas]

theorem get?_memberSchemas (key : Scalar) : (memberSchemas members).get? key =
    (member? members key).map fun s => .obj s.toMembers := by
  induction members with
  | nil => rw [memberSchemas]; rfl
  | cons m rest ih =>
    obtain ⟨k, s⟩ := m
    rw [memberSchemas_cons, Members.get?_cons, member?_cons, ih]
    split <;> rfl

theorem memberSchemas_putMember (key : Scalar) (s : Shape) :
    memberSchemas (putMember members key s) = (memberSchemas members).put key (.obj s.toMembers) := by
  induction members with
  | nil => simp [putMember, memberSchemas, Members.put]
  | cons m rest ih =>
    obtain ⟨k, t⟩ := m
    by_cases hk : k.same key = true
    · simp [putMember, Members.put, hk]
    · simp [putMember, Members.put, hk, ih]

/-- Each member is described once, by its name. -/
private theorem named_observeMembers (h : (memberSchemas members).AreOf fun _ => True)
    (hms : ∀ m ∈ ms, ∃ name : String, m.1 = .str name) :
    (memberSchemas (observeMembers members ms)).AreOf fun _ => True := by
  induction ms generalizing members with
  | nil => exact h
  | cons m rest ih =>
    obtain ⟨k, v⟩ := m
    obtain ⟨⟨name, rfl⟩, hrest⟩ := List.forall_mem_cons.1 hms
    rw [observeMembers]
    refine ih ?_ hrest
    rw [memberSchemas_putMember]
    exact h.put name trivial

def ofTypes (types : Json) : Members := [("type", types)]

def ofOptions (options : List Members) : Members := [("anyOf", .arr (options.map .obj))]

def ofArrays (elements : Option Shape) : Members :=
  ("type", .str "array") ::
    match elements with
    | some shape => [("items", .obj shape.toMembers)]
    | none => []

def ofObjects (members : List (Scalar × Shape)) (always : Option (List Scalar)) : Members :=
  ("type", .str "object") ::
    ((match members with
      | [] => []
      | first :: rest => [("properties", .obj (memberSchemas (first :: rest)))]) ++
      requiredEntry (always.getD []))

/-- The schema of a shape is a union of a list of types and of what is known beyond a type. -/
theorem toMembers_eq (types : List SampleType) (elements : Option Shape)
    (members : List (Scalar × Shape)) (always : Option (List Scalar)) :
    ∃ plain others, toMembers (.mk types elements members always) = union plain others ∧
      (∀ o ∈ others, o = ofArrays elements ∨ o = ofObjects members always) := by
  unfold toMembers
  refine ⟨_, _, rfl, fun o ho => ?_⟩
  obtain ⟨type, htype, rfl⟩ := List.mem_map.1 ho
  cases type with
  | array => exact .inl (by cases elements <;> rfl)
  | object => exact .inr (by cases members <;> rfl)
  | _ => simp at htype

theorem toMembers_array (elements : Option Shape) (members : List (Scalar × Shape))
    (always : Option (List Scalar)) :
    toMembers (.mk [.array] elements members always) = ofArrays elements := by
  unfold toMembers
  cases elements <;> rfl

theorem toMembers_object (elements : Option Shape) (members : List (Scalar × Shape))
    (always : Option (List Scalar)) :
    toMembers (.mk [.object] elements members always) = ofObjects members always := by
  have hentry : ∀ names, requiredEntry names = [] ∨
      ∃ entry, requiredEntry names = [entry] := by
    intro names
    rw [requiredEntry]
    split
    · exact .inl rfl
    · exact .inr ⟨_, rfl⟩
  unfold toMembers ofObjects
  rcases hentry (always.getD []) with h | ⟨entry, h⟩ <;> cases members <;> rw [h] <;> rfl

end Describing

section WellShaped

open Schema

variable {elements : Option Shape} {members : List (Scalar × Shape)} {always : Option (List Scalar)}

private theorem isTypeName_name (type : SampleType) : isTypeName (.str type.name) = true := by
  cases type <;> rfl

private theorem mem_inOrder {name : String} {names : List String} (h : name ∈ inOrder names) :
    name ∈ names := by
  have hinsert : ∀ (first : String) (sorted : List String), name ∈ insertInOrder first sorted →
      name = first ∨ name ∈ sorted := by
    intro first sorted
    induction sorted with
    | nil => simp [insertInOrder]
    | cons s rest ih =>
      rw [insertInOrder]
      split
      · simp
      · simp only [List.mem_cons]
        rintro (rfl | hmem)
        · exact .inr (.inl rfl)
        · exact (ih hmem).imp id .inr
  induction names with
  | nil => exact h
  | cons first rest ih =>
    rcases hinsert first (inOrder rest) h with rfl | hrest
    · exact List.mem_cons_self
    · exact List.mem_cons_of_mem _ (ih hrest)

theorem get?_ofTypes (types : Json) (keyword : String) :
    (ofTypes types).get? keyword = if keyword = "type" then some types else none := by
  unfold ofTypes
  simp [Members.get?_cons, eq_comm]

private theorem get?_ofOptions (options : List Members) (keyword : String) : (ofOptions options).get? keyword =
    if keyword = "anyOf" then some (.arr (options.map .obj)) else none := by
  unfold ofOptions
  simp [Members.get?_cons, eq_comm]

theorem wellShaped_ofTypes {types : Json} (h : areTypes types = true) :
    WellShaped (.obj (ofTypes types)) := by
  refine .mk [] [] ?_ ?_ (.inl ?_) ?_ (.inl ⟨?_, rfl⟩) (by simp) (.inl ⟨?_, rfl⟩) .nil (by simp)
    (by simp) ?_
  all_goals simp [get?_ofTypes, h]

private theorem wellShaped_ofOptions {options : List Members} (h : ∀ o ∈ options, WellShaped (.obj o)) :
    WellShaped (.obj (ofOptions options)) := by
  refine .mk (options.map .obj) [] ?_ ?_ (.inl ?_) ?_ (.inr ?_) ?_ (.inl ⟨?_, rfl⟩) .nil (by simp)
    (by simp) ?_
  case refine_6 =>
    intro o ho
    obtain ⟨ms, hms, rfl⟩ := List.mem_map.1 ho
    exact h ms hms
  all_goals simp [get?_ofOptions]

theorem get?_ofArrays (keyword : String) : (ofArrays elements).get? keyword =
    if keyword = "type" then some (.str "array")
    else if keyword = "items" then elements.map fun s => .obj s.toMembers
    else none := by
  unfold ofArrays
  rw [Members.get?_cons]
  by_cases htype : keyword = "type"
  · simp [htype]
  · rw [if_neg (by simpa using Ne.symm htype), if_neg htype]
    cases elements with
    | none => simp
    | some s =>
      by_cases h : keyword = "items"
      · simp [h, Members.get?_cons]
      · simp [h, Members.get?_cons, Ne.symm h]

private theorem wellShaped_ofArrays (h : ∀ s, elements = some s → WellShaped (.obj s.toMembers)) :
    WellShaped (.obj (ofArrays elements)) := by
  have htype : areTypes (.str "array") = true := rfl
  refine .mk [] [] ?_ ?_ (.inl ?_) ?_ (.inl ⟨?_, rfl⟩) (by simp) (.inl ⟨?_, rfl⟩) .nil (by simp)
    (by simp) ?_
  · simp [get?_ofArrays, htype]
  · simp [get?_ofArrays]
  · simp [get?_ofArrays]
  · simp [get?_ofArrays]
  · simp [get?_ofArrays]
  · simp [get?_ofArrays]
  · intro t ht
    obtain ⟨s, hs, rfl⟩ := Option.map_eq_some_iff.1 (by simpa [get?_ofArrays] using ht)
    exact h s hs

theorem get?_ofObjects (keyword : String) : (ofObjects members always).get? keyword =
    if keyword = "type" then some (.str "object")
    else if keyword = "properties" then
      if members.isEmpty then none else some (.obj (memberSchemas members))
    else if keyword = "required" then Members.get? (requiredEntry (always.getD [])) "required"
    else none := by
  have hrequired : Members.get? (requiredEntry (always.getD [])) keyword =
      if keyword = "required" then Members.get? (requiredEntry (always.getD [])) "required"
      else none := by
    rw [requiredEntry]
    split
    · simp
    · by_cases h : keyword = "required"
      · simp [h]
      · simp [h, Members.get?_cons, Ne.symm h]
  by_cases htype : keyword = "type"
  · simp [ofObjects, Members.get?_cons, htype]
  · unfold ofObjects
    rw [Members.get?_cons, if_neg (by simpa using Ne.symm htype), if_neg htype]
    cases members with
    | nil =>
      rw [List.nil_append, hrequired]
      by_cases h : keyword = "properties"
      · simp [h]
      · simp [h]
    | cons first rest =>
      by_cases h : keyword = "properties"
      · simp [h, Members.get?_cons]
      · simp [h, Members.get?_cons, Ne.symm h, hrequired]

theorem memberSchemas_ofObjects :
    Schema.memberSchemas (.obj (ofObjects members always)) = .ok (memberSchemas members) := by
  cases members with
  | nil => simp [Schema.memberSchemas, Members.valueOf, get?_ofObjects, memberSchemas]; rfl
  | cons first rest =>
    obtain ⟨k, s⟩ := first
    simp [Schema.memberSchemas, Members.valueOf, get?_ofObjects]
    rfl

private theorem wellShaped_ofObjects (h : AreWellShaped (memberSchemas members)) :
    WellShaped (.obj (ofObjects members always)) := by
  have htype : areTypes (.str "object") = true := rfl
  refine .mk [] (memberSchemas members) ?_ ?_ ?_ ?_ (.inl ⟨?_, rfl⟩) (by simp) ?_ h.distinct h.text
    h.parts ?_
  · simp [get?_ofObjects, htype]
  · simp [get?_ofObjects]
  · rw [get?_ofObjects, if_neg (by simp), if_neg (by simp), if_pos rfl, requiredEntry]
    split <;> simp [Members.get?_cons]
  · simp [get?_ofObjects]
  · simp [get?_ofObjects]
  · cases members <;> simp [get?_ofObjects, memberSchemas]
  · simp [get?_ofObjects]

private theorem memberSchemas_ofArrays :
    Schema.memberSchemas (.obj (ofArrays elements)) = .ok [] := by
  simp [Schema.memberSchemas, Members.valueOf, get?_ofArrays]
  rfl

private theorem step_ofArrays (token : String) : step (.obj (ofArrays elements)) token =
    .ok (if Pointer.isIndex token then
      elements.elim .emptyObject fun s => .obj s.toMembers else .emptyObject) := by
  simp only [step, WellShaped.lookup_obj, Except.bind_ok, memberSchemas_ofArrays, Members.valueOf, get?_ofArrays]
  cases elements <;> cases Pointer.isIndex token <;> rfl

private theorem step_ofObjects (token : String) : step (.obj (ofObjects members always)) token =
    .ok ((member? members token).elim .emptyObject fun s => .obj s.toMembers) := by
  simp only [step, WellShaped.lookup_obj, Except.bind_ok, memberSchemas_ofObjects, Members.valueOf,
    get?_ofObjects, get?_memberSchemas]
  cases member? members token <;> simp [Json.isObject] <;> rfl

private theorem union_cases (plain : List SampleType) (others : List Members) :
    ∃ all : List Members,
      (∀ o ∈ all, o ∈ others ∨ ∃ types, areTypes types = true ∧ o = ofTypes types) ∧
      (union plain others = [] ∨ union plain others ∈ all ∨ union plain others = ofOptions all) := by
  have hnames : ∀ name ∈ inOrder (plain.map SampleType.name), isTypeName (.str name) = true := by
    intro name hname
    obtain ⟨type, -, rfl⟩ := List.mem_map.1 (mem_inOrder hname)
    exact isTypeName_name type
  rw [union]
  generalize inOrder (plain.map SampleType.name) = names at hnames ⊢
  rcases names with _ | ⟨first, _ | ⟨second, rest⟩⟩
  · refine ⟨others, fun o ho => .inl ho, ?_⟩
    rcases others with _ | ⟨schema, _ | ⟨next, schemas⟩⟩
    · exact .inl rfl
    · exact .inr (.inl List.mem_cons_self)
    · exact .inr (.inr rfl)
  · have htype : areTypes (.str first) = true := hnames first List.mem_cons_self
    refine ⟨ofTypes (.str first) :: others, List.forall_mem_cons.2
      ⟨.inr ⟨_, htype, rfl⟩, fun o ho => .inl ho⟩, ?_⟩
    rcases others with _ | ⟨schema, schemas⟩
    · exact .inr (.inl List.mem_cons_self)
    · exact .inr (.inr rfl)
  · have htypes : areTypes (.arr ((first :: second :: rest).map .str)) = true := by
      rw [areTypes, List.all_eq_true]
      intro t ht
      obtain ⟨name, hname, rfl⟩ := List.mem_map.1 ht
      exact hnames name hname
    refine ⟨ofTypes (.arr ((first :: second :: rest).map .str)) :: others, List.forall_mem_cons.2
      ⟨.inr ⟨_, htypes, rfl⟩, fun o ho => .inl ho⟩, ?_⟩
    rcases others with _ | ⟨schema, schemas⟩
    · exact .inr (.inl List.mem_cons_self)
    · exact .inr (.inr rfl)

private theorem get?_union_eq_none {plain : List SampleType} {others : List Members} {keyword : String}
    (htype : keyword ≠ "type") (hany : keyword ≠ "anyOf")
    (hothers : ∀ o ∈ others, o.get? keyword = none) : (union plain others).get? keyword = none := by
  obtain ⟨all, hall, hunion | hunion | hunion⟩ := union_cases plain others
  · rw [hunion]
    rfl
  · rcases hall _ hunion with ho | ⟨types, -, heq⟩
    · exact hothers _ ho
    · rw [heq, get?_ofTypes, if_neg htype]
  · rw [hunion, get?_ofOptions, if_neg hany]

private theorem wellShaped_union {plain : List SampleType} {others : List Members}
    (h : ∀ o ∈ others, WellShaped (.obj o)) : WellShaped (.obj (union plain others)) := by
  obtain ⟨all, hall, hunion⟩ := union_cases plain others
  have hshaped : ∀ o ∈ all, WellShaped (.obj o) := by
    intro o ho
    rcases hall o ho with ho | ⟨types, htypes, rfl⟩
    · exact h o ho
    · exact wellShaped_ofTypes htypes
  rcases hunion with hunion | hunion | hunion
  · rw [hunion]
    exact .empty
  · exact hshaped _ hunion
  · rw [hunion]
    exact wellShaped_ofOptions hshaped

/-- Of a union either nothing is known about parts, or what one of the schemas says. -/
theorem container_union {plain : List SampleType} {others : List Members}
    (h : ∀ o ∈ others, WellShaped (.obj o) ∧ o.get? "anyOf" = none) {found : Json}
    (hfound : container (.obj (union plain others)) = .ok found) :
    (∃ o ∈ others, found = .obj o) ∨ Partless found := by
  obtain ⟨all, hall, hunion⟩ := union_cases plain others
  have hpartless : ∀ types, Partless (.obj (ofTypes types)) := by
    intro types
    constructor
    · simp [Schema.memberSchemas, Members.valueOf, get?_ofTypes]
      rfl
    · simp [Members.valueOf, get?_ofTypes]
  have hoption : ∀ o ∈ all, (∃ o' ∈ others, Json.obj o = .obj o') ∨ Partless (.obj o) := by
    intro o ho
    rcases hall o ho with ho | ⟨types, -, rfl⟩
    · exact .inl ⟨o, ho, rfl⟩
    · exact .inr (hpartless types)
  rcases hunion with hunion | hunion | hunion
  · rw [hunion] at hfound
    obtain rfl := Except.ok.inj hfound
    exact .inr ⟨rfl, rfl⟩
  · have hself : container (.obj (union plain others)) = .ok (.obj (union plain others)) := by
      rcases hall _ hunion with ho | ⟨types, htypes, heq⟩
      · exact (h _ ho).1.container_self (h _ ho).2
      · rw [heq]
        exact (wellShaped_ofTypes htypes).container_self (by simp [get?_ofTypes])
    obtain rfl := Except.ok.inj (hself.symm.trans hfound)
    exact hoption _ hunion
  · have hoptions : options (.obj (ofOptions all)) = .ok (all.map .obj) := by
      simp only [options, WellShaped.lookup_obj, Except.bind_ok, Members.valueOf, get?_ofOptions]
      cases all <;> rfl
    rw [hunion, container, hoptions, Except.bind_ok] at hfound
    cases hfind : findContainer? (all.map .obj) with
    | error fault => rw [hfind] at hfound; cases hfound
    | ok found? =>
    rw [hfind] at hfound
    obtain rfl := Except.ok.inj hfound
    cases found? with
    | none =>
      refine .inr ⟨?_, ?_⟩
      · simp [Schema.memberSchemas, Members.valueOf, get?_ofOptions]
        rfl
      · simp [Members.valueOf, get?_ofOptions]
    | some o =>
      obtain ⟨ms, hms, rfl⟩ := List.mem_map.1 (findContainer?_mem hfind)
      exact hoption ms hms

end WellShaped

end Shape

namespace Json

/-- The samples of one member are those among the entries of all objects. -/
private theorem entries_filter {vs : List Json} (hvs : ∀ v ∈ vs, v.isDocument = true) (name : String) :
    ((vs.flatMap entries).filter fun m => m.1.same name).map Prod.snd =
      vs.filterMap (member? name) := by
  have hobj : ∀ ms : Members, ms.AreDocument →
      (ms.filter fun m => m.1.same name).map Prod.snd = (ms.get? name).toList := by
    intro ms
    induction ms with
    | nil => exact fun _ => rfl
    | cons m rest ih =>
      obtain ⟨k, v⟩ := m
      intro hms
      obtain ⟨other, rfl, hfree, -, hrest⟩ := Members.areOf_cons.1 hms
      rw [Members.get?_cons]
      by_cases hname : other = name
      · subst hname
        rw [List.filter_cons_of_pos (by simp), List.map_cons, ih hrest, hfree, if_pos (by simp)]
        rfl
      · rw [List.filter_cons_of_neg (by simpa using hname), ih hrest, if_neg (by simpa using hname)]
  induction vs with
  | nil => rfl
  | cons v rest ih =>
    rw [List.forall_mem_cons] at hvs
    rw [List.flatMap_cons, List.filter_append, List.map_append, ih hvs.2, List.filterMap_cons]
    cases v with
    | scalar s => rfl
    | arr es => rfl
    | obj ms =>
      rw [entries, hobj ms (isDocument_obj.1 hvs.1), member?_obj]
      cases Members.get? ms name <;> rfl

private theorem isDocument_member {v part : Json} {name : String} (hv : v.isDocument = true)
    (h : v.member? name = some part) : part.isDocument = true := by
  cases v with
  | obj ms => exact (isDocument_obj.1 hv).part h
  | scalar s => cases h
  | arr es => cases h

private theorem isDocument_element {v e : Json} (hv : v.isDocument = true) (h : e ∈ v.elements) :
    e.isDocument = true := by
  cases v with
  | arr es => exact isDocument_arr.1 hv e h
  | scalar s => cases h
  | obj ms => cases h

end Json

namespace Shape

open Schema Json

variable {full : Bool} {vs : List Json} {elements : Option Shape}
  {members : List (Scalar × Shape)} {always : Option (List Scalar)}

/-- What some samples have shown of their parts. Whatever elements and members they have was seen, and is described by
its shape. -/
structure Seen (full : Bool) (vs : List Json) (elements : Option Shape) (members : List (Scalar × Shape)) : Prop where
  items : ∀ s, elements = some s → Describes full (.obj s.toMembers) (vs.flatMap Json.elements)
  noItems : elements = none → vs.flatMap Json.elements = []
  parts : ∀ (name : String) s, member? members name = some s →
    Describes full (.obj s.toMembers) (vs.filterMap (Json.member? name))
  known : ∀ (name : String) (part : Json), ∀ v ∈ vs, v.member? name = some part → ∃ s, member? members name = some s
  named : (memberSchemas members).AreOf fun _ => True

private theorem text_of_mem_entries (hdocs : ∀ v ∈ vs, v.isDocument = true) {m : Scalar × Json}
    (hm : m ∈ vs.flatMap Json.entries) : ∃ name : String, m.1 = .str name := by
  obtain ⟨v, hv, hm⟩ := List.mem_flatMap.1 hm
  cases v with
  | obj ms => exact (isDocument_obj.1 (hdocs _ hv)).text m hm
  | scalar s => cases hm
  | arr es => cases hm

/-- What samples show of their parts describes the parts if each shape describes the smaller samples that it was seen
in. -/
private theorem Seen.of_observe (hdocs : ∀ v ∈ vs, v.isDocument = true) (huniform : full = true → Uniform vs)
    (ih : ∀ ws : List Json, elementsWeight ws < elementsWeight vs → ws ≠ [] → (∀ w ∈ ws, w.isDocument = true) →
      (full = true → Uniform ws) → Describes full (.obj (ws.foldl observe unseen).toMembers) ws) (hvs : vs ≠ []) :
    Seen full vs (observeElements none (vs.flatMap Json.elements)) (observeMembers [] (vs.flatMap Json.entries)) := by
  have hseen : ∀ name : String, member? (observeMembers [] (vs.flatMap Json.entries)) name =
      observeElements none (vs.filterMap (Json.member? name)) := by
    intro name
    rw [member?_observeMembers, entries_filter hdocs]
    rfl
  constructor
  · intro s hs
    rw [observeElements_eq] at hs
    split at hs
    · cases hs
    · rename_i hne
      obtain rfl := Option.some.inj hs
      refine ih _ (weight_elements_lt hvs) hne (fun e he => ?_) fun h => (huniform h).elements
      obtain ⟨v, hv, he⟩ := List.mem_flatMap.1 he
      exact isDocument_element (hdocs v hv) he
  · intro hnone
    rw [observeElements_eq] at hnone
    split at hnone
    · assumption
    · cases hnone
  · intro name s hs
    rw [hseen, observeElements_eq] at hs
    split at hs
    · cases hs
    · rename_i hne
      obtain rfl := Option.some.inj hs
      refine ih _ (weight_members_lt hvs name) hne (fun e he => ?_) fun h => (huniform h).members name
      obtain ⟨v, hv, he⟩ := List.mem_filterMap.1 he
      exact isDocument_member (hdocs v hv) he
  · intro name part v hv hpart
    rw [hseen, observeElements_eq, if_neg]
    · exact ⟨_, rfl⟩
    · exact List.ne_nil_of_mem (List.mem_filterMap.2 ⟨v, hv, hpart⟩)
  · exact named_observeMembers .nil fun m hm => text_of_mem_entries hdocs hm

namespace Seen

private theorem exists_array {s : Shape} (h : Seen full vs (some s) members) : ∃ es, .arr es ∈ vs := by
  obtain ⟨e, he⟩ := List.exists_mem_of_ne_nil _ (h.items s rfl).nonempty
  obtain ⟨v, hv, he⟩ := List.mem_flatMap.1 he
  cases v with
  | arr es => exact ⟨es, hv⟩
  | scalar s => cases he
  | obj ms => cases he

private theorem exists_object (h : Seen full vs elements members) {name : String} {s : Shape}
    (hs : member? members name = some s) : ∃ ms : Members, .obj ms ∈ vs ∧ ms.has name = true := by
  obtain ⟨part, hpart⟩ := List.exists_mem_of_ne_nil _ (h.parts name s hs).nonempty
  obtain ⟨v, hv, hpart⟩ := List.mem_filterMap.1 hpart
  cases v with
  | obj ms => exact ⟨ms, hv, Members.has_iff.2 ⟨part, hpart⟩⟩
  | scalar s => cases hpart
  | arr es => cases hpart

private theorem has_of_has (h : Seen full vs elements members) (hone : OneShape vs) {ns : Members} (hns : .obj ns ∈ vs)
    {name : String} (hname : (memberSchemas members).has name = true) : ns.has name = true := by
  rw [Members.has, get?_memberSchemas] at hname
  obtain ⟨s, hs⟩ := Option.isSome_iff_exists.1 (by simpa using hname)
  obtain ⟨ms, hms, hhas⟩ := h.exists_object hs
  exact hone.names hms hns name hhas

private theorem shaped_objects (h : Seen full vs elements members) : WellShaped (.obj (ofObjects members always)) := by
  refine wellShaped_ofObjects ⟨h.named.distinct, h.named.text, fun m hm => ?_⟩
  obtain ⟨name, hname⟩ := h.named.text m hm
  have hget := Members.get?_of_mem h.named.distinct hm
  rw [hname, get?_memberSchemas] at hget
  obtain ⟨s, hs, hschema⟩ := Option.map_eq_some_iff.1 hget
  rw [← hschema]
  exact (h.parts name s hs).shaped

private theorem shaped_arrays (h : Seen full vs elements members) : WellShaped (.obj (ofArrays elements)) :=
  wellShaped_ofArrays fun s hs => (h.items s hs).shaped

private theorem describes_objects (h : Seen full vs elements members) (hvs : vs ≠ [])
    (hall : ∀ v ∈ vs, v.isObject = true) (hone : full = true → OneShape vs) :
    Describes full (.obj (ofObjects members always)) vs := by
  refine .objects h.shaped_objects hvs hall ?_ (by simp [get?_ofObjects]) memberSchemas_ofObjects ?_ ?_ ?_
  · exact ⟨by simp [get?_ofObjects], by simp [get?_ofObjects], by simp [get?_ofObjects]⟩
  · intro name part v hv hpart
    obtain ⟨s, hs⟩ := h.known name part v hv hpart
    simp [Members.has, get?_memberSchemas, hs]
  · intro hfull name hname v hv
    obtain ⟨ns, rfl⟩ := exists_obj_of_isObject (hall v hv)
    exact Members.has_iff.1 (h.has_of_has (hone hfull) hv hname)
  · intro name part hpart
    rw [get?_memberSchemas] at hpart
    obtain ⟨s, hs, rfl⟩ := Option.map_eq_some_iff.1 hpart
    exact h.parts name s hs

private theorem describes_arrays (h : Seen full vs elements members) (hvs : vs ≠ [])
    (hall : ∀ v ∈ vs, v.isArray = true) : Describes full (.obj (ofArrays elements)) vs := by
  refine .arrays h.shaped_arrays hvs hall ?_ (fun hnone => h.noItems ?_) fun part hpart => ?_
  · exact ⟨by simp [get?_ofArrays], by simp [get?_ofArrays], by simp [get?_ofArrays]⟩
  · simpa [get?_ofArrays] using hnone
  · obtain ⟨s, hs, rfl⟩ := Option.map_eq_some_iff.1 (by simpa [get?_ofArrays] using hpart)
    exact h.items s hs

/-! Samples of several kinds: their schema is a choice, and a choice stands for one of its alternatives or says nothing
about parts. -/

section Choice

variable {plain : List SampleType} {others : List Members} {whole part : Json}

private theorem container_choice (h : Seen full vs elements members)
    (hothers : ∀ o ∈ others, o = ofArrays elements ∨ o = ofObjects members always)
    (hwhole : container (.obj (union plain others)) = .ok whole) :
    whole = .obj (ofArrays elements) ∨ whole = .obj (ofObjects members always) ∨ Partless whole := by
  have hplain : ∀ o ∈ others, WellShaped (.obj o) ∧ o.get? "anyOf" = none := by
    intro o ho
    rcases hothers o ho with rfl | rfl
    · exact ⟨h.shaped_arrays, by simp [get?_ofArrays]⟩
    · exact ⟨h.shaped_objects, by simp [get?_ofObjects]⟩
  rcases container_union hplain hwhole with ⟨o, ho, rfl⟩ | hpartless
  · rcases hothers o ho with rfl | rfl
    · exact .inl rfl
    · exact .inr (.inl rfl)
  · exact .inr (.inr hpartless)

private theorem frames_element (h : Seen true vs elements members) (hone : OneShape vs)
    (hwhole : whole = .obj (ofArrays elements) ∨ whole = .obj (ofObjects members always) ∨ Partless whole)
    {es : List Json} (hes : .arr es ∈ vs) {i : Nat} {e : Json} (he : es[i]? = some e)
    (hstep : step whole i.repr = .ok part) : Frames part e.tree := by
  rcases hwhole with rfl | rfl | hpartless
  · rw [step_ofArrays, Pointer.isIndex_repr] at hstep
    obtain rfl := Except.ok.inj hstep
    cases elements with
    | none => exact .empty _
    | some s => exact (h.items s rfl).frames (List.mem_flatMap.2 ⟨_, hes, List.mem_of_getElem? he⟩)
  · rw [step_ofObjects] at hstep
    obtain rfl := Except.ok.inj hstep
    cases hs : member? members i.repr with
    | none => exact .empty _
    | some s =>
      -- a member whose name counts elements cannot stand beside an array
      obtain ⟨ms, hms, hhas⟩ := h.exists_object hs
      have hindex := hone.indices hes hms i.repr hhas
      rw [Pointer.isIndex_repr] at hindex
      cases hindex
  · obtain rfl := Except.ok.inj ((hpartless.step_eq _).symm.trans hstep)
    exact .empty _

private theorem frames_member (h : Seen true vs elements members) (hone : OneShape vs)
    (hwhole : whole = .obj (ofArrays elements) ∨ whole = .obj (ofObjects members always) ∨ Partless whole)
    {ns : Members} (hns : .obj ns ∈ vs) {name : String} {w : Json} (hw : ns.get? name = some w)
    (hstep : step whole name = .ok part) : Frames part w.tree := by
  rcases hwhole with rfl | rfl | hpartless
  · rw [step_ofArrays] at hstep
    obtain rfl := Except.ok.inj hstep
    cases elements with
    | none =>
      rw [Option.elim_none, ite_self]
      exact .empty _
    | some s =>
      obtain ⟨es, hes⟩ := h.exists_array
      rw [hone.indices hes hns name (Members.has_iff.2 ⟨w, hw⟩)]
      exact .empty _
  · rw [step_ofObjects] at hstep
    obtain rfl := Except.ok.inj hstep
    obtain ⟨s, hs⟩ := h.known name w _ hns hw
    rw [hs]
    exact (h.parts name s hs).frames (List.mem_filterMap.2 ⟨_, hns, hw⟩)
  · obtain rfl := Except.ok.inj ((hpartless.step_eq _).symm.trans hstep)
    exact .empty _

private theorem has_of_choice (h : Seen true vs elements members) (hone : OneShape vs)
    (hwhole : whole = .obj (ofArrays elements) ∨ whole = .obj (ofObjects members always) ∨ Partless whole)
    {ns props : Members} (hns : .obj ns ∈ vs) (hprops : Schema.memberSchemas whole = .ok props) {name : String}
    (hname : props.has name = true) : ns.has name = true := by
  rcases hwhole with rfl | rfl | hpartless
  · rw [memberSchemas_ofArrays] at hprops
    obtain rfl := Except.ok.inj hprops
    cases hname
  · rw [memberSchemas_ofObjects] at hprops
    obtain rfl := Except.ok.inj hprops
    exact h.has_of_has hone hns hname
  · obtain rfl := Except.ok.inj (hpartless.members.symm.trans hprops)
    cases hname

/-- Where the schema is a choice, objects have all the members that it can be seen to describe. -/
private theorem frames_choice (h : Seen true vs elements members) (hone : OneShape vs)
    (hothers : ∀ o ∈ others, o = ofArrays elements ∨ o = ofObjects members always) {v : Json} (hv : v ∈ vs) :
    Frames (.obj (union plain others)) v.tree := by
  cases v with
  | scalar s => exact .scalar _ s
  | arr es =>
    rw [Json.tree_arr]
    refine .arr fun i u hu whole part hwhole hstep => ?_
    rw [List.getElem?_map] at hu
    obtain ⟨e, he, rfl⟩ := Option.map_eq_some_iff.1 hu
    exact h.frames_element hone (h.container_choice hothers hwhole) hv he hstep
  | obj ns =>
    rw [Json.tree_obj]
    refine .obj (fun part props hpart hprops name hname => ?_) fun token u hu whole part hwhole hstep => ?_
    · have hhas := h.has_of_choice hone (h.container_choice hothers hpart) hv hprops hname
      obtain ⟨w, hw⟩ := Members.has_iff.1 hhas
      exact ⟨w.tree, by rw [Members.trees, hw, Option.map_some]⟩
    · obtain ⟨w, hw, rfl⟩ := Option.map_eq_some_iff.1 hu
      exact h.frames_member hone (h.container_choice hothers hwhole) hv hw hstep

private theorem describes_choice (h : Seen full vs elements members) (hvs : vs ≠ [])
    (hobjects : ∃ v ∈ vs, v.isObject = false) (harrays : ∃ v ∈ vs, v.isArray = false)
    (hone : full = true → OneShape vs)
    (hothers : ∀ o ∈ others, o = ofArrays elements ∨ o = ofObjects members always) :
    Describes full (.obj (union plain others)) vs := by
  have hnone : ∀ keyword ∈ ["default", "enum"], ∀ o ∈ others, o.get? keyword = none := by
    intro keyword hkeyword o ho
    rcases hothers o ho with rfl | rfl <;>
      rcases List.mem_pair.1 hkeyword with rfl | rfl <;> simp [get?_ofArrays, get?_ofObjects]
  refine .others (wellShaped_union fun o ho => ?_) hvs hobjects harrays ?_ ?_ ?_
  · rcases hothers o ho with rfl | rfl
    · exact h.shaped_arrays
    · exact h.shaped_objects
  · exact get?_union_eq_none (by simp) (by simp) (hnone "default" (by simp))
  · exact get?_union_eq_none (by simp) (by simp) (hnone "enum" (by simp))
  · rintro rfl v hv
    exact h.frames_choice (hone rfl) hothers hv

end Choice

end Seen

/-- The types of samples that are all of one type. -/
private theorem types_eq (type : SampleType) (hvs : vs ≠ []) (htype : SampleType.insert [] type = [type])
    (hagain : SampleType.insert [type] type = [type]) (hall : ∀ v ∈ vs, SampleType.ofJson v = type) :
    (vs.map SampleType.ofJson).foldl SampleType.insert [] = [type] := by
  refine SampleType.foldl_insert htype hagain (by simpa using hvs) fun t ht => ?_
  obtain ⟨v, hv, rfl⟩ := List.mem_map.1 ht
  exact hall v hv

/-- A shape that saw some samples describes them. -/
theorem describes_toMembers (hvs : vs ≠ []) (hdocs : ∀ v ∈ vs, v.isDocument = true)
    (huniform : full = true → Uniform vs) :
    Describes full (.obj (vs.foldl observe unseen).toMembers) vs := by
  induction hn : elementsWeight vs using Nat.strong_induction_on generalizing vs with
  | _ n ih =>
  subst hn
  have hseen := Seen.of_observe hdocs huniform
    (fun ws hweight hws hdocs huniform => ih _ hweight hws hdocs huniform rfl) hvs
  have hone : full = true → OneShape vs := fun hfull => huniform hfull []
  obtain ⟨always, hshape⟩ := foldl_observe vs [] none [] none
  rw [unseen, hshape]
  by_cases hobjects : ∀ v ∈ vs, v.isObject = true
  · rw [types_eq .object hvs rfl rfl, toMembers_object]
    · exact hseen.describes_objects hvs hobjects hone
    · intro v hv
      obtain ⟨ms, rfl⟩ := exists_obj_of_isObject (hobjects v hv)
      rfl
  by_cases harrays : ∀ v ∈ vs, v.isArray = true
  · rw [types_eq .array hvs rfl rfl, toMembers_array]
    · exact hseen.describes_arrays hvs harrays
    · intro v hv
      obtain ⟨es, rfl⟩ := exists_arr_of_isArray (harrays v hv)
      rfl
  · obtain ⟨plain, others, heq, hothers⟩ := toMembers_eq ((vs.map SampleType.ofJson).foldl SampleType.insert [])
      (observeElements none (vs.flatMap Json.elements)) (observeMembers [] (vs.flatMap Json.entries)) always
    rw [heq]
    exact hseen.describes_choice hvs (by simpa using hobjects) (by simpa using harrays) hone hothers

end Shape

namespace Schema

/-- What a schema refers to stands before its keywords. -/
theorem get?_referring (ns : Members) (keyword : String) (hne : keyword ≠ "$schema") :
    Members.get? ((.str "$schema", .str "http://json-schema.org/schema#") :: ns) keyword = Members.get? ns keyword := by
  rw [Members.get?_cons, if_neg (by simpa using Ne.symm hne)]

private theorem OfType.referring {ns : Members} {type : String} (h : OfType ns type) :
    OfType ((.str "$schema", .str "http://json-schema.org/schema#") :: ns) type :=
  h.congr fun keyword hkeyword => get?_referring ns keyword fun heq => by simp [heq] at hkeyword

/-- The schema that is inferred from an object describes it. -/
theorem describes_infer {full : Bool} {ms : Members} (hms : ms.AreDocument)
    (huniform : full = true → Json.Uniform [.obj ms]) :
    Describes full (infer (.obj ms)) [.obj ms] := by
  have hdocs : ∀ v ∈ [Json.obj ms], v.isDocument = true := by
    simpa using Json.isDocument_obj.2 hms
  have h := Shape.describes_toMembers (by simp) hdocs huniform
  rw [List.foldl_cons, List.foldl_nil] at h
  rw [infer]
  generalize (Shape.observe Shape.unseen (.obj ms)).toMembers = ns at h ⊢
  cases h with
  | @objects ns props vs shaped nonempty all type items members known filled parts =>
    refine .objects (shaped.congr (get?_referring ns)) nonempty all type.referring
      (by rwa [get?_referring _ _ (by simp)]) ?_ known filled parts
    rwa [memberSchemas, WellShaped.lookup_obj, Members.valueOf, get?_referring _ _ (by simp)]
  | arrays shaped nonempty all => cases all _ List.mem_cons_self
  | others shaped nonempty objects =>
    obtain ⟨v, hv, hobject⟩ := objects
    obtain rfl := List.mem_singleton.1 hv
    cases hobject

/-- The schema that is inferred from an array describes it. -/
theorem describes_infer_arr {full : Bool} {es : List Json} (hes : ∀ e ∈ es, e.isDocument = true)
    (huniform : full = true → Json.Uniform [.arr es]) : Describes full (infer (.arr es)) [.arr es] := by
  have hdocs : ∀ v ∈ [Json.arr es], v.isDocument = true := by
    simpa using Json.isDocument_arr.2 hes
  have h := Shape.describes_toMembers (by simp) hdocs huniform
  rw [List.foldl_cons, List.foldl_nil] at h
  rw [infer]
  generalize (Shape.observe Shape.unseen (.arr es)).toMembers = ns at h ⊢
  cases h with
  | objects shaped nonempty all => cases all _ List.mem_cons_self
  | @arrays ns vs shaped nonempty all type known parts =>
    refine .arrays (shaped.congr (get?_referring ns)) nonempty all type.referring ?_ ?_
    · rwa [get?_referring _ _ (by simp)]
    · rwa [get?_referring _ _ (by simp)]
  | others shaped nonempty objects arrays =>
    obtain ⟨v, hv, harray⟩ := arrays
    obtain rfl := List.mem_singleton.1 hv
    cases harray

end Schema

end EditLens
