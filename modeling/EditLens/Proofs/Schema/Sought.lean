import EditLens.Proofs.Schema.Regular

/-! What can be looked for in a schema. Main statements: what is looked for beside members is found in every schema
that differs in members alone, and what is looked for at one name hangs on its description alone. -/
namespace EditLens

open Function (update)

namespace Schema

/-- What is looked for in a schema: a member, a name that is free, elements, or what is left without null. What is
never found comes up where two wishes contradict each other. -/
inductive Sought where
  | here
  | never
  | member (name : String) (sought : Sought)
  | free (name : String)
  | element (sought : Sought)
  | option (sought : Sought)
  /-- Neither the type of null nor alternatives of which one must hold. -/
  | plain
  /-- Members are described, whichever they are. -/
  | members
  /-- Elements are described. -/
  | items
  deriving DecidableEq

structure SameOptions (ms ns : Members) : Prop where
  type : ns.get? "type" = ms.get? "type"
  anyOf : ns.get? "anyOf" = ms.get? "anyOf"
  oneOf : ns.get? "oneOf" = ms.get? "oneOf"
  items : ns.has "items" = ms.has "items"

/-- Whether what is looked for is there. Of arrays with elements of any kind, all elements are. What is left
without null must not hang on what the schema says about members besides. -/
def Offers : Sought → Json → Prop
  | .here, _ => True
  | .never, _ => False
  | .member name s, schema => ∃ part, part? schema name = some part ∧ Offers s part
  | .free name, schema => part? schema name = none
  | .element s, schema => ∃ ms : Members, schema = .obj ms ∧
      ((∃ part, ms.get? "items" = some part ∧ Offers s part) ∨
        ms.get? "items" = none ∧ (ms.valueOf "type").isText "array" = true)
  | .option s, schema => ∃ ms : Members, schema = .obj ms ∧ ∀ ns, Regular (.obj ns) → SameOptions ms ns →
      ∃ rest, withoutNull (.obj ns) = .ok rest ∧ Offers s rest
  | .plain, schema => ∃ ms : Members, schema = .obj ms ∧ (ms.valueOf "type").isText "null" = false ∧
      ms.get? "oneOf" = none
  | .members, schema => ∃ ms : Members, schema = .obj ms ∧ ms.has "properties" = true
  | .items, schema => ∃ ms : Members, schema = .obj ms ∧ ms.has "items" = true

def OffersBy (parts : String → Option Json) (ms : Members) : Sought → Prop
  | .member name s => ∃ part, parts name = some part ∧ Offers s part
  | .free name => parts name = none
  | s => Offers s (.obj ms)

structure Provides (sought : List Sought) (schema : Json) : Prop where
  regular : Regular schema
  offers : ∀ s ∈ sought, Offers s schema

private theorem SameOptions.refl (ms : Members) : SameOptions ms ms := ⟨rfl, rfl, rfl, rfl⟩

private theorem SameOptions.trans {ms ns ps : Members} (h : SameOptions ms ns) (h' : SameOptions ns ps) :
    SameOptions ms ps :=
  ⟨h'.type.trans h.type, h'.anyOf.trans h.anyOf, h'.oneOf.trans h.oneOf, h'.items.trans h.items⟩

variable {ms ns : Members} {parts : String → Option Json} {next part : Json} {v : Option Json} {name : String}
  {s : Sought}

theorem offersBy_part? : OffersBy (part? (.obj ms)) ms s ↔ Offers s (.obj ms) := by
  cases s <;> rfl

private theorem offers_option_congr (h : SameOptions ms ns) :
    Offers (.option s) (.obj ns) ↔ Offers (.option s) (.obj ms) := by
  have hback : SameOptions ns ms := ⟨h.type.symm, h.anyOf.symm, h.oneOf.symm, h.items.symm⟩
  simp only [Offers, Json.obj.injEq, exists_eq_left']
  exact ⟨fun hall ps hregular hps => hall ps hregular (hback.trans hps),
    fun hall ps hregular hps => hall ps hregular (h.trans hps)⟩

/-- What is looked for hangs on few keywords. -/
private theorem offers_of_offersBy (h : SameOptions ms ns) (hitems : ns.get? "items" = ms.get? "items")
    (hmembers : ms.has "properties" = true → ns.has "properties" = true)
    (hs : OffersBy (part? (.obj ns)) ms s) : Offers s (.obj ns) := by
  cases s with
  | here | never | member name s | free name => exact hs
  | element s => simpa [OffersBy, Offers, hitems, Members.valueOf, h.type] using hs
  | option s => exact (offers_option_congr h).2 hs
  | plain => simpa [OffersBy, Offers, Members.valueOf, h.type, h.oneOf] using hs
  | members =>
    simp only [OffersBy, Offers, Json.obj.injEq, exists_eq_left'] at hs ⊢
    exact hmembers hs
  | items => simpa [OffersBy, Offers, h.items] using hs

theorem Retold.offers (h : Retold ms next parts) (hs : OffersBy parts ms s) : Offers s next := by
  obtain ⟨ns, rfl, hmembers, hbeside⟩ := h.beside
  have hsame : SameOptions ms ns := ⟨hbeside _ (by simp) (by simp), hbeside _ (by simp) (by simp),
    hbeside _ (by simp) (by simp), by rw [Members.has, Members.has, hbeside _ (by simp) (by simp)]⟩
  rw [← h.part?_eq] at hs
  exact offers_of_offersBy hsame (hbeside _ (by simp) (by simp)) (fun _ => hmembers) hs

theorem Provides.offersBy {sought : List Sought} (h : Provides sought (.obj ms)) (hs : s ∈ sought) :
    OffersBy (part? (.obj ms)) ms s := offersBy_part?.2 (h.offers s hs)

theorem Retold.provides {sought : List Sought} (h : Retold ms next parts) (hs : ∀ s ∈ sought, OffersBy parts ms s) :
    Provides sought next := ⟨h.regular, fun s hmem => h.offers (hs s hmem)⟩

/-- Neither the values that are listed nor defaults are looked for. -/
theorem Recoded.offers (h : Recoded ms ns) (hs : Offers s (.obj ms)) : Offers s (.obj ns) := by
  have hsame : SameOptions ms ns := ⟨h.beside _ (by simp) (by simp), h.beside _ (by simp) (by simp),
    h.beside _ (by simp) (by simp), by rw [Members.has, Members.has, h.beside _ (by simp) (by simp)]⟩
  have hparts : part? (.obj ns) = part? (.obj ms) := part?_congr (h.beside _ (by simp) (by simp))
  refine offers_of_offersBy hsame (h.beside _ (by simp) (by simp)) (fun hms => ?_) ?_
  · rwa [Members.has, h.beside _ (by simp) (by simp)]
  · rwa [hparts, offersBy_part?]

namespace Sought

/-- What is looked for where one member comes to be described in another way: `inside` for what is looked for in
it, `free` for that it is not described. -/
def redirect (name : String) (inside : Sought → Sought) (free : Sought) : Sought → Sought
  | .member other s => if other = name then inside s else .member other s
  | .free other => if other = name then free else .free other
  | s => s

variable {inside : Sought → Sought} {free : Sought}

theorem offersBy_redirect (hinside : ∀ t part, s = .member name t → parts name = some part → Offers t part →
      OffersBy (update parts name v) ms (inside t))
    (hfree : parts name = none → OffersBy (update parts name v) ms free) (hs : OffersBy parts ms s) :
    OffersBy (update parts name v) ms (redirect name inside free s) := by
  cases s with
  | here | never | element s | option s | plain | members | items => exact hs
  | member other s =>
    obtain ⟨part, hpart, hs⟩ := hs
    rw [redirect]
    split
    · rename_i hother
      exact hinside s part (by rw [hother]) (hother ▸ hpart) hs
    · rename_i hother
      exact ⟨part, by rwa [Function.update_of_ne hother], hs⟩
  | free other =>
    rw [redirect]
    split
    · rename_i hother
      exact hfree (hother ▸ hs)
    · rename_i hother
      rwa [OffersBy, Function.update_of_ne hother]

theorem offersBy_of_redirect (hinside : ∀ t, s = .member name t → OffersBy parts ms (inside t) →
      ∃ part, v = some part ∧ Offers t part)
    (hfree : OffersBy parts ms free → v = none) (hs : OffersBy parts ms (redirect name inside free s)) :
    OffersBy (update parts name v) ms s := by
  cases s with
  | here | never | element s | option s | plain | members | items => exact hs
  | member other s =>
    rw [redirect] at hs
    split at hs
    · rename_i hother
      obtain ⟨part, hpart, hoffers⟩ := hinside s (by rw [hother]) hs
      exact ⟨part, by rw [hother, Function.update_self, hpart], hoffers⟩
    · rename_i hother
      rwa [OffersBy, Function.update_of_ne hother]
  | free other =>
    rw [redirect] at hs
    split at hs
    · rename_i hother
      rw [OffersBy, hother, Function.update_self]
      exact hfree hs
    · rename_i hother
      rwa [OffersBy, Function.update_of_ne hother]

/-- A described member comes to be described in another way: what is looked for in it is told by its description. -/
theorem offersBy_redirect_described (hpart : parts name = some part)
    (hinside : ∀ t, s = .member name t → Offers t part → OffersBy (update parts name v) ms (inside t))
    (hs : OffersBy parts ms s) : OffersBy (update parts name v) ms (redirect name inside free s) := by
  refine offersBy_redirect (fun t found hmember hfound ht => ?_) (fun hnone => ?_) hs
  · obtain rfl := Option.some.inj (hpart.symm.trans hfound)
    exact hinside t hmember ht
  · rw [hpart] at hnone
    cases hnone

theorem offersBy_of_redirect_described
    (hinside : ∀ t, s = .member name t → OffersBy parts ms (inside t) → Offers t part)
    (hs : OffersBy parts ms (redirect name inside .never s)) : OffersBy (update parts name (some part)) ms s :=
  offersBy_of_redirect (fun t hmember ht => ⟨part, rfl, hinside t hmember ht⟩) False.elim hs

def renamed (source destination : String) : Sought → Sought
  | .member name s =>
    if name = destination then .never else if name = source then .member destination s else .member name s
  | .free name => if name = destination then .here else if name = source then .never else .free name
  | s => s

def outOf (host name : String) : Sought → Sought
  | .member inner s => if inner = name then .member name s else .member host (.member inner s)
  | .free inner => if inner = name then .never else .member host (.free inner)
  | s => .member host s

def hoisted (host name : String) : Sought → Sought
  | .member outer s =>
    if outer = name then .never else if outer = host then outOf host name s else .member outer s
  | .free outer => if outer = name then .here else .free outer
  | s => s

def into (host name : String) : Sought → Sought
  | .member inner s => if inner = name then .never else .member host (.member inner s)
  | .free inner => if inner = name then .here else .member host (.free inner)
  | s => .member host s

def plunged (host name : String) : Sought → Sought
  | .member outer s =>
    if outer = name then .member host (.member name s) else if outer = host then into host name s else .member outer s
  | .free outer => if outer = name then .never else .free outer
  | s => s

def headed (name : String) : Sought → Sought
  | .element s => .member name (.option s)
  | _ => .here

def wrapped (name : String) : Sought → Sought
  | .option s => .member name (.element s)
  | _ => .here

/-- What makes sure that what is looked for beside null, and was looked for in elements since, is there again once
null comes back. -/
def kept : Sought → List Sought
  | .option .here => []
  | .option (.free _) => [.items, .element .plain, .element .members]
  | .option _ => [.items, .element .plain]
  | _ => []

def inMember? (name : String) : Sought → Option Sought
  | .member other s => if other = name then some s else none
  | _ => none

def inElement? : Sought → Option Sought
  | .element s => some s
  | _ => none

def isShallow : Sought → Bool
  | .here | .free _ | .option .here => true
  | _ => false

theorem eq_of_inMember? {name : String} {s t : Sought} (h : s.inMember? name = some t) : s = .member name t := by
  cases s <;> grind [inMember?]

theorem eq_of_inElement? {s t : Sought} (h : s.inElement? = some t) : s = .element t := by
  cases s <;> grind [inElement?]

end Sought

section Moving

variable {ms ps : Members} {parts : String → Option Json} {schema part inner : Json}
  {host name source destination : String} {s : Sought}

/-- Of a described member, what is described in it can be told anew. -/
theorem offersBy_update (hpart : parts name = some part) (hs : s.inMember? name = none)
    (hoffers : OffersBy parts ms s) : OffersBy (update parts name (some inner)) ms s := by
  cases s with
  | here | never | element s | option s | plain | members | items => exact hoffers
  | member other s =>
    have hother : other ≠ name := by simpa [Sought.inMember?] using hs
    rwa [OffersBy, Function.update_of_ne hother]
  | free other =>
    have hother : other ≠ name := by
      rintro rfl
      rw [OffersBy, hpart] at hoffers
      cases hoffers
    rwa [OffersBy, Function.update_of_ne hother]

theorem offers_of_member (hs : Offers (.member name s) schema) (hpart : part? schema name = some part) :
    Offers s part := by
  obtain ⟨_, hfound, hs⟩ := hs
  exact Option.some.inj (hfound.symm.trans hpart) ▸ hs

theorem offers_of_element (hs : Offers (.element s) (.obj ms)) (hitems : ms.get? "items" = some part) :
    Offers s part := by
  obtain ⟨_, heq, hms⟩ := hs
  obtain rfl := Json.obj.inj heq
  grind

theorem offers_of_option {rest : Json} (hps : Regular (.obj ps)) (hs : Offers (.option s) (.obj ps))
    (hrest : withoutNull (.obj ps) = .ok rest) : Offers s rest := by
  obtain ⟨_, heq, hall⟩ := hs
  obtain rfl := Json.obj.inj heq
  obtain ⟨rest', hrest', hs⟩ := hall ps hps (.refl ps)
  exact Except.ok.inj (hrest'.symm.trans hrest) ▸ hs

/-- What is looked for in a described member. -/
theorem Provides.inMember {N : List Sought} (h : Provides N schema) (hpart : part? schema name = some part) :
    Provides (N.filterMap (Sought.inMember? name)) part := by
  refine ⟨h.regular.of_part hpart, fun t ht => ?_⟩
  obtain ⟨s, hs, ht⟩ := List.mem_filterMap.1 ht
  rw [Sought.eq_of_inMember? ht] at hs
  exact offers_of_member (h.offers _ hs) hpart

/-- What is looked for in elements that are described. -/
theorem Provides.inElement {N : List Sought} (h : Provides N (.obj ms)) (hitems : ms.get? "items" = some part) :
    Provides (N.filterMap Sought.inElement?) part := by
  refine ⟨h.regular.of_items hitems, fun t ht => ?_⟩
  obtain ⟨s, hs, ht⟩ := List.mem_filterMap.1 ht
  rw [Sought.eq_of_inElement? ht] at hs
  exact offers_of_element (h.offers _ hs) hitems

theorem offersBy_renamed (hsource : parts source = some part) (hdestination : parts destination = none)
    (hs : OffersBy parts ms s) :
    OffersBy (update (update parts source none) destination (some part)) ms (s.renamed source destination) := by
  cases s with
  | here | never | element s | option s | plain | members | items => exact hs
  | member name s => grind [OffersBy, Sought.renamed, Function.update_apply, Offers]
  | free name => grind [OffersBy, Sought.renamed, Function.update_apply, Offers]

theorem offersBy_of_renamed (hsource : parts source = none) (hdestination : parts destination = some part)
    (hs : OffersBy parts ms (s.renamed source destination)) :
    OffersBy (update (update parts destination none) source (some part)) ms s := by
  cases s with
  | here | never | element s | option s | plain | members | items => exact hs
  | member name s => grind [OffersBy, Sought.renamed, Function.update_apply, Offers]
  | free name => grind [OffersBy, Sought.renamed, Function.update_apply, Offers]

/-- What has no name cannot take another one, and nothing is looked for in it. -/
theorem offersBy_of_renamed_undescribed (hsource : parts source = none) (hdestination : parts destination = none)
    (hs : OffersBy parts ms (s.renamed source destination)) : OffersBy parts ms s := by
  cases s with
  | here | never | element s | option s | plain | members | items => exact hs
  | member name s => grind [OffersBy, Sought.renamed, Offers]
  | free name => grind [OffersBy, Sought.renamed, Offers]

private theorem offersBy_outOf (hhost : parts host = some inner) (hname : parts name = some part)
    (hpart : part? (.obj ps) name = some part) (hinner : Retold ps inner (update (part? (.obj ps)) name none))
    (hs : Offers s (.obj ps)) : OffersBy parts ms (s.outOf host name) := by
  rw [← offersBy_part?] at hs
  have hbelow : ∀ t, OffersBy (update (part? (.obj ps)) name none) ps t → OffersBy parts ms (.member host t) :=
    fun t ht => ⟨inner, hhost, hinner.offers ht⟩
  cases s with
  | here | never | element s | option s | plain | members | items => exact hbelow _ hs
  | member other s => grind [OffersBy, Sought.outOf, Function.update_apply]
  | free other => grind [OffersBy, Sought.outOf, Function.update_apply]

/-- What is looked for where a member has moved out of its host is there. -/
theorem offersBy_hoisted (hhost : parts host = some (.obj ps)) (hpart : part? (.obj ps) name = some part)
    (hnew : parts name = none) (hinner : Retold ps inner (update (part? (.obj ps)) name none))
    (hs : OffersBy parts ms s) :
    OffersBy (update (update parts host (some inner)) name (some part)) ms (s.hoisted host name) := by
  have hne : host ≠ name := by grind
  have hout : ∀ t, Offers t (.obj ps) →
      OffersBy (update (update parts host (some inner)) name (some part)) ms (t.outOf host name) :=
    fun t ht => offersBy_outOf (by simp [hne]) (by simp) hpart hinner ht
  cases s with
  | here | never | element s | option s | plain | members | items => exact hs
  | member other s => grind [OffersBy, Sought.hoisted, Function.update_apply, Offers]
  | free other => grind [OffersBy, Sought.hoisted, Function.update_apply, Offers]

/-- What was looked for in a host is there again once the member has moved back. -/
private theorem offers_of_outOf (hhost : parts host = some (.obj ps)) (hname : parts name = some part)
    (hinner : Retold ps inner (update (part? (.obj ps)) name (some part)))
    (hs : OffersBy parts ms (s.outOf host name)) : Offers s inner := by
  refine hinner.offers ?_
  have hbelow : ∀ t, OffersBy parts ms (.member host t) → OffersBy (part? (.obj ps)) ps t := by
    rintro t ⟨_, hfound, ht⟩
    obtain rfl := Option.some.inj (hhost.symm.trans hfound)
    exact offersBy_part?.2 ht
  cases s with
  | here | never | element s | option s | plain | members | items => exact hbelow _ hs
  | member other s => grind [OffersBy, Sought.outOf, Function.update_apply]
  | free other => grind [OffersBy, Sought.outOf, Function.update_apply, Offers]

theorem offersBy_of_hoisted (hhost : parts host = some (.obj ps)) (hname : parts name = some part) (hne : host ≠ name)
    (hinner : Retold ps inner (update (part? (.obj ps)) name (some part)))
    (hs : OffersBy parts ms (s.hoisted host name)) :
    OffersBy (update (update parts name none) host (some inner)) ms s := by
  have hout : ∀ t, OffersBy parts ms (t.outOf host name) → Offers t inner :=
    fun t ht => offers_of_outOf hhost hname hinner ht
  cases s with
  | here | never | element s | option s | plain | members | items => exact hs
  | member other s => grind [OffersBy, Sought.hoisted, Function.update_apply, Offers]
  | free other => grind [OffersBy, Sought.hoisted, Function.update_apply, Offers]

/-- Where the member is not described, nothing is looked for in it. -/
theorem offersBy_of_hoisted_undescribed (hname : parts name = none) (hs : OffersBy parts ms (s.hoisted host name)) :
    OffersBy parts ms s := by
  cases s with
  | here | never | element s | option s | plain | members | items => exact hs
  | member other s => cases s <;> grind [OffersBy, Sought.hoisted, Sought.outOf, Offers]
  | free other => grind [OffersBy, Sought.hoisted, Offers]

private theorem offersBy_into (hhost : parts host = some inner) (hnew : part? (.obj ps) name = none)
    (hinner : Retold ps inner (update (part? (.obj ps)) name (some part)))
    (hs : Offers s (.obj ps)) : OffersBy parts ms (s.into host name) := by
  rw [← offersBy_part?] at hs
  have hbelow : ∀ t, OffersBy (update (part? (.obj ps)) name (some part)) ps t → OffersBy parts ms (.member host t) :=
    fun t ht => ⟨inner, hhost, hinner.offers ht⟩
  cases s with
  | here | never | element s | option s | plain | members | items => exact hbelow _ hs
  | member other s => grind [OffersBy, Sought.into, Function.update_apply, Offers]
  | free other => grind [OffersBy, Sought.into, Function.update_apply, Offers]

/-- What is looked for where a member has moved into its host is there. -/
theorem offersBy_plunged (hhost : parts host = some (.obj ps)) (hpart : parts name = some part)
    (hnew : part? (.obj ps) name = none)
    (hinner : Retold ps inner (update (part? (.obj ps)) name (some part))) (hs : OffersBy parts ms s) :
    OffersBy (update (update parts name none) host (some inner)) ms (s.plunged host name) := by
  have hin : ∀ t, Offers t (.obj ps) →
      OffersBy (update (update parts name none) host (some inner)) ms (t.into host name) :=
    fun t ht => offersBy_into (by simp) hnew hinner ht
  have hmember : ∀ t, Offers t part → Offers (.member name t) inner :=
    fun t ht => hinner.offers ⟨part, by simp, ht⟩
  cases s with
  | here | never | element s | option s | plain | members | items => exact hs
  | member other s => grind [OffersBy, Sought.plunged, Function.update_apply]
  | free other => grind [OffersBy, Sought.plunged, Function.update_apply, Offers]

private theorem offers_of_into (hhost : parts host = some (.obj ps))
    (hinner : Retold ps inner (update (part? (.obj ps)) name none))
    (hs : OffersBy parts ms (s.into host name)) : Offers s inner := by
  refine hinner.offers ?_
  have hbelow : ∀ t, OffersBy parts ms (.member host t) → OffersBy (part? (.obj ps)) ps t := by
    rintro t ⟨_, hfound, ht⟩
    obtain rfl := Option.some.inj (hhost.symm.trans hfound)
    exact offersBy_part?.2 ht
  cases s with
  | here | never | element s | option s | plain | members | items => exact hbelow _ hs
  | member other s => grind [OffersBy, Sought.into, Function.update_apply, Offers]
  | free other => grind [OffersBy, Sought.into, Function.update_apply, Offers]

theorem offersBy_of_plunged (hhost : parts host = some (.obj ps)) (hpart : part? (.obj ps) name = some part)
    (hinner : Retold ps inner (update (part? (.obj ps)) name none))
    (hs : OffersBy parts ms (s.plunged host name)) :
    OffersBy (update (update parts host (some inner)) name (some part)) ms s := by
  have hin : ∀ t, OffersBy parts ms (t.into host name) → Offers t inner :=
    fun t ht => offers_of_into hhost hinner ht
  cases s with
  | here | never | element s | option s | plain | members | items => exact hs
  | member other s => grind [OffersBy, Sought.plunged, Function.update_apply, Offers]
  | free other => grind [OffersBy, Sought.plunged, Function.update_apply, Offers]

/-- A union with null says nothing about members, and something is left of it without null. -/
theorem offers_of_isShallow (h : Regular schema) (hfree : ∀ name, part? schema name = none)
    (hs : s.isShallow = true) : Offers s schema := by
  obtain ⟨ms, rfl⟩ := h.exists_obj
  cases s with
  | here => trivial
  | free name => exact hfree name
  | option t =>
    cases t with
    | here =>
      refine ⟨ms, rfl, fun ns hregular _ => ?_⟩
      obtain ⟨rest, hrest, -⟩ := hregular.exists_withoutNull
      exact ⟨rest, hrest, trivial⟩
    | _ => cases hs
  | _ => cases hs

/-- Of a union of null and something plain, this is left without null, over whatever is said besides. -/
private theorem exists_withoutNull_nullable {ns qs : Members} (hqs : Regular (.obj qs))
    (hplain : Offers .plain (.obj qs))
    (hsame : SameOptions [(.str "anyOf", .arr [.obj [("type", .str "null")], .obj qs])] ns) :
    ∃ rs : Members, withoutNull (.obj ns) = .ok (.obj rs) ∧ ∀ keyword : String, keyword ≠ "default" →
      rs.get? keyword = (qs.get? keyword).or (Members.get? (ns.without "anyOf") keyword) := by
  obtain ⟨_, heq, htype, honeOf⟩ := hplain
  obtain rfl := Json.obj.inj heq
  have hoptions : optionsWithoutNull [.obj [("type", .str "null")], .obj qs] = .ok [.obj qs] := by
    rw [Members.valueOf] at htype
    simp [optionsWithoutNull, WellShaped.lookup_obj, htype, Members.valueOf, Members.get?_cons, pure, Except.pure]
  have hunion : unionWithoutNull "anyOf" ns = .ok ((ns.without "anyOf").putAll qs) := by
    rw [unionWithoutNull, hsame.anyOf]
    simp [Members.get?_cons, Json.asList, hoptions]
    rfl
  have hget : ∀ keyword : String, Members.get? ((ns.without "anyOf").putAll qs) keyword =
      (qs.get? keyword).or (Members.get? (ns.without "anyOf") keyword) :=
    fun _ => Members.get?_putAll hqs.distinct
  have hunion' : unionWithoutNull "oneOf" ((ns.without "anyOf").putAll qs) =
      .ok ((ns.without "anyOf").putAll qs) := by
    rw [unionWithoutNull, hget, honeOf, Members.get?_without, if_neg (by simp), hsame.oneOf]
    rfl
  have htypes : ns.get? "type" = none := hsame.type
  simp only [withoutNull, Json.asObject, Except.bind_ok, htypes, hunion, hunion']
  split
  · refine ⟨_, rfl, fun keyword hne => ?_⟩
    rw [Members.get?_without, if_neg (by simpa using Ne.symm hne), hget]
  · exact ⟨_, rfl, fun keyword _ => hget keyword⟩

/-- What is looked for in elements is looked for beside null, where they come back to it. -/
theorem offers_option_nullable (hps : Regular (.obj ps)) (hkept : ∀ t ∈ (Sought.option s).kept, Offers t (.obj ps))
    (hs : Offers (.element s) (.obj ps)) : Offers (.option s) (nullable (elements ps)) := by
  by_cases hhere : s = .here
  · subst hhere
    exact offers_of_isShallow hps.elements.nullable (fun _ => rfl) rfl
  obtain ⟨_, heq, hhas⟩ : Offers .items (.obj ps) := hkept _ (by cases s <;> simp_all [Sought.kept])
  obtain rfl := Json.obj.inj heq
  obtain ⟨part, hitems⟩ := Members.has_iff.1 hhas
  obtain ⟨qs, rfl⟩ := (hps.of_items hitems).exists_obj
  have hplain : Offers .plain (.obj qs) :=
    offers_of_element (hkept _ (by cases s <;> simp_all [Sought.kept])) hitems
  replace hs : Offers s (.obj qs) := offers_of_element hs hitems
  rw [elements, hitems]
  refine ⟨_, rfl, fun (ns : Members) _ hsame => ?_⟩
  obtain ⟨rs, hrs, hget⟩ := exists_withoutNull_nullable (hps.of_items hitems) hplain hsame
  refine ⟨_, hrs, ?_⟩
  have hnone : ∀ keyword : String, ns.get? keyword = none → keyword ≠ "default" →
      rs.get? keyword = qs.get? keyword := fun keyword hkeyword hne => by
    rw [hget keyword hne, Members.get?_without, hkeyword]
    simp
  have hnoItems : ns.get? "items" = none := Members.has_eq_false.1 hsame.items
  have hsame' : SameOptions qs rs := by
    refine ⟨hnone _ hsame.type (by simp), ?_, hnone _ hsame.oneOf (by simp), ?_⟩
    · rw [hget _ (by simp), Members.get?_without, if_pos (by simp), Option.or_none]
    · rw [Members.has, Members.has, hnone _ hnoItems (by simp)]
  have hproperties : qs.has "properties" = true → part? (.obj rs) = part? (.obj qs) := fun hhas => by
    obtain ⟨v, hv⟩ := Members.has_iff.1 hhas
    exact part?_congr (by rw [hget _ (by simp), hv, Option.some_or])
  have hold : OffersBy (part? (.obj rs)) qs s := by
    cases hhas : qs.has "properties" with
    | true => rwa [hproperties hhas, offersBy_part?]
    | false =>
      have hundescribed : ∀ name : String, part? (.obj qs) name = none := fun name => by
        rw [part?, memberSchemas_of_get? (.inl ⟨Members.has_eq_false.1 hhas, rfl⟩)]
        rfl
      cases s with
      | member name t =>
        obtain ⟨part, hpart, -⟩ := hs
        rw [hundescribed] at hpart
        cases hpart
      | free name =>
        obtain ⟨_, heq, hmembers⟩ := offers_of_element (hkept (.element .members) (by simp [Sought.kept])) hitems
        obtain rfl := Json.obj.inj heq
        rw [hhas] at hmembers
        cases hmembers
      | _ => exact hs
  refine offers_of_offersBy hsame' (hnone _ hnoItems (by simp)) (fun hhas => ?_) hold
  obtain ⟨v, hv⟩ := Members.has_iff.1 hhas
  simp [Members.has, hget, hv]

theorem isArray_of_offers (h : Offers (.element s) (.obj ms)) : isArray ms = true := by
  obtain ⟨_, heq, hms⟩ := h
  obtain rfl := Json.obj.inj heq
  rcases hms with ⟨part, hitems, -⟩ | ⟨-, harray⟩
  · simp [isArray, Members.has, hitems]
  · simp [isArray, harray]

/-- Other descriptions of elements change nothing besides. -/
theorem offers_put_items (hitems : ms.get? "items" = some part) (hs : s.inElement? = none) :
    Offers s (.obj (ms.put "items" inner)) ↔ Offers s (.obj ms) := by
  have heq : ∀ keyword : String, keyword ≠ "items" →
      Members.get? (ms.put "items" inner) keyword = ms.get? keyword := fun keyword hne => by
    simp [Members.get?_put, hne.symm]
  have hparts : part? (.obj (ms.put "items" inner)) = part? (.obj ms) := part?_congr (heq _ (by simp))
  have hsame : SameOptions ms (ms.put "items" inner) := ⟨heq _ (by simp), heq _ (by simp), heq _ (by simp), by
    simp [Members.has, hitems]⟩
  cases s with
  | here | never => rfl
  | member name s => simp only [Offers, hparts]
  | free name => simp only [Offers, hparts]
  | plain => simp [Offers, Members.valueOf, hsame.type, hsame.oneOf]
  | members => simp [Offers, Members.has, heq "properties" (by simp)]
  | items => simp [Offers, hsame.items]
  | element s => cases hs
  | option s => exact offers_option_congr hsame

end Moving

end Schema

end EditLens
