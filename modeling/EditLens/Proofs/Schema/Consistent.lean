import EditLens.Proofs.Lens.Retelling
import EditLens.Proofs.Schema.Revising
import EditLens.Proofs.Schema.Simple

/-! Schemas whose required names are among the described ones. Main statement: a lens leads from such a schema to such
a schema, if it takes no first elements and gives no member the name of another one. -/
namespace EditLens

private theorem Json.same_scalar (a b : Scalar) : (Json.scalar a).same (.scalar b) = a.same b := by rw [Json.same]

private theorem Json.eq_scalar_of_asKey {v : Json} {key : Scalar} (h : v.asKey = .ok key) : v = .scalar key := by
  cases v with
  | scalar s => exact congrArg Json.scalar (Except.ok.inj h)
  | _ => cases h

namespace Schema

variable {ms ns props : Members} {names : List Json} {name part schema next : Json} {key : Scalar}

structure Listing (props : Members) (names : List Json) : Prop where
  distinct : names.Pairwise fun m n => m.same n = false
  described : ∀ n ∈ names, ∃ key, n = .scalar key ∧ props.has key = true

namespace Listing

private theorem mono (h : Listing props names) (hprops : ∀ key, props.has key = true → ns.has key = true) :
    Listing ns names :=
  ⟨h.distinct, fun n hn => (h.described n hn).imp fun _ hkey => ⟨hkey.1, hprops _ hkey.2⟩⟩

private theorem unlisted (h : Listing props names) (key : Scalar) :
    Listing (props.without key) (Schema.unlisted names (.scalar key)) := by
  refine ⟨h.distinct.filter _, fun n hn => ?_⟩
  obtain ⟨hn, hne⟩ := List.mem_filter.1 hn
  obtain ⟨k, rfl, hk⟩ := h.described n hn
  rw [Json.same_scalar, Scalar.same_comm] at hne
  exact ⟨k, rfl, by rw [Members.has_without, hne, hk]; rfl⟩

private theorem enlisted (h : Listing props names) (hkey : props.has key = true) :
    Listing props (Schema.enlisted names (.scalar key)) := by
  rw [Schema.enlisted]
  split
  · exact h
  · rename_i hnew
    refine ⟨List.pairwise_append.2 ⟨h.distinct, List.pairwise_singleton _ _, fun n hn m hm => ?_⟩, fun n hn => ?_⟩
    · obtain rfl := List.mem_singleton.1 hm
      rw [Bool.eq_false_iff]
      exact fun hsame => hnew (List.any_eq_true.2 ⟨n, hn, hsame⟩)
    · rcases List.mem_append.1 hn with hn | hn
      · exact h.described n hn
      · obtain rfl := List.mem_singleton.1 hn
        exact ⟨key, rfl, hkey⟩

private theorem put (h : Listing props names) (key : Scalar) (part : Json) : Listing (props.put key part) names :=
  h.mono fun other hother => by rw [Members.has_put, hother, Bool.or_true]

/-- A member is described, and its name becomes a required one or not. -/
private theorem putting (h : Listing props names) (key : Scalar) (part : Json) (isRequired : Bool) :
    Listing (props.put key part) (if isRequired then Schema.enlisted names (.scalar key) else names) := by
  split
  · exact (h.put key part).enlisted Members.has_put_self
  · exact h.put key part

/-- One of the names is replaced, by the name of no other described member. -/
private theorem replaced {source destination : Scalar} (h : Listing props names) (hnew : props.has destination = false)
    (hsource : ns.has destination = true)
    (hothers : ∀ key, props.has key = true → key.same source = false → ns.has key = true) :
    Listing ns (Schema.replaced names (.scalar source) (.scalar destination)) := by
  have hfree : ∀ k, props.has k = true → k.same destination = false := fun k hk => by
    rw [Scalar.same_comm]
    exact Members.same_eq_false_of_has hnew hk
  refine ⟨?_, fun n hn => ?_⟩
  · rw [Schema.replaced, List.pairwise_map]
    refine h.distinct.imp_of_mem fun {a b} ha hb hab => ?_
    obtain ⟨k, rfl, hk⟩ := h.described a ha
    obtain ⟨l, rfl, hl⟩ := h.described b hb
    simp only [Json.same_scalar] at hab ⊢
    split <;> split
    · rename_i hks hls
      rw [Scalar.same_trans hks (by rwa [Scalar.same_comm])] at hab
      cases hab
    · rw [Json.same_scalar, Scalar.same_comm]
      exact hfree l hl
    · rw [Json.same_scalar]
      exact hfree k hk
    · rwa [Json.same_scalar]
  · obtain ⟨n', hn', rfl⟩ := List.mem_map.1 hn
    split
    · exact ⟨destination, rfl, hsource⟩
    · rename_i hne
      obtain ⟨k, rfl, hk⟩ := h.described n' hn'
      rw [Json.same_scalar, Bool.not_eq_true] at hne
      exact ⟨k, rfl, hothers k hk hne⟩

end Listing

def propertiesOf (ms : Members) : Members :=
  match properties ms with
  | .ok props => props
  | .error _ => []

private theorem propertiesOf_eq (h : properties ms = .ok props) : propertiesOf ms = props := by rw [propertiesOf, h]

/-- Schemas without alternatives in which, at each level, the required names are those of described members, and none
of them is there twice. A member is described by one schema; the elements of an array may have one each. -/
inductive Consistent : Json → Prop
  | scalar (s : Scalar) : Consistent (.scalar s)
  | tuple {es : List Json} (parts : ∀ e ∈ es, Consistent e) : Consistent (.arr es)
  | obj {ms : Members} (anyOf : ms.get? "anyOf" = none) (oneOf : ms.get? "oneOf" = none)
    (listing : ∀ names, required ms = .ok names → Listing (propertiesOf ms) names)
    (members : ∀ m ∈ propertiesOf ms, Consistent m.2) (single : ∀ m ∈ propertiesOf ms, ∀ es, m.2 ≠ .arr es)
    (items : ∀ part, ms.get? "items" = some part → Consistent part) : Consistent (.obj ms)

abbrev Describing (part : Json) : Prop := Consistent part ∧ ∀ es, part ≠ .arr es

namespace Consistent

private theorem describing (h : Consistent (.obj ms)) : Describing (.obj ms) := ⟨h, nofun⟩

private theorem members_of_properties (h : Consistent (.obj ms)) (hprops : properties ms = .ok props) :
    ∀ m ∈ props, Describing m.2 := by
  obtain - | - | ⟨-, -, -, members, single, -⟩ := h
  rw [propertiesOf_eq hprops] at members single
  exact fun m hm => ⟨members m hm, single m hm⟩

private theorem of_get? (h : Consistent (.obj ms)) (hprops : properties ms = .ok props)
    (hpart : props.get? key = some part) :
    Describing part := by
  obtain ⟨k, hmem, -⟩ := Members.exists_mem_of_get? hpart
  exact h.members_of_properties hprops _ hmem

private theorem listing_of (h : Consistent (.obj ms)) (hprops : properties ms = .ok props)
    (hnames : required ms = .ok names) : Listing props names := by
  obtain - | - | ⟨-, -, listing, -, -, -⟩ := h
  rw [← propertiesOf_eq hprops]
  exact listing names hnames

private theorem of_items (h : Consistent (.obj ms)) (hpart : ms.get? "items" = some part) : Consistent part := by
  obtain - | - | ⟨-, -, -, -, -, items⟩ := h
  exact items part hpart

/-- What is said about members is said anew, and all else is left as it is. -/
private theorem retold (h : Consistent (.obj ms))
    (heq : ∀ keyword : String, keyword ≠ "properties" → keyword ≠ "required" → ns.get? keyword = ms.get? keyword)
    (hprops : properties ns = .ok props) (hmembers : ∀ m ∈ props, Describing m.2)
    (hlisting : ∀ names, Schema.required ns = .ok names → Listing props names) : Consistent (.obj ns) := by
  obtain - | - | ⟨anyOf, oneOf, -, -, -, items⟩ := h
  refine .obj ?_ ?_ ?_ ?_ ?_ ?_
  · rwa [heq _ (by simp) (by simp)]
  · rwa [heq _ (by simp) (by simp)]
  · rwa [propertiesOf_eq hprops]
  · rw [propertiesOf_eq hprops]
    exact fun m hm => (hmembers m hm).1
  · rw [propertiesOf_eq hprops]
    exact fun m hm => (hmembers m hm).2
  · rwa [heq _ (by simp) (by simp)]

private theorem told (h : Consistent (.obj ms)) (hmembers : ∀ m ∈ props, Describing m.2)
    (hlisting : Listing props names) :
    Consistent (.obj ((Revision.told props names).write ms)) := by
  have hprops : properties ((Revision.told props names).write ms) = .ok props := by simp [Revision.write]
  refine h.retold (fun keyword hne hne' => ?_) hprops hmembers fun names' hnames => ?_
  · rw [Revision.write, get?_withRequired _ hne', get?_withProperties hne]
  · rw [Revision.write, required_withRequired] at hnames
    rwa [← Except.ok.inj hnames]

private theorem described (h : Consistent (.obj ms)) (hprops : properties ms = .ok props) (hpart : Describing part)
    (key : Scalar) : Consistent (.obj ((Revision.described (props.put key part)).write ms)) := by
  refine h.retold (fun keyword hne _ => get?_withProperties hne) properties_withProperties
    (Members.forall_mem_put (h.members_of_properties hprops) hpart key) fun names hnames => ?_
  rw [Revision.write, required_withProperties] at hnames
  exact (h.listing_of hprops hnames).put key part

/-- What a schema says of elements may change, if it is consistent in turn, and what is not about parts. -/
private theorem relisted (h : Consistent (.obj ms))
    (heq : ∀ keyword ∈ ["anyOf", "oneOf", "properties", "required"], ns.get? (.str keyword) = ms.get? (.str keyword))
    (hitems : ∀ part, ns.get? "items" = some part → Consistent part) : Consistent (.obj ns) := by
  have hprops : propertiesOf ns = propertiesOf ms := by
    rw [propertiesOf, propertiesOf, properties, properties, Members.valueOf, Members.valueOf, heq _ (by simp)]
  have hnames : Schema.required ns = Schema.required ms := by
    rw [Schema.required, Schema.required, Members.valueOf, Members.valueOf, heq _ (by simp)]
  obtain - | - | ⟨anyOf, oneOf, listing, members, single, -⟩ := h
  refine .obj ?_ ?_ ?_ ?_ ?_ hitems
  · rwa [heq _ (by simp)]
  · rwa [heq _ (by simp)]
  · rwa [hprops, hnames]
  · rwa [hprops]
  · rwa [hprops]

private theorem enumerating (h : Consistent (.obj ms)) (hpart : Consistent part) :
    Consistent (.obj (ms.put "items" part)) := by
  refine h.relisted (fun keyword hkeyword => ?_) fun part' hpart' => ?_
  · have hne : "items" ≠ keyword := by
      rintro rfl
      simp at hkeyword
    rw [Members.get?_put, if_neg (by simpa using hne)]
  · rw [Members.get?_put_self] at hpart'
    rwa [← Option.some.inj hpart']

/-- Neither the type, nor the default, nor the values that are listed matter. -/
private theorem congr (h : Consistent (.obj ms)) (heq : ∀ keyword : String, keyword ≠ "type" → keyword ≠ "default" →
    keyword ≠ "enum" → ns.get? keyword = ms.get? keyword) : Consistent (.obj ns) := by
  refine h.relisted (fun keyword hkeyword => ?_) fun part hpart => ?_
  · refine heq keyword ?_ ?_ ?_ <;> rintro rfl <;> simp at hkeyword
  · rw [heq _ (by simp) (by simp) (by simp)] at hpart
    exact h.of_items hpart

private theorem emptyObject : Consistent (.obj []) :=
  .obj rfl rfl (fun _ hnames => Except.ok.inj hnames ▸ ⟨.nil, by simp⟩) (fun _ hm => by cases hm)
    (fun _ hm => by cases hm) fun _ hpart => by cases hpart

private theorem typed (type : Json) : Consistent (.obj [("type", type)]) := by
  refine emptyObject.congr fun keyword htype _ _ => ?_
  simp [Members.get?_cons, Ne.symm htype]

private theorem typedDefault (type default : Json) : Consistent (.obj [("type", type), ("default", default)]) := by
  refine emptyObject.congr fun keyword htype hdefault _ => ?_
  simp [Members.get?_cons, Ne.symm htype, Ne.symm hdefault]

private theorem arrayOf (h : Consistent part) : Consistent (Schema.arrayOf part) := (typedDefault _ _).enumerating h

private theorem of_ofProperty {property : Property} (h : ofProperty property = .ok part) : Describing part := by
  obtain ⟨description, hdescription, h⟩ := Except.exists_of_bind h
  obtain ⟨type, default, rfl⟩ := eq_of_typeAndDefault hdescription
  split at h
  · obtain ⟨_, -, h⟩ := Except.exists_of_bind h
    obtain ⟨_, -, h⟩ := Except.exists_of_bind h
    obtain ⟨items, hitems, h⟩ := Except.exists_of_bind h
    obtain ⟨itemType, itemDefault, rfl⟩ := eq_of_typeAndDefault hitems
    obtain rfl := Except.ok.inj h
    exact ((typedDefault type default).enumerating (typedDefault itemType itemDefault)).describing
  · obtain rfl := Except.ok.inj h
    exact (typedDefault type default).describing

private theorem of_withoutNull (h : Consistent part) (hnext : withoutNull part = .ok next) : Consistent next := by
  cases part with
  | scalar s => cases hnext
  | arr es => cases hnext
  | obj ms =>
    obtain ⟨anyOf, oneOf⟩ : Members.get? ms "anyOf" = none ∧ Members.get? ms "oneOf" = none := by
      obtain - | - | ⟨anyOf, oneOf, -, -, -, -⟩ := h
      exact ⟨anyOf, oneOf⟩
    obtain ⟨ns, hns, hget, -⟩ := withoutNull_cases anyOf oneOf
    obtain rfl := Except.ok.inj (hns.symm.trans hnext)
    exact h.congr fun keyword htype hdefault _ => hget keyword htype hdefault

/-- No scalar but the empty text is read as an object, and that one has no members. -/
private theorem eq_nil_of_asMembers {s : Scalar} (h : (Json.scalar s).asMembers = .ok ms) : ms = [] := by
  obtain ⟨entries, hentries, h⟩ := Except.exists_of_bind h
  obtain ⟨members, hmembers, h⟩ := Except.exists_of_bind h
  cases s with
  | str text =>
    obtain rfl := Except.ok.inj hentries
    cases htext : text.toList with
    | nil =>
      rw [htext] at hmembers
      obtain rfl := Except.ok.inj hmembers
      exact (Except.ok.inj h).symm
    | cons c rest =>
      have hentry : (Json.str (.singleton c)).asEntry = .error .wrongShape := by
        simp only [Json.asEntry, Json.asList, String.toList_singleton, Except.bind_ok]
        rfl
      rw [htext, List.map_cons, List.mapM_cons, hentry] at hmembers
      cases hmembers
  | _ => cases hentries

private theorem of_asMembers (h : Describing part) (hms : part.asMembers = .ok ms) : Consistent (.obj ms) := by
  cases part with
  | scalar s =>
    obtain rfl := eq_nil_of_asMembers hms
    exact emptyObject
  | arr es => exact absurd rfl (h.2 es)
  | obj ns =>
    obtain rfl := Except.ok.inj hms
    exact h.1

private theorem put_of_ne (h : Consistent (.obj ms)) {keyword : String}
    (hkeyword : keyword = "enum" ∨ keyword = "default")
    (v : Json) : Consistent (.obj (ms.put keyword v)) := by
  refine h.congr fun other _ hdefault henum => ?_
  have hne : keyword ≠ other := by
    rintro rfl
    rcases hkeyword with rfl | rfl
    · exact henum rfl
    · exact hdefault rfl
  rw [Members.get?_put, if_neg (by simpa using hne)]

private theorem of_converted {mapping : Mapping} {type : Json} (h : Describing part)
    (hnext : converted mapping type part = .ok next) : Describing next := by
  rw [converted] at hnext
  split at hnext
  · obtain rfl := Except.ok.inj hnext
    exact (typed type).describing
  · obtain ⟨ms, hms, hnext⟩ := Except.exists_of_bind hnext
    have hread := of_asMembers h hms
    dsimp only at hnext
    -- the values that are listed are converted first, the default after them
    split at hnext
    · obtain ⟨values, -, hnext⟩ := Except.exists_of_bind hnext
      obtain rfl := Except.ok.inj hnext
      have hlisted := hread.put_of_ne (.inl rfl) (.arr (values.map fun v => (mapping.recode? v).getD v))
      refine describing ?_
      split
      · exact hlisted.put_of_ne (.inr rfl) _
      · exact hlisted
    · obtain rfl := Except.ok.inj hnext
      refine describing ?_
      split
      · exact hread.put_of_ne (.inr rfl) _
      · exact hread

private theorem of_takenOut {host left : Json} {isRequired : Bool} (h : Consistent schema)
    (htaken : takenOut schema host name = .ok (part, isRequired, left)) : Describing part ∧ Describing left := by
  cases schema with
  | scalar s => cases htaken
  | arr es => cases htaken
  | obj ms =>
    obtain ⟨ms', hms, htaken⟩ := Except.exists_of_bind htaken
    obtain rfl := Except.ok.inj hms
    obtain ⟨props, hprops, htaken⟩ := Except.exists_of_bind htaken
    obtain ⟨key, hkey, htaken⟩ := Except.exists_of_bind htaken
    cases hpart : props.get? key with
    | none => rw [hpart] at htaken; cases htaken
    | some taken =>
      rw [hpart] at htaken
      obtain ⟨names, hnames, htaken⟩ := Except.exists_of_bind htaken
      obtain ⟨rfl, -, rfl⟩ : taken = part ∧ _ ∧ _ = left := by simpa using Except.ok.inj htaken
      rw [Json.eq_scalar_of_asKey hkey]
      have hleft := h.told (Members.forall_mem_without (h.members_of_properties hprops) key)
        ((h.listing_of hprops hnames).unlisted key)
      exact ⟨h.of_get? hprops hpart, hleft.describing⟩

private theorem of_putInto {isRequired : Bool} (h : Consistent schema) (hpart : Describing part)
    (hput : putInto schema part (.scalar key) key isRequired = .ok next) : Describing next := by
  cases schema with
  | scalar s => cases hput
  | arr es => cases hput
  | obj ms =>
    obtain ⟨ms', hms, hput⟩ := Except.exists_of_bind hput
    obtain rfl := Except.ok.inj hms
    obtain ⟨props, hprops, hput⟩ := Except.exists_of_bind hput
    obtain ⟨names, hnames, hput⟩ := Except.exists_of_bind hput
    obtain rfl := Except.ok.inj hput
    exact (h.told (Members.forall_mem_put (h.members_of_properties hprops) hpart key)
      ((h.listing_of hprops hnames).putting key part isRequired)).describing

end Consistent

end Schema

open Schema

mutual

/-- Whether an operation takes no first element, at any depth, and renames to no name that is described where the
renaming takes place. -/
def LensOp.Fresh (schema : Json) : LensOp → Prop
  | .rename _ destination => ∀ ms key, schema = .obj ms → destination.asKey = .ok key →
    (propertiesOf ms).has key = false
  | .head _ => False
  | .inside name lens => ∀ ms part, schema = .obj ms → described ms name .inside = .ok part → Lens.Fresh part lens
  | .each lens => ∀ ms part, schema = .obj ms → Members.get? ms "items" = some part → Lens.Fresh part lens
  | _ => True

def Lens.Fresh (schema : Json) : Lens → Prop
  | [] => True
  | op :: rest => op.Fresh schema ∧ ∀ next, (op.follow schema).outcome = .ok next → Lens.Fresh next rest

end

namespace LensOp

variable {ms props : Members} {name part next : Json} {schema : Json} {r : Revision}

private theorem consistent_redescribe {step : SchemaStep} {f : Json → Except Fault Json} (h : Consistent (.obj ms))
    (hf : ∀ part part', described ms name step = .ok part → Describing part → f part = .ok part' → Describing part')
    (hr : (do redescribe (← (roster ms).properties) name step f) = .ok r) : Consistent (.obj (r.write ms)) := by
  obtain ⟨props, hprops, hr⟩ := Except.exists_of_bind hr
  obtain ⟨key, hkey, hr⟩ := Except.exists_of_bind hr
  replace hprops : properties ms = .ok props := hprops
  cases hpart : props.get? key with
  | none => rw [hpart] at hr; cases hr
  | some part =>
    rw [hpart] at hr
    obtain ⟨part', hpart', hr⟩ := Except.exists_of_bind hr
    obtain rfl := Except.ok.inj hr
    have hdescribed : described ms name step = .ok part := by
      rw [described, hprops, Except.bind_ok, hkey, Except.bind_ok, hpart]
      rfl
    exact h.described hprops (hf part part' hdescribed (h.of_get? hprops hpart) hpart') key

private theorem consistent_rename {source destination : Json} (h : Consistent (.obj ms))
    (hfresh : ∀ key, destination.asKey = .ok key → (propertiesOf ms).has key = false)
    (hr : (LensOp.rename source destination).revise (roster ms) = .ok r) : Consistent (.obj (r.write ms)) := by
  obtain ⟨props, hprops, hr⟩ := Except.exists_of_bind hr
  obtain ⟨key, hkey, hr⟩ := Except.exists_of_bind hr
  replace hprops : properties ms = .ok props := hprops
  cases hhas : props.has key with
  | false =>
    rw [hhas] at hr
    obtain rfl := Except.ok.inj hr
    exact h
  | true =>
    rw [hhas] at hr
    obtain ⟨key', hkey', hr⟩ := Except.exists_of_bind hr
    obtain ⟨names, hnames, hr⟩ := Except.exists_of_bind hr
    obtain rfl := Except.ok.inj hr
    have hnew := hfresh key' hkey'
    rw [propertiesOf_eq hprops] at hnew
    obtain rfl := Json.eq_scalar_of_asKey hkey
    obtain rfl := Json.eq_scalar_of_asKey hkey'
    -- the new name was free, so the members are the old ones but for the renamed one
    refine h.told (Members.forall_mem_putAll (by simp) fun m hm => ?_)
      ((h.listing_of hprops hnames).replaced hnew ?_ fun other hother hne => ?_)
    · obtain ⟨n, hn, rfl⟩ := List.mem_map.1 hm
      exact h.members_of_properties hprops n hn
    · exact Members.has_ofEntries.trans (Members.has_renamed_destination hnew hhas)
    · have hapart := Members.same_eq_false_of_has hnew hother
      exact Members.has_ofEntries.trans ((Members.has_renamed_of_ne hne hapart).trans hother)

private theorem consistent_hoist {host name : Json} (h : Consistent (.obj ms))
    (hr : (LensOp.hoist host name).revise (roster ms) = .ok r) : Consistent (.obj (r.write ms)) := by
  obtain ⟨props, hprops, hr⟩ := Except.exists_of_bind hr
  obtain ⟨hostKey, hhost, hr⟩ := Except.exists_of_bind hr
  replace hprops : properties ms = .ok props := hprops
  cases houter : props.get? hostKey with
  | none => rw [houter] at hr; cases hr
  | some outer =>
    rw [houter] at hr
    obtain ⟨⟨part, isRequired, left⟩, htaken, hr⟩ := Except.exists_of_bind hr
    obtain ⟨key, hkey, hr⟩ := Except.exists_of_bind hr
    obtain ⟨names, hnames, hr⟩ := Except.exists_of_bind hr
    obtain rfl := Except.ok.inj hr
    obtain rfl := Json.eq_scalar_of_asKey hkey
    obtain ⟨hpart, hleft⟩ := (h.of_get? hprops houter).1.of_takenOut htaken
    exact h.told (Members.forall_mem_put (Members.forall_mem_put (h.members_of_properties hprops) hleft _) hpart _)
      (((h.listing_of hprops hnames).put hostKey left).putting key part isRequired)

private theorem consistent_plunge {host name : Json} (h : Consistent (.obj ms))
    (hr : (LensOp.plunge host name).revise (roster ms) = .ok r) : Consistent (.obj (r.write ms)) := by
  obtain ⟨props, hprops, hr⟩ := Except.exists_of_bind hr
  obtain ⟨hostKey, hhost, hr⟩ := Except.exists_of_bind hr
  replace hprops : properties ms = .ok props := hprops
  split at hr
  · cases hr
  obtain ⟨key, hkey, hr⟩ := Except.exists_of_bind hr
  cases hpart : props.get? key with
  | none =>
    rw [hpart] at hr
    obtain rfl := Except.ok.inj hr
    exact h
  | some part =>
    rw [hpart] at hr
    obtain ⟨names, hnames, hr⟩ := Except.exists_of_bind hr
    obtain ⟨inner, hinner, hr⟩ := Except.exists_of_bind hr
    obtain ⟨outer, houter, hr⟩ := Except.exists_of_bind hr
    obtain rfl := Except.ok.inj hr
    obtain rfl := Json.eq_scalar_of_asKey hkey
    have hothers := Members.forall_mem_without (h.members_of_properties hprops) key
    have hhost : Describing inner := by
      rw [Members.demand] at hinner
      split at hinner
      · rename_i found hget
        obtain rfl := Except.ok.inj hinner
        obtain ⟨k, hmem, -⟩ := Members.exists_mem_of_get? hget
        exact hothers _ hmem
      · cases hinner
    exact h.told (Members.forall_mem_put hothers (hhost.1.of_putInto (h.of_get? hprops hpart) houter) hostKey)
      (((h.listing_of hprops hnames).unlisted key).put hostKey outer)

private theorem consistent_add {property : Property} (h : Consistent (.obj ms))
    (hr : (LensOp.add property).revise (roster ms) = .ok r) : Consistent (.obj (r.write ms)) := by
  rw [revise] at hr
  split at hr
  · cases hr
  obtain ⟨props, hprops, hr⟩ := Except.exists_of_bind hr
  obtain ⟨description, hdescription, hr⟩ := Except.exists_of_bind hr
  obtain ⟨key, hkey, hr⟩ := Except.exists_of_bind hr
  obtain ⟨names, hnames, hr⟩ := Except.exists_of_bind hr
  obtain rfl := Except.ok.inj hr
  replace hprops : properties ms = .ok props := hprops
  rw [Json.eq_scalar_of_asKey hkey]
  refine h.told (Members.forall_mem_put (h.members_of_properties hprops) (Consistent.of_ofProperty hdescription) _) ?_
  have hlisting := (h.listing_of hprops hnames).put key description
  split
  · exact hlisting
  · exact hlisting.enlisted Members.has_put_self

private theorem consistent_remove {property : Property} (h : Consistent (.obj ms))
    (hr : (LensOp.remove property).revise (roster ms) = .ok r) : Consistent (.obj (r.write ms)) := by
  obtain ⟨props, hprops, hr⟩ := Except.exists_of_bind hr
  obtain ⟨key, hkey, hr⟩ := Except.exists_of_bind hr
  obtain ⟨names, hnames, hr⟩ := Except.exists_of_bind hr
  obtain rfl := Except.ok.inj hr
  rw [Json.eq_scalar_of_asKey hkey]
  exact h.told (Members.forall_mem_without (h.members_of_properties hprops) key)
    ((h.listing_of hprops hnames).unlisted key)

/-- Only objects are followed. -/
private theorem exists_obj_of_follow {op : LensOp} (h : (LensOp.follow schema op).outcome = .ok next) :
    ∃ ms : Members, schema = .obj ms := by
  by_contra hne
  have hobject : schema.asObject = .error .notAnObject := by
    cases schema <;> first | rfl | exact absurd ⟨_, rfl⟩ hne
  cases op with
  | each lens =>
    simp only [LensOp.follow, Noted.outcome_bind, Noted.outcome_liftM] at h
    obtain ⟨mentions, -, h⟩ := Except.exists_of_bind h
    cases mentions with
    | true => cases schema <;> first | exact hne ⟨_, rfl⟩ | cases h
    | false =>
      simp only [Bool.false_eq_true, if_false, Noted.outcome_bind, Noted.outcome_liftM, Json.lookup, hobject] at h
      cases h
  | add property =>
    simp only [LensOp.follow, Schema.followFlat, Schema.add, hobject, Noted.outcome_bind, Noted.outcome_liftM] at h
    split at h <;> cases h
  | _ =>
    simp only [LensOp.follow, Schema.followFlat, hobject, Noted.outcome_bind, Noted.outcome_liftM] at h
    cases h

private theorem exists_revision {op : LensOp} (heach : ∀ lens, op ≠ .each lens)
    (h : (LensOp.follow (.obj ms) op).outcome = .ok next) :
    ∃ r, op.revise (roster ms) = .ok r ∧ next = .obj (r.write ms) := by
  rw [outcome_follow_eq heach] at h
  cases hr : op.revise (roster ms) with
  | error fault => rw [hr] at h; cases h
  | ok r =>
    rw [hr] at h
    exact ⟨r, rfl, (Except.ok.inj h).symm⟩

/-- What comes out of a lens for elements has the elements described anew, if they are described at all. -/
private theorem exists_followed_items {lens : Lens} (h : (LensOp.follow (.obj ms) (.each lens)).outcome = .ok next) :
    next = .obj ms ∨ ∃ part inner, ms.get? "items" = some part ∧ (Lens.follow part lens).outcome = .ok inner ∧
      next = .obj (ms.put "items" inner) := by
  cases hitems : ms.get? "items" with
  | none =>
    exact .inl (Except.ok.inj (h.symm.trans (follow_each_unknown hitems (isArray_of_follow_each hitems h))))
  | some part =>
    obtain ⟨inner, hinner⟩ := exists_followed_each hitems h
    exact .inr ⟨part, inner, rfl, hinner, Except.ok.inj (h.symm.trans (follow_each hitems hinner))⟩

private theorem single_follow {op : LensOp} (h : (LensOp.follow schema op).outcome = .ok next) (es : List Json) :
    next ≠ .arr es := by
  obtain ⟨ms, rfl⟩ := exists_obj_of_follow h
  by_cases heach : ∃ lens, op = .each lens
  · obtain ⟨lens, rfl⟩ := heach
    rcases exists_followed_items h with rfl | ⟨_, _, -, -, rfl⟩ <;> nofun
  · obtain ⟨r, -, rfl⟩ := exists_revision (fun lens hop => heach ⟨lens, hop⟩) h
    nofun

end LensOp

private theorem Lens.single_follow {schema next : Json} (lens : Lens) (hschema : ∀ es, schema ≠ .arr es)
    (h : (Lens.follow schema lens).outcome = .ok next) : ∀ es, next ≠ .arr es := by
  induction lens generalizing schema with
  | nil =>
    obtain rfl := Except.ok.inj h
    exact hschema
  | cons op rest ih =>
    rw [Lens.follow, Noted.outcome_bind] at h
    obtain ⟨mid, hmid, h⟩ := Except.exists_of_bind h
    exact ih (LensOp.single_follow hmid) h

-- The recursion is over the lens. What is consistent changes at each operation, and lenses for a part are followed on
-- the schema of that part.
mutual

private theorem LensOp.keeps_consistent (op : LensOp) {schema next : Json} (h : Consistent schema)
    (hfresh : op.Fresh schema) (hnext : (LensOp.follow schema op).outcome = .ok next) : Consistent next := by
  obtain ⟨ms, rfl⟩ := LensOp.exists_obj_of_follow hnext
  match op with
  | .each lens =>
    rcases LensOp.exists_followed_items hnext with rfl | ⟨part, inner, hitems, hinner, rfl⟩
    · exact h
    · rw [LensOp.Fresh] at hfresh
      exact h.enumerating (Lens.keeps_consistent lens (h.of_items hitems) (hfresh ms part rfl hitems) hinner)
  | .inside name lens =>
    obtain ⟨r, hr, rfl⟩ := LensOp.exists_revision (by simp) hnext
    rw [LensOp.Fresh] at hfresh
    exact LensOp.consistent_redescribe h (fun part inner hdescribed hpart hinner =>
      ⟨Lens.keeps_consistent lens hpart.1 (hfresh ms part rfl hdescribed) hinner,
        Lens.single_follow lens hpart.2 hinner⟩) hr
  | .wrap name =>
    obtain ⟨r, hr, rfl⟩ := LensOp.exists_revision (by simp) hnext
    refine LensOp.consistent_redescribe h (fun part inner _ hpart hinner => ?_) hr
    obtain ⟨items, hitems, hinner⟩ := Except.exists_of_bind hinner
    obtain rfl := Except.ok.inj hinner
    exact (hpart.1.of_withoutNull hitems).arrayOf.describing
  | .convert name mapping source type =>
    obtain ⟨r, hr, rfl⟩ := LensOp.exists_revision (by simp) hnext
    exact LensOp.consistent_redescribe h (fun _ _ _ hpart hinner => Consistent.of_converted hpart hinner) hr
  | .rename source destination =>
    obtain ⟨r, hr, rfl⟩ := LensOp.exists_revision (by simp) hnext
    rw [LensOp.Fresh] at hfresh
    exact LensOp.consistent_rename h (fun key => hfresh ms key rfl) hr
  | .hoist host name =>
    obtain ⟨r, hr, rfl⟩ := LensOp.exists_revision (by simp) hnext
    exact LensOp.consistent_hoist h hr
  | .plunge host name =>
    obtain ⟨r, hr, rfl⟩ := LensOp.exists_revision (by simp) hnext
    exact LensOp.consistent_plunge h hr
  | .add property =>
    obtain ⟨r, hr, rfl⟩ := LensOp.exists_revision (by simp) hnext
    exact LensOp.consistent_add h hr
  | .remove property =>
    obtain ⟨r, hr, rfl⟩ := LensOp.exists_revision (by simp) hnext
    exact LensOp.consistent_remove h hr
  | .head name => rw [LensOp.Fresh] at hfresh; exact hfresh.elim

private theorem Lens.keeps_consistent (lens : Lens) {schema next : Json} (h : Consistent schema)
    (hfresh : Lens.Fresh schema lens) (hnext : (Lens.follow schema lens).outcome = .ok next) : Consistent next := by
  match lens with
  | [] =>
    obtain rfl := Except.ok.inj hnext
    exact h
  | op :: rest =>
    rw [Lens.Fresh] at hfresh
    rw [Lens.follow, Noted.outcome_bind] at hnext
    obtain ⟨mid, hmid, hnext⟩ := Except.exists_of_bind hnext
    exact Lens.keeps_consistent rest (LensOp.keeps_consistent op h hfresh.1 hmid) (hfresh.2 mid hmid) hnext

end

/-- A lens that takes no first elements and renames to no described name leads from a schema whose required names are
those of described members, each there once, at every level, to such a schema. -/
theorem Lens.consistent_follow {lens : Lens} {schema next : Json} (h : Consistent schema) (hfresh : lens.Fresh schema)
    (hnext : (Lens.follow schema lens).outcome = .ok next) : Consistent next :=
  Lens.keeps_consistent lens h hfresh hnext

/-- A member is renamed and wrapped, and another one is renamed in an object and taken out of it. -/
theorem Lens.consistent_follow_items :
    let schema := objectOf [("a", scalarOf "string"), ("o", objectOf [("p", scalarOf "string")] [.str "p"])]
      [.str "a", .str "o"]
    let lens : Lens := [.rename (.str "a") (.str "b"), .inside (.str "o") [.rename (.str "p") (.str "q")],
      .hoist (.str "o") (.str "q"), .wrap (.str "b")]
    let next := objectOf [("b", arrayOf (scalarOf "string")), ("o", objectOf [] []), ("q", scalarOf "string")]
      [.str "b", .str "o", .str "q"]
    Consistent schema ∧ lens.Fresh schema ∧ (Lens.follow schema lens).outcome = .ok next ∧ Consistent next := by
  intro schema lens next
  have hobject : ∀ {props : Members} {names : List Json}, (∀ m ∈ props, Describing m.2) → Listing props names →
      Describing (objectOf props names) := fun hprops hnames =>
    ((Consistent.typed (.str "object")).told hprops hnames).describing
  have htext : Describing (scalarOf "string") := (Consistent.typed _).describing
  have hobj : Describing (objectOf [("p", scalarOf "string")] [.str "p"]) :=
    hobject (List.forall_mem_singleton.2 htext) ⟨by decide, by simp [Members.has, Members.get?_cons]⟩
  have hschema : Consistent schema :=
    (hobject (List.forall_mem_cons.2 ⟨htext, List.forall_mem_singleton.2 hobj⟩)
      ⟨by decide, by simp [Members.has, Members.get?_cons]⟩).1
  have hfollow : (Lens.follow schema lens).outcome = .ok next := rfl
  have hmiddle : (LensOp.follow schema (.rename (.str "a") (.str "b"))).outcome =
      .ok (objectOf [("b", scalarOf "string"), ("o", objectOf [("p", scalarOf "string")] [.str "p"])]
        [.str "b", .str "o"]) := rfl
  have hfresh : lens.Fresh schema := by
    refine ⟨?_, fun renamed hrenamed => ⟨?_, fun _ _ => ⟨trivial, fun _ _ => ⟨trivial, fun _ _ => trivial⟩⟩⟩⟩
    · intro ms key hms hkey
      obtain rfl := Json.obj.inj hms
      obtain rfl := Except.ok.inj hkey
      rfl
    · obtain rfl := Except.ok.inj (hmiddle.symm.trans hrenamed)
      intro ms part hms hpart
      obtain rfl := Json.obj.inj hms
      obtain rfl : objectOf [("p", scalarOf "string")] [.str "p"] = part := Except.ok.inj hpart
      refine ⟨fun ms key hms hkey => ?_, fun _ _ => trivial⟩
      obtain rfl := Json.obj.inj hms
      obtain rfl := Except.ok.inj hkey
      rfl
  exact ⟨hschema, hfresh, hfollow, Lens.consistent_follow hschema hfresh hfollow⟩

end EditLens
