import EditLens.Proofs.Lens.Following
import EditLens.Proofs.Lens.Route
import EditLens.Proofs.Schema.Unmixed

/-! Fields on their way through a lens, in patches and in schemas. Main statement: an addition of a scalar
comes out at the path where the schema that comes out describes the field, unless the field is removed. -/
namespace EditLens

open Schema

namespace Schema

/-- Whether a schema is one of objects: its type is that of objects, or one of several, or it describes
members; and it does not describe elements. -/
def describesObjects (ms : Members) : Bool :=
  !ms.has "items" && (ms.has "properties" ||
    match ms.valueOf "type" with
    | .arr types => types.any fun type => type.isText "object"
    | type => type.isText "object")

end Schema

mutual

/-- Operations about members and elements that a schema describes, with names that it does not describe
where they bring in new ones. -/
inductive LensOp.Tracked : LensOp → Json → Prop
  | rename {schema part : Json} {source destination : String}
    (described : part? schema source = some part) (new : part? schema destination = none) :
    LensOp.Tracked (.rename (.str source) (.str destination)) schema
  | hoist {schema inner part : Json} {host name : String} (hosted : part? schema host = some inner)
    (described : part? inner name = some part) (new : part? schema name = none) (other : host ≠ name) :
    LensOp.Tracked (.hoist (.str host) (.str name)) schema
  | plunge {schema part : Json} {inner : Members} {host name : String}
    (hosted : part? schema host = some (.obj inner)) (objects : describesObjects inner = true)
    (described : part? schema name = some part) (new : part? (.obj inner) name = none)
    (other : host ≠ name) : LensOp.Tracked (.plunge (.str host) (.str name)) schema
  | wrap {schema part : Json} {name : String} (described : part? schema name = some part) :
    LensOp.Tracked (.wrap (.str name)) schema
  | remove {schema part : Json} {property : Property} {name : String}
    (hname : property.name = .str name) (described : part? schema name = some part) :
    LensOp.Tracked (.remove property) schema
  | inside {schema part : Json} {name : String} {lens : Lens}
    (described : part? schema name = some part) (below : Lens.Tracked lens part) :
    LensOp.Tracked (.inside (.str name) lens) schema
  | each {ms : Members} {part : Json} {lens : Lens} (described : ms.get? "items" = some part)
    (below : Lens.Tracked lens part) : LensOp.Tracked (.each lens) (.obj ms)
  | eachUnknown {ms : Members} {lens : Lens} (array : (ms.valueOf "type").isText "array" = true)
    (undescribed : ms.get? "items" = none) (unmoved : ms.get? "properties" = none ∨ lens = []) :
    LensOp.Tracked (.each lens) (.obj ms)

inductive Lens.Tracked : Lens → Json → Prop
  | nil (schema : Json) : Lens.Tracked [] schema
  | cons {op : LensOp} {lens : Lens} {schema : Json} (first : op.Tracked schema)
    (others : ∀ next, (op.follow schema).outcome = .ok next → Lens.Tracked lens next) :
    Lens.Tracked (op :: lens) schema

end

namespace Schema

variable {schema part found : Json} {ms props : Members} {name : String} {path rest : Path}

private theorem IsLeaf.part?_eq_none (h : IsLeaf schema) (name : String) : part? schema name = none := by
  obtain ⟨type, -, htype⟩ := h.typed
  cases schema with
  | obj ms => rw [Unmixed.part?_eq (memberSchemas_of_get? (.inl ⟨(h.undescribed ms rfl).1, rfl⟩))]; rfl
  | _ => cases htype

private theorem IsLeaf.describesObjects_eq_false (h : IsLeaf (.obj ms)) : describesObjects ms = false := by
  obtain ⟨type, hmem, htype⟩ := h.typed
  have hvalue : ms.valueOf "type" = .str type := Except.ok.inj htype
  have hne : type ≠ "object" := by
    rintro rfl
    simp at hmem
  simp [describesObjects, hvalue, hne, Members.has, (h.undescribed ms rfl).1]

/-- A walk to a leaf from a schema that describes members starts with one of these. -/
private theorem Reaches.cases_member (h : Reaches (.obj ms) path found) (hleaf : IsLeaf found)
    (hitems : ms.get? "items" = none) (hself : ¬ IsLeaf (.obj ms)) : ∃ token part rest,
      path = token :: rest ∧ part? (.obj ms) token = some part ∧ Reaches part rest found := by
  cases h with
  | here => exact absurd hleaf hself
  | member described below => exact ⟨_, _, _, rfl, described, below⟩
  | element described =>
    rw [hitems] at described
    cases described

/-- What is known of a schema that describes a member. -/
private theorem Unmixed.exists_level (h : Unmixed schema) (hpart : part? schema name = some part) :
    ∃ (ms props : Members) (names : List Json), schema = .obj ms ∧ Schema.properties ms = .ok props ∧
      Schema.required ms = .ok names ∧ props.AreOf Unmixed ∧ props.get? name = some part ∧
      (∀ other : String, part? schema other = props.get? other) ∧ ms.get? "items" = none ∧
      ¬ IsLeaf schema := by
  obtain ⟨ms, rfl⟩ := h.exists_obj
  obtain ⟨props, names, hprops, hnames, hparts, hmembers, -⟩ := h.exists_members
  have heq := Unmixed.part?_eq hmembers
  refine ⟨ms, props, names, rfl, hprops, hnames, hparts, by rw [← heq, hpart], heq,
    h.items_eq_none hpart, fun hleaf => ?_⟩
  rw [hleaf.part?_eq_none] at hpart
  cases hpart

/-- Members may be described in another way, where elements are not. -/
private theorem Unmixed.describing (h : Unmixed (.obj ms)) (hitems : ms.get? "items" = none)
    (hparts : props.AreOf Unmixed) : Unmixed (.obj (withProperties ms props)) := by
  cases h with
  | mk anyOf oneOf required =>
  obtain ⟨names, hnames⟩ := required
  refine .mk (by rwa [get?_withProperties (by simp)]) (by rwa [get?_withProperties (by simp)])
    ⟨names, ?_⟩ (.inr (by simp [withProperties])) (.inr (by rwa [get?_withProperties (by simp)]))
    hparts.distinct hparts.text hparts.parts fun part hpart => ?_
  · rw [Schema.required, Members.valueOf, get?_withProperties (by simp)]
    exact hnames
  · rw [get?_withProperties (by simp), hitems] at hpart
    cases hpart

/-- Any names may be required. -/
private theorem Unmixed.requiring (h : Unmixed (.obj ms)) (names : List Json) :
    Unmixed (.obj (withRequired ms names)) := by
  cases h with
  | mk anyOf oneOf required properties exclusive distinct text members items =>
  refine .mk (by rwa [get?_withRequired _ (by simp)]) (by rwa [get?_withRequired _ (by simp)])
    ⟨names, ?_⟩ (by rwa [get?_withRequired _ (by simp)])
    (by rwa [get?_withRequired _ (by simp), get?_withRequired _ (by simp)])
    distinct text members (by rwa [get?_withRequired _ (by simp)])
  exact required_of_get? (.inr (by simp [withRequired]))

@[simp] theorem part?_withProperties (name : String) :
    part? (.obj (withProperties ms props)) name = props.get? name :=
  Unmixed.part?_eq memberSchemas_withProperties name

@[simp] theorem part?_withRequired (names : List Json) (name : String) :
    part? (.obj (withRequired ms names)) name = part? (.obj ms) name := by
  rw [part?, part?, memberSchemas_withRequired]

/-- Schemas with the same keywords but for types and defaults describe the same parts. -/
private theorem Unmixed.congr {ns : Members} (h : Unmixed (.obj ms))
    (heq : ∀ keyword : String, keyword ≠ "type" → keyword ≠ "default" → ns.get? keyword = ms.get? keyword) :
    Unmixed (.obj ns) := by
  cases h with
  | mk anyOf oneOf required properties exclusive distinct text members items =>
  obtain ⟨names, hnames⟩ := required
  refine .mk (by rwa [heq _ (by simp) (by simp)]) (by rwa [heq _ (by simp) (by simp)]) ⟨names, ?_⟩
    (by rwa [heq _ (by simp) (by simp)])
    (by rwa [heq _ (by simp) (by simp), heq _ (by simp) (by simp)]) distinct text members
    (by rwa [heq _ (by simp) (by simp)])
  rw [Schema.required, Members.valueOf, heq _ (by simp) (by simp)]
  exact hnames

private theorem Reaches.congr {ns : Members} {token : String} (h : Reaches (.obj ms) (token :: rest) found)
    (heq : ∀ keyword : String, keyword ≠ "type" → keyword ≠ "default" → ns.get? keyword = ms.get? keyword) :
    Reaches (.obj ns) (token :: rest) found := by
  cases h with
  | member described below =>
    refine .member ?_ below
    have hmembers : memberSchemas (.obj ns) = memberSchemas (.obj ms) := by
      simp only [memberSchemas, WellShaped.lookup_obj, Members.valueOf, heq "properties" (by simp) (by simp)]
    rw [part?, hmembers]
    exact described
  | element described index below =>
    exact .element (by rwa [heq _ (by simp) (by simp)]) index below

/-- Taking null out of a schema without alternatives changes no more than its type and its default, and
nothing in the schema of a leaf. -/
private theorem Unmixed.exists_withoutNull (h : Unmixed (.obj ms)) : ∃ ns : Members,
    withoutNull (.obj ms) = .ok (.obj ns) ∧ (IsLeaf (.obj ms) → ns = ms) ∧
      ∀ keyword : String, keyword ≠ "type" → keyword ≠ "default" → ns.get? keyword = ms.get? keyword := by
  cases h with
  | mk anyOf oneOf =>
  obtain ⟨ns, hns, hothers, htyped⟩ := withoutNull_cases anyOf oneOf
  refine ⟨ns, hns, fun hleaf => ?_, hothers⟩
  obtain ⟨type, -, htype⟩ := hleaf.typed
  have hvalue : ms.valueOf "type" = .str type := Except.ok.inj htype
  have hsingle : ∀ types, ms.get? "type" ≠ some (.arr types) := fun types htypes => by
    rw [WellShaped.valueOf_of_get? htypes] at hvalue
    cases hvalue
  exact (htyped hsingle).resolve_right fun hnull => hleaf.default ms rfl hnull.1

end Schema

/-- An operation that is tracked can be followed, and what comes out describes at its new place whatever
the schema describes. -/
def LensOp.Guides (op : LensOp) : Prop :=
  ∀ {schema : Json}, Unmixed schema → op.Tracked schema →
    ∃ next, (op.follow schema).outcome = .ok next ∧ Unmixed next ∧
      ∀ path place leaf, Reaches schema path leaf → IsLeaf leaf → op.route path = some place →
        Reaches next place leaf

def Lens.Guides (lens : Lens) : Prop :=
  ∀ {schema : Json}, Unmixed schema → Lens.Tracked lens schema →
    ∃ next, (Lens.follow schema lens).outcome = .ok next ∧ Unmixed next ∧
      ∀ path place leaf, Reaches schema path leaf → IsLeaf leaf → Lens.route path lens = some place →
        Reaches next place leaf

namespace LensOp

variable {op : LensOp} {ms props : Members}

/-- An operation on the members of a schema is told by where it takes each of them. -/
private theorem exists_guided {next : Members} (h : Unmixed (.obj ms)) (hitems : ms.get? "items" = none)
    (hself : ¬ IsLeaf (.obj ms)) (hparts : props.AreOf Unmixed)
    (hnext : next = withProperties ms props ∨ ∃ names, next = withRequired (withProperties ms props) names)
    (hfollow : (op.follow (.obj ms)).outcome = .ok (.obj next))
    (hroute : ∀ token part rest place leaf, part? (.obj ms) token = some part → Reaches part rest leaf →
      IsLeaf leaf → op.route (token :: rest) = some place → ∃ (token' : String) (part' : Json) (rest' : Path),
        place = token' :: rest' ∧ props.get? token' = some part' ∧ Reaches part' rest' leaf) :
    ∃ next, (op.follow (.obj ms)).outcome = .ok next ∧ Unmixed next ∧
      ∀ path place leaf, Reaches (.obj ms) path leaf → IsLeaf leaf → op.route path = some place →
        Reaches next place leaf := by
  have hlevel : Unmixed (.obj next) ∧ ∀ name : String, part? (.obj next) name = props.get? name := by
    have hprops := h.describing hitems hparts
    rcases hnext with rfl | ⟨names, rfl⟩
    · exact ⟨hprops, part?_withProperties⟩
    · exact ⟨hprops.requiring names, by simp⟩
  refine ⟨_, hfollow, hlevel.1, fun path place leaf hreach hleaf hplace => ?_⟩
  obtain ⟨token, part, rest, rfl, hpart, hbelow⟩ := hreach.cases_member hleaf hitems hself
  obtain ⟨token', part', rest', rfl, hpart', hbelow'⟩ := hroute token part rest place leaf hpart hbelow hleaf hplace
  exact .member (by rw [hlevel.2, hpart']) hbelow'

private theorem guides_rename (s d : Json) : (LensOp.rename s d).Guides := by
  intro schema h htracked
  cases htracked with
  | @rename _ part source destination described new =>
  obtain ⟨ms, props, names, rfl, hprops, hnames, hparts, hpart, heq, hitems, hself⟩ :=
    h.exists_level described
  rw [heq] at new
  have hrenamed : renameKey props source destination = props.renamed source destination :=
    Members.ofEntries_eq (hparts.renamed new).distinct
  refine exists_guided h hitems hself (hparts.renamed new) (.inr ⟨_, rfl⟩) (by
    simp [LensOp.follow, followFlat, Json.asObject, Schema.rename, hprops, Json.asKey, hrenamed,
      Members.has_iff.2 ⟨part, hpart⟩, hnames]; rfl) ?_
  intro token found rest place leaf hfound hbelow _ hplace
  rw [heq] at hfound
  rw [route_rename] at hplace
  obtain rfl := Option.some.inj hplace
  by_cases hsource : source = token
  · subst hsource
    exact ⟨destination, found, rest, if_pos rfl, by rw [Members.get?_renamed_destination new, hfound], hbelow⟩
  · have hdestination : destination ≠ token := by
      rintro rfl
      rw [new] at hfound
      cases hfound
    refine ⟨token, found, rest, if_neg hsource, ?_, hbelow⟩
    rw [Members.get?_renamed_of_ne (by simpa using Ne.symm hsource) (by simpa using hdestination), hfound]

private theorem guides_remove (property : Property) : (LensOp.remove property).Guides := by
  intro schema h htracked
  cases htracked with
  | @remove _ part property name hname described =>
  obtain ⟨ms, props, names, rfl, hprops, hnames, hparts, hpart, heq, hitems, hself⟩ :=
    h.exists_level described
  have hfollow : ((LensOp.remove property).follow (.obj ms)).outcome = .ok (.obj (withRequired
      (withProperties ms (props.without name)) (unlisted names (.str name)))) := by
    simp only [LensOp.follow, followFlat, Json.asObject, Schema.remove, hprops, hname, Json.asKey,
      hnames, Noted.outcome_bind, Noted.outcome_liftM, Except.bind_ok]
    cases props.has name <;> rfl
  refine exists_guided h hitems hself (hparts.without name) (.inr ⟨_, rfl⟩) hfollow ?_
  intro token found rest place leaf hfound hbelow _ hplace
  rw [route_remove hname] at hplace
  split at hplace
  · cases hplace
  · rename_i hne
    refine ⟨token, found, rest, (Option.some.inj hplace).symm, ?_, hbelow⟩
    rw [Members.get?_without, if_neg (by simpa using hne), ← heq, hfound]

private theorem guides_hoist (h n : Json) : (LensOp.hoist h n).Guides := by
  intro schema h htracked
  cases htracked with
  | @hoist _ inner part host name hosted described new other =>
  obtain ⟨ms, props, names, rfl, hprops, hnames, hparts, hpart, heq, hitems, hself⟩ :=
    h.exists_level hosted
  have hinner := h.of_part hosted
  obtain ⟨ns, inners, inames, rfl, hinners, hinames, hiparts, hipart, hieq, hiitems, hiself⟩ :=
    hinner.exists_level described
  rw [heq] at new
  have hhost := (hinner.describing hiitems (hiparts.without name)).requiring (unlisted inames (.str name))
  have hmoved := (hparts.put host hhost).put name (hiparts.part hipart)
  refine exists_guided h hitems hself hmoved (.inr ⟨_, rfl⟩) (by
    simp [LensOp.follow, followFlat, Json.asObject, Schema.hoist, Schema.described, hprops, hpart, hinners,
      hnames, hinames, Json.asKey, hipart, pure, Except.pure]; rfl) ?_
  intro token found rest place leaf hfound hbelow hleaf hplace
  rw [route_hoist] at hplace
  obtain rfl := Option.some.inj hplace
  have hname : token ≠ name := by
    rintro rfl
    rw [heq, new] at hfound
    cases hfound
  by_cases hhosted : host = token
  · subst hhosted
    obtain rfl := Option.some.inj (hosted.symm.trans hfound)
    obtain ⟨inner, part', below, rfl, hpart', hbelow'⟩ := hbelow.cases_member hleaf hiitems hiself
    by_cases hmoves : inner = name
    · subst hmoves
      obtain rfl := Option.some.inj (described.symm.trans hpart')
      exact ⟨inner, part, below, by simp, Members.get?_put_self, hbelow'⟩
    · have hkept (w : Json) : Members.get? ((props.put host w).put name part) host = some w := by
        rw [Members.get?_put, if_neg (by simpa using Ne.symm hname), Members.get?_put_self]
      refine ⟨host, _, inner :: below, by simp [hmoves], hkept _, .member ?_ hbelow'⟩
      rw [part?_withRequired, part?_withProperties, Members.get?_without, if_neg (by simpa using Ne.symm hmoves),
        ← hieq, hpart']
  · refine ⟨token, found, rest, if_neg (by simp [hhosted]), ?_, hbelow⟩
    rw [Members.get?_put, if_neg (by simpa using Ne.symm hname), Members.get?_put, if_neg (by simpa using hhosted),
      ← heq, hfound]

private theorem guides_plunge (h n : Json) : (LensOp.plunge h n).Guides := by
  intro schema h htracked
  cases htracked with
  | @plunge _ part ns host name hosted objects described new other =>
  obtain ⟨ms, props, names, rfl, hprops, hnames, hparts, hpart, heq, hitems, hself⟩ :=
    h.exists_level described
  have hinner := h.of_part hosted
  obtain ⟨inners, inames, hinners, hinames, hiparts, himembers, -⟩ := hinner.exists_members
  have hiitems : ns.get? "items" = none := by
    rw [describesObjects, Bool.and_eq_true, Bool.not_eq_true'] at objects
    exact Members.has_eq_false.1 objects.1
  have hiself : ¬ IsLeaf (.obj ns) := fun hleaf => by
    rw [hleaf.describesObjects_eq_false] at objects
    cases objects
  have hieq := Unmixed.part?_eq himembers
  have hhost := (hinner.describing hiitems (hiparts.put name (hparts.part hpart))).requiring
    (if listed names (.str name) then enlisted inames (.str name) else inames)
  have hmoved := (hparts.without name).put host hhost
  have hdemand : Members.demand (props.without (.str name)) (.str host) = .ok (.obj ns) := by
    rw [Members.demand, Members.get?_without, if_neg (by simpa using Ne.symm other), ← heq, hosted]
  refine exists_guided h hitems hself hmoved (.inr ⟨unlisted names (.str name), rfl⟩) (by
    simp [LensOp.follow, followFlat, Json.asObject, Schema.plunge, hinners, hprops, hnames, hinames,
      Json.asKey, hpart, hdemand, Members.has_iff.2 ⟨_, (heq host).symm.trans hosted⟩]) ?_
  intro token found rest place leaf hfound hbelow hleaf hplace
  rw [route_plunge] at hplace
  obtain rfl := Option.some.inj hplace
  by_cases hname : name = token
  · subst hname
    obtain rfl := Option.some.inj (described.symm.trans hfound)
    refine ⟨host, _, name :: rest, by simp, Members.get?_put_self, .member ?_ hbelow⟩
    rw [part?_withRequired, part?_withProperties, Members.get?_put_self]
  · rw [if_neg hname]
    by_cases hhosted : host = token
    · subst hhosted
      obtain rfl := Option.some.inj (hosted.symm.trans hfound)
      obtain ⟨inner, part', below, rfl, hpart', hbelow'⟩ := hbelow.cases_member hleaf hiitems hiself
      have hne : name ≠ inner := by
        rintro rfl
        rw [new] at hpart'
        cases hpart'
      refine ⟨host, _, inner :: below, rfl, Members.get?_put_self, .member ?_ hbelow'⟩
      rw [part?_withRequired, part?_withProperties, Members.get?_put, if_neg (by simpa using hne), ← hieq, hpart']
    · refine ⟨token, found, rest, rfl, ?_, hbelow⟩
      rw [Members.get?_put, if_neg (by simpa using hhosted), Members.get?_without,
        if_neg (by simpa using hname), ← heq, hfound]

/-- One member may be described in another way. -/
private theorem exists_redescribed {part part' : Json} {name : String} (h : Unmixed (.obj ms))
    (hpart : part? (.obj ms) name = some part) (hpart' : Unmixed part') :
    ∃ props, describe ms (.str name) part' = .ok (withProperties ms props) ∧ props.AreOf Unmixed ∧
      props.get? name = some part' ∧ ∀ other : String, other ≠ name →
        props.get? other = part? (.obj ms) other := by
  obtain ⟨_, props, names, heq, hprops, -, hparts, -, hmembers, -⟩ := h.exists_level hpart
  obtain rfl := Json.obj.inj heq
  refine ⟨props.put name part', ?_, hparts.put name hpart', Members.get?_put_self, fun other hother => ?_⟩
  · simp [describe, hprops, Json.asKey, pure, Except.pure]
  · rw [Members.get?_put, if_neg (by simpa using Ne.symm hother), hmembers]

private theorem described_eq {part : Json} {name : String} (h : Unmixed (.obj ms))
    (hpart : part? (.obj ms) name = some part) (step : SchemaStep) :
    described ms (.str name) step = .ok part := by
  obtain ⟨_, props, names, heq, hprops, -, -, hfound, -⟩ := h.exists_level hpart
  obtain rfl := Json.obj.inj heq
  simp [described, hprops, Json.asKey, hfound, pure, Except.pure]

private theorem guides_wrap (n : Json) : (LensOp.wrap n).Guides := by
  intro schema h htracked
  cases htracked with
  | @wrap _ part name hdescribed =>
  obtain ⟨ms, -, -, rfl, -, -, -, -, -, hitems, hself⟩ := h.exists_level hdescribed
  obtain ⟨ns, rfl⟩ := (h.of_part hdescribed).exists_obj
  obtain ⟨ns', hns', hleaf', heq⟩ := (h.of_part hdescribed).exists_withoutNull
  have helements := (h.of_part hdescribed).congr heq
  have harray : Unmixed (.obj [("type", .str "array"), ("default", .arr []), ("items", .obj ns')]) := by
    refine .mk rfl rfl ⟨[], rfl⟩ (.inl ⟨rfl, rfl⟩) (.inl rfl) .nil (by simp) (by simp) fun part hpart => ?_
    obtain rfl := Option.some.inj hpart
    exact helements
  obtain ⟨props, hprops, hparts, hself', hothers⟩ := exists_redescribed h hdescribed harray
  refine exists_guided h hitems hself hparts (.inl rfl) (by
    simp [LensOp.follow, followFlat, Json.asObject, Schema.wrap, described_eq h hdescribed, hns', hprops]) ?_
  intro token found rest place leaf hfound hbelow hleaf hplace
  rw [route_wrap] at hplace
  obtain rfl := Option.some.inj hplace
  by_cases hname : name = token
  · subst hname
    obtain rfl := Option.some.inj (hdescribed.symm.trans hfound)
    refine ⟨name, _, "0" :: rest, by simp, hself', .element rfl (by decide) ?_⟩
    cases rest with
    | nil =>
      cases hbelow
      rw [hleaf' hleaf]
      exact .here _
    | cons next below => exact hbelow.congr heq
  · exact ⟨token, found, rest, if_neg hname, by rw [hothers token (Ne.symm hname), hfound], hbelow⟩

private theorem guides_inside (n : Json) {lens : Lens} (ih : lens.Guides) :
    (LensOp.inside n lens).Guides := by
  intro schema h htracked
  cases htracked with
  | @inside _ part name _ hdescribed below =>
  obtain ⟨ms, -, -, rfl, -, -, -, -, -, hitems, hself⟩ := h.exists_level hdescribed
  obtain ⟨next, hnext, hshaped, hguide⟩ := ih (h.of_part hdescribed) below
  obtain ⟨props, hprops, hparts, hself', hothers⟩ := exists_redescribed h hdescribed hshaped
  refine exists_guided h hitems hself hparts (.inl rfl) (by
    simp [LensOp.follow, Json.asObject, described_eq h hdescribed, hnext, hprops]) ?_
  intro token found rest place leaf hfound hbelow hleaf hplace
  rw [route_inside] at hplace
  split at hplace
  · rename_i hname
    subst hname
    obtain rfl := Option.some.inj (hdescribed.symm.trans hfound)
    obtain ⟨place', hplace', rfl⟩ := Option.map_eq_some_iff.1 hplace
    exact ⟨name, next, place', rfl, hself', hguide _ _ _ hbelow hleaf hplace'⟩
  · rename_i hname
    exact ⟨token, found, rest, (Option.some.inj hplace).symm,
      by rw [hothers token (Ne.symm hname), hfound], hbelow⟩

private theorem guides_each {lens : Lens} (ih : lens.Guides) : (LensOp.each lens).Guides := by
  intro schema h htracked
  cases htracked with
  | @each ms part _ hitems below =>
    obtain ⟨next, hnext, hshaped, hguide⟩ := ih (h.of_items hitems) below
    have heq : ∀ keyword : String, keyword ≠ "items" →
        Members.get? (ms.put "items" next) keyword = ms.get? keyword := fun keyword hne => by
      simp [Members.get?_put, hne.symm]
    refine ⟨.obj (ms.put "items" next), ?_, ?_, fun path place leaf hreach hleaf hplace => ?_⟩
    · simp [LensOp.follow, Json.mentions, Members.has, hitems, WellShaped.valueOf_of_get? hitems, hnext]
    · cases h with
      | @mk _ props anyOf oneOf required properties exclusive distinct text members items =>
      obtain ⟨names, hnames⟩ := required
      refine .mk (by rwa [heq _ (by simp)]) (by rwa [heq _ (by simp)]) ⟨names, ?_⟩
        (by rwa [heq _ (by simp)]) ?_ distinct text members fun part hpart => ?_
      · rw [Schema.required, Members.valueOf, heq _ (by simp)]
        exact hnames
      · refine .inl ?_
        rw [heq _ (by simp)]
        exact exclusive.resolve_right (by simp [hitems])
      · rw [Members.get?_put_self] at hpart
        obtain rfl := Option.some.inj hpart
        exact hshaped
    · cases hreach with
      | here => exact absurd ((hleaf.undescribed ms rfl).2.symm.trans hitems) (by simp)
      | member described =>
        rw [h.items_eq_none described] at hitems
        cases hitems
      | element described index below =>
        obtain rfl := Option.some.inj (hitems.symm.trans described)
        rw [route_each index] at hplace
        obtain ⟨place', hplace', rfl⟩ := Option.map_eq_some_iff.1 hplace
        exact .element Members.get?_put_self index (hguide _ _ _ below hleaf hplace')
  | @eachUnknown ms _ array undescribed unmoved =>
    refine ⟨.obj ms, ?_, h, fun path place leaf hreach hleaf hplace => ?_⟩
    · simp [LensOp.follow, Json.mentions, Members.has, undescribed, array]
    · rcases unmoved with hnone | rfl
      · cases hreach with
        | here =>
          rw [route_root] at hplace
          obtain rfl := Option.some.inj hplace
          exact .here _
        | member described =>
          rw [Unmixed.part?_eq (memberSchemas_of_get? (.inl ⟨hnone, rfl⟩))] at described
          cases described
        | element described =>
          rw [undescribed] at described
          cases described
      · rw [route_each_nil] at hplace
        obtain rfl := Option.some.inj hplace
        exact hreach

end LensOp

mutual

theorem LensOp.guides : ∀ op : LensOp, op.Guides
  | .rename s d => LensOp.guides_rename s d
  | .hoist h n => LensOp.guides_hoist h n
  | .plunge h n => LensOp.guides_plunge h n
  | .wrap n => LensOp.guides_wrap n
  | .head _ => fun _ htracked => by cases htracked
  | .add _ => fun _ htracked => by cases htracked
  | .remove property => LensOp.guides_remove property
  | .inside n lens => LensOp.guides_inside n (Lens.guides lens)
  | .each lens => LensOp.guides_each (Lens.guides lens)
  | .convert _ _ _ _ => fun _ htracked => by cases htracked

/-- A lens that is tracked takes each leaf of a schema to where it routes the path of the leaf. -/
theorem Lens.guides : ∀ lens : Lens, lens.Guides
  | [] => by
    intro h _
    refine ⟨_, rfl, h, fun path place leaf hreach _ hplace => ?_⟩
    obtain rfl := Option.some.inj hplace
    exact hreach
  | op :: rest => by
    intro h htracked
    cases htracked with
    | cons first others =>
    obtain ⟨next, hnext, hshaped, hguide⟩ := LensOp.guides op h first
    obtain ⟨last, hlast, hshaped', hguide'⟩ := Lens.guides rest hshaped (others next hnext)
    refine ⟨last, by simp [Lens.follow, hnext, hlast], hshaped', fun path place leaf hreach hleaf hplace => ?_⟩
    obtain ⟨between, hbetween, hplace⟩ := Option.bind_eq_some_iff.1 hplace
    exact hguide' _ _ _ (hguide _ _ _ hreach hleaf hbetween) hleaf hplace

end

namespace Lens

/-- An addition of a scalar at the path of a leaf comes out at a path of the same leaf in the schema that
comes out. It is dropped exactly if a member on its way is removed. -/
theorem carry_locates {schema leaf : Json} {lens : Lens} {p : PatchOp} {v : Scalar} {path : Path}
    (hlens : Lens.isStructural lens = true) (hschema : Unmixed schema) (htracked : Lens.Tracked lens schema)
    (hpath : locate schema path = .ok leaf) (hleaf : IsLeaf leaf)
    (hp : p.Edits (.add (.scalar v)) path) (hv : v ≠ .null) :
    ∃ next, (Lens.follow schema lens).outcome = .ok next ∧
      ((Lens.carry p lens).outcome = .ok none ∧ Lens.Removes lens path ∨
        ∃ q place, (Lens.carry p lens).outcome = .ok (some q) ∧ ¬ Lens.Removes lens path ∧
          q.Edits (.add (.scalar v)) place ∧ locate next place = .ok leaf) := by
  obtain ⟨next, hnext, hshaped, hguide⟩ := Lens.guides lens hschema htracked
  refine ⟨next, hnext, ?_⟩
  have hreach : Reaches schema path leaf := by
    rcases hschema.locate_eq path with ⟨found, hfound, hreach⟩ | ⟨hempty, -⟩
    · rwa [Except.ok.inj (hpath.symm.trans hfound)]
    · obtain rfl := Except.ok.inj (hpath.symm.trans hempty)
      obtain ⟨type, -, htype⟩ := hleaf.typed
      cases htype
  have hnull : (Json.scalar v).isNull = false := by
    cases v <;> first | rfl | exact absurd rfl hv
  have hroutes := Lens.routes lens hlens hp (.inl hnull)
  rw [← Lens.route_eq_none_iff lens hlens]
  cases hplace : Lens.route path lens with
  | none =>
    rw [hplace] at hroutes
    exact .inl ⟨hroutes, rfl⟩
  | some place =>
    rw [hplace] at hroutes
    obtain ⟨q, hq, hqe⟩ := hroutes
    exact .inr ⟨q, place, hq, by simp, hqe,
      hshaped.locate_of_reaches (hguide path place leaf hreach hleaf hplace)⟩

/-- A text moves out of its host and into an array. -/
theorem carry_locates_items :
    let leaf : Json := .obj [("type", .str "string")]
    let host : Json := .obj [("properties", .obj [("x", leaf)])]
    let lens : Lens := [.hoist (.str "h") (.str "x"), .wrap (.str "x")]
    let p : PatchOp := .add ["h", "x"] (.str "a")
    ∃ next, (Lens.follow (.obj [("properties", .obj [("h", host)])]) lens).outcome = .ok next ∧
      ∃ q place, (Lens.carry p lens).outcome = .ok (some q) ∧ q.Edits (.add (.str "a")) place ∧
        locate next place = .ok leaf := by
  intro leaf host lens p
  have hleaf : Unmixed leaf := .mk rfl rfl ⟨[], rfl⟩ (.inl ⟨rfl, rfl⟩) (.inl rfl) .nil (by simp) (by simp)
    (by intro part hpart; cases hpart)
  have hone {name : String} {part : Json} (hpart : Unmixed part) :
      Unmixed (.obj [("properties", .obj [(.str name, part)])]) :=
    .mk rfl rfl ⟨[], rfl⟩ (.inr rfl) (.inr rfl) (by simp [Members.Distinct]) (by simp) (by simpa using hpart)
      (by intro part hpart; cases hpart)
  have htracked : Lens.Tracked lens (.obj [("properties", .obj [("h", host)])]) := by
    refine .cons (.hoist rfl rfl rfl (by simp)) fun next hnext => ?_
    obtain rfl := Except.ok.inj hnext
    exact .cons (.wrap rfl) fun next _ => .nil next
  obtain ⟨next, hnext, hplace⟩ := @carry_locates _ leaf lens p (.str "a") ["h", "x"] rfl (hone (hone hleaf))
    htracked rfl ⟨⟨_, by simp, rfl⟩, fun ms hms => by obtain rfl := Json.obj.inj hms; exact ⟨rfl, rfl⟩,
      fun ms hms => by obtain rfl := Json.obj.inj hms; simp [Members.get?_cons]⟩ (PatchOp.edits_add ..)
    (by simp)
  refine ⟨next, hnext, ?_⟩
  rcases hplace with ⟨-, hremoves⟩ | ⟨q, place, hq, -, hqe, hlocate⟩
  · exact absurd ((Lens.route_eq_none_iff lens rfl _).2 hremoves) (by decide)
  · exact ⟨q, place, hq, hqe, hlocate⟩

end Lens

end EditLens
