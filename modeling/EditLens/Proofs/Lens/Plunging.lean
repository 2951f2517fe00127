import EditLens.Proofs.Lens.Converting
import EditLens.Proofs.Lens.Moving

/-! Documents with a member that moves into another one. Main statement: where the host comes first, the
converted document is the old one with the member in its new place. -/
namespace EditLens

open Function (update)
open EditLens.Tree

namespace Json

mutual

def arraysAreFlat : Json → Bool
  | .scalar _ => true
  | .arr es => elementsAreFlat es
  | .obj ms => membersAreFlat ms

def elementsAreFlat : List Json → Bool
  | [] => true
  | e :: rest => !e.isObject && e.arraysAreFlat && elementsAreFlat rest

def membersAreFlat : List (Scalar × Json) → Bool
  | [] => true
  | (_, v) :: rest => v.arraysAreFlat && membersAreFlat rest

end

private theorem arraysAreFlat_element {v e : Json} (h : v.arraysAreFlat = true) (he : e ∈ v.elements) :
    e.isObject = false ∧ e.arraysAreFlat = true := by
  cases v with
  | scalar s => cases he
  | obj ms => cases he
  | arr es =>
    rw [arraysAreFlat] at h
    rw [elements_arr] at he
    induction es with
    | nil => cases he
    | cons first rest ih =>
      simp only [elementsAreFlat, Bool.and_eq_true, Bool.not_eq_true'] at h
      rcases List.mem_cons.1 he with rfl | he
      · exact h.1
      · exact ih h.2 he

private theorem arraysAreFlat_member {v part : Json} {name : String} (h : v.arraysAreFlat = true)
    (hpart : v.member? name = some part) : part.arraysAreFlat = true := by
  cases v with
  | scalar s => cases hpart
  | arr es => cases hpart
  | obj ms =>
    rw [arraysAreFlat] at h
    rw [member?_obj] at hpart
    induction ms with
    | nil => cases hpart
    | cons m rest ih =>
      obtain ⟨k, w⟩ := m
      simp only [membersAreFlat, Bool.and_eq_true] at h
      rw [Members.get?_cons] at hpart
      split at hpart
      · exact Option.some.inj hpart ▸ h.1
      · exact ih h.2 hpart

/-- Without arrays of objects, no two objects stand at one place. -/
theorem uniform_of_arraysAreFlat {doc : Json} (h : doc.arraysAreFlat = true) : Uniform [doc] := by
  have hplaces : ∀ (place : List (Option String)) (vs : List Json), (∀ v ∈ vs, v.arraysAreFlat = true) →
      (vs.length ≤ 1 ∨ ∀ v ∈ vs, v.isObject = false) → OneShape (places vs place) := by
    intro place
    induction place with
    | nil =>
      intro vs _ hvs
      rcases hvs with hone | hnone
      · have hsame : ∀ {v w : Json}, v ∈ vs → w ∈ vs → v = w := by
          match vs with
          | [] => simp
          | [_] => simp
        refine ⟨fun hms hns name hname => ?_, fun hes hms => ?_⟩
        · rwa [← Json.obj.inj (hsame hms hns)]
        · cases hsame hes hms
      · exact ⟨fun hms => absurd (hnone _ hms) (by simp [isObject]),
          fun _ hms => absurd (hnone _ hms) (by simp [isObject])⟩
    | cons token rest ih =>
      intro vs hflat hvs
      cases token with
      | none =>
        have helements : ∀ e ∈ vs.flatMap elements, e.isObject = false ∧ e.arraysAreFlat = true := by
          intro e he
          obtain ⟨v, hv, he⟩ := List.mem_flatMap.1 he
          exact arraysAreFlat_element (hflat v hv) he
        exact ih _ (fun e he => (helements e he).2) (.inr fun e he => (helements e he).1)
      | some name =>
        refine ih _ (fun part hpart => ?_) (hvs.imp (fun hone => ?_) fun hnone part hpart => ?_)
        · obtain ⟨v, hv, hpart⟩ := List.mem_filterMap.1 hpart
          exact arraysAreFlat_member (hflat v hv) hpart
        · exact (List.length_filterMap_le _ vs).trans hone
        · obtain ⟨v, hv, hpart⟩ := List.mem_filterMap.1 hpart
          have hobject := hnone v hv
          cases v with
          | obj ms => cases hobject
          | scalar s => cases hpart
          | arr es => cases hpart
  exact fun place => hplaces place [doc] (by simpa using h) (.inl (Nat.le_refl 1))

end Json

namespace Members

variable {ms inner : Members} {host name : String} {v : Json}

def plunged (ms : Members) (host name : String) (inner : Members) (v : Json) : Members :=
  (ms.put host (.obj (inner.put name v))).without name

private theorem AreDocument.plunged (h : ms.AreDocument) (hhost : ms.get? host = some (.obj inner))
    (hv : ms.get? name = some v) : (ms.plunged host name inner v).AreDocument := by
  have hinner : inner.AreDocument := Json.isDocument_obj.1 (h.part hhost)
  exact (h.put host (Json.isDocument_obj.2 (hinner.put name (h.part hv)))).without name

private theorem get?_plunged_host (hne : host ≠ name) :
    (ms.plunged host name inner v).get? host = some (.obj (inner.put name v)) := by
  rw [plunged, get?_without, if_neg (by simpa using Ne.symm hne), get?_put_self]

private theorem get?_plunged_name : (ms.plunged host name inner v).get? name = none := by
  rw [plunged, get?_without, if_pos (by simp)]

private theorem get?_plunged_of_ne {other : String} (hhost : other ≠ host) (hname : other ≠ name) :
    (ms.plunged host name inner v).get? other = ms.get? other := by
  rw [plunged, get?_without, if_neg (by simpa using Ne.symm hname), get?_put,
    if_neg (by simpa using Ne.symm hhost)]

/-- Hoisting takes a plunged member back. -/
private theorem recast_plunged (hhost : ms.get? host = some (.obj inner)) (hfree : inner.get? name = none)
    (hv : ms.get? name = some v) (hne : host ≠ name) :
    Lens.recast (.obj (ms.plunged host name inner v).trees) [.hoist (.str host) (.str name)] =
      some (.obj ms.trees) := by
  have hinner : (inner.put name v).trees = update inner.trees name (some v.tree) := trees_put
  refine Lens.recast_cons_eq_some.2 ⟨_, hoistMember_eq_some.2 ⟨_, rfl, ?_,
    .inr ⟨(inner.put name v).trees, ?_, ?_⟩⟩, rfl⟩
  · rw [trees, get?_plunged_name]; rfl
  · rw [trees, get?_plunged_host hne, Option.map_some, Json.tree_obj]
  · rw [hinner, Function.update_self, Function.update_idem, update_trees_of_get?_eq_none hfree]
    refine congrArg Tree.obj (funext fun other => ?_)
    by_cases hname : other = name
    · subst hname
      rw [Function.update_self, trees, hv, Option.map_some]
    by_cases hhost' : other = host
    · subst hhost'
      rw [Function.update_of_ne hname, Function.update_self, trees, hhost, Option.map_some, Json.tree_obj]
    · rw [Function.update_of_ne hname, Function.update_of_ne hhost', trees, trees,
        get?_plunged_of_ne hhost' hname]

end Members

namespace Schema

variable {full : Bool} {schema : Json} {ms inner : Members} {host name : String} {v : Json}

/-- One document, and the document in which one of its members has moved into another one. -/
def Plunges (host name : String) (v v' : Json) : Prop :=
  ∃ (ms inner : Members) (part : Json), v = .obj ms ∧ ms.get? host = some (.obj inner) ∧ ms.get? name = some part ∧
    v' = .obj (ms.plunged host name inner part)

variable {props : Members} {vs vs' : List Json}

private theorem hosts_of_plunged (hne : host ≠ name) (hvs : List.Forall₂ (Plunges host name) vs vs') :
    List.Forall₂ (fun p p' => ∃ (inner : Members) (w : Json), p = .obj inner ∧ p' = .obj (inner.put name w))
      (vs.filterMap (Json.member? host)) (vs'.filterMap (Json.member? host)) :=
  forall₂_filterMap hvs fun v v' hv => by
    obtain ⟨ms, inner, w, rfl, hhost, -, rfl⟩ := hv
    exact ⟨_, _, hhost, Members.get?_plunged_host hne, inner, w, rfl, rfl⟩

private theorem names_of_plunged (hne : host ≠ name) (hvs : List.Forall₂ (Plunges host name) vs vs') :
    (vs'.filterMap (Json.member? host)).filterMap (Json.member? name) = vs.filterMap (Json.member? name) := by
  have hfrom : List.Forall₂ (fun v p' => Json.member? name p' = Json.member? name v) (vs.filterMap some)
      (vs'.filterMap (Json.member? host)) := forall₂_filterMap hvs fun v v' hv => by
    obtain ⟨ms, inner, w, rfl, -, hw, rfl⟩ := hv
    exact ⟨_, _, rfl, Members.get?_plunged_host hne, by rw [Json.member?_obj, Members.get?_put_self, ← hw]; rfl⟩
  rw [List.filterMap_some] at hfrom
  simpa [List.filterMap_map] using congrArg (List.filterMap id) (forall₂_map_eq hfrom fun _ _ => id)

private theorem describes_plunged {outer : Json} (hne : host ≠ name) (hvs : List.Forall₂ (Plunges host name) vs vs')
    (hdescribed : ∀ other : String, DescribesMember full (props.get? other) (vs.map (Json.member? other)))
    (houter : Describes full outer (vs'.filterMap (Json.member? host))) (other : String) :
    DescribesMember full (((props.without name).put host outer).get? other) (vs'.map (Json.member? other)) := by
  by_cases hhost : other = host
  · subst hhost
    rw [Members.get?_put_self]
    refine .of_describes houter fun v' hv' => ?_
    obtain ⟨v, -, ms, inner, w, -, -, -, rfl⟩ := forall₂_exists_left hvs hv'
    exact ⟨_, Members.get?_plunged_host hne⟩
  rw [Members.get?_put, if_neg (by simpa using Ne.symm hhost), Members.get?_without]
  by_cases hname : other = name
  · subst hname
    rw [if_pos (by simp)]
    refine .of_eq_none fun v' hv' => ?_
    obtain ⟨v, -, ms, inner, w, -, -, -, rfl⟩ := forall₂_exists_left hvs hv'
    exact Members.get?_plunged_name
  · rw [if_neg (by simpa using Ne.symm hname), forall₂_map_eq hvs]
    · exact hdescribed other
    · rintro _ _ ⟨ms, inner, w, rfl, -, -, rfl⟩
      exact Members.get?_plunged_of_ne hhost hname

/-- Where a member moves into another one in all samples, so does its description. -/
theorem leads_plunge (hne : host ≠ name) :
    Leads (LensOp.follow · (.plunge (.str host) (.str name))) (Plunges host name) := by
  intro full schema vs vs' h hvs
  obtain ⟨hobjects, hobjects'⟩ := objects_of_forall hvs fun v v' hv => by
    obtain ⟨ms, inner, part, rfl, -, -, rfl⟩ := hv
    exact ⟨rfl, rfl⟩
  obtain ⟨sms, props, rfl, htype, hitems, hprops, hdescribed⟩ := h.exists_members hobjects
  obtain ⟨names, hnames⟩ := h.shaped.required_eq
  -- the host and the member, as they are described
  obtain ⟨outer, houter, -, hhosts⟩ := exists_described h.shaped hprops h.nonempty (hdescribed host) (fun v hv => by
    obtain ⟨_, ms, inner, part, rfl, hhost, -, -⟩ := forall₂_exists hvs hv
    exact ⟨_, hhost⟩) .inside
  obtain ⟨part, hpart, -, hparts⟩ := exists_described h.shaped hprops h.nonempty (hdescribed name) (fun v hv => by
    obtain ⟨_, ms, inner, part, rfl, -, hpart, -⟩ := forall₂_exists hvs hv
    exact ⟨_, hpart⟩) .inside
  have hinner := hosts_of_plunged hne hvs
  obtain ⟨hhostObjects, hhostObjects'⟩ := objects_of_forall hinner fun p p' hp => by
    obtain ⟨inner, w, rfl, rfl⟩ := hp
    exact ⟨rfl, rfl⟩
  obtain ⟨hs, innerProps, rfl, htype', hitems', hinnerProps, hinnerDescribed⟩ := hhosts.exists_members hhostObjects
  obtain ⟨innerNames, hinnerNames⟩ := hhosts.shaped.required_eq
  have hhosts' := (Describes.describing hhosts.shaped htype' hitems'
    ((hhosts.shaped.areWellShaped hinnerProps).put name hparts.shaped) (forall₂_ne_nil hinner hhosts.nonempty)
    hhostObjects' (.of_put hinner (fun _ _ hp => hp) hinnerDescribed
      (by rwa [names_of_plunged hne hvs]))).requiring hhostObjects'
    (if listed names (.str name) then enlisted innerNames (.str name) else innerNames)
  refine ⟨_, ?_, (Describes.describing h.shaped htype hitems
    (((h.shaped.areWellShaped hprops).without name).put host hhosts'.shaped) (forall₂_ne_nil hvs h.nonempty) hobjects'
    (describes_plunged hne hvs hdescribed hhosts')).requiring hobjects' (unlisted names (.str name))⟩
  have hdemand : Members.demand (props.without (.str name)) (.str host) = .ok (.obj hs) := by
    rw [Members.demand, Members.get?_without, if_neg (by simpa using Ne.symm hne), houter]
  simp [LensOp.follow, followFlat, Json.asObject, Schema.plunge,
    h.shaped.properties_eq_memberSchemas.trans hprops, hhosts.shaped.properties_eq_memberSchemas.trans hinnerProps,
    hnames, hinnerNames, Json.asKey, hpart, hdemand, Members.has_iff.2 ⟨_, houter⟩]

/-- Where a member moves into another one, so does its description. -/
theorem Describes.exists_plunged (h : Describes full schema [.obj ms])
    (hhost : ms.get? host = some (.obj inner)) (hv : ms.get? name = some v) (hne : host ≠ name) : ∃ next,
      (LensOp.follow schema (.plunge (.str host) (.str name))).outcome = .ok next ∧
        Describes full next [.obj (ms.plunged host name inner v)] :=
  leads_plunge hne h (.cons ⟨ms, inner, v, rfl, hhost, hv, rfl⟩ .nil)

end Schema

namespace Lens

variable {lens : Lens}

/-- A lens that moves members takes every place of a document to one of its own. -/
private theorem exists_carryAll (bits : List (Path × Json)) (hlens : lens.isMoving = true)
    (hplaces : ∀ b ∈ bits, ∃ path, Lens.route b.1 lens = some path) :
    ∃ ws, (lens.carryAll (bits.map fun b => .add b.1 b.2)).outcome = .ok ws ∧
      List.Forall₂ (fun w b => ∃ path, Lens.route b.1 lens = some path ∧ w.Edits (.add b.2) path) ws bits := by
  induction bits with
  | nil => exact ⟨[], rfl, .nil⟩
  | cons b rest ih =>
    obtain ⟨⟨path, hpath⟩, hrest⟩ := List.forall_mem_cons.1 hplaces
    obtain ⟨ws, hws, hall⟩ := ih hrest
    have hroutes := Lens.routes lens (Lens.isStructural_of_isMoving lens hlens) (PatchOp.edits_add b.1 b.2)
      (.inr hlens)
    rw [hpath] at hroutes
    obtain ⟨q, hq, hqe⟩ := hroutes
    exact ⟨q :: ws, by rw [List.map_cons, outcome_carryAll_cons, hq, hws]; rfl, .cons ⟨path, hpath, hqe⟩ hall⟩

/-- What comes out of a lens for the steps that make a document is made where its places go. -/
theorem exists_carried (hlens : lens.isMoving = true) {ms : Members} (hms : ms.AreDocument) {back : Path → Option Path}
    {u : Tree} (h : Goes (Lens.route · lens) back (Json.obj ms).tree u) :
    ∃ ws, (lens.carryAll (Write.add.memberSteps [] ms)).outcome = .ok ws ∧
      List.Forall₂ (fun w b => ∃ path, Lens.route b.1 lens = some path ∧ w.Edits (.add b.2) path) ws
        (Json.obj ms).layout := by
  rw [Write.memberSteps_layout]
  refine exists_carryAll (Json.obj ms).layout hlens fun b hb => ?_
  obtain ⟨-, -, part, hpart, -⟩ := (Json.mem_layout _ (Json.isDocument_obj.2 hms) b).1 hb
  obtain ⟨path, -, hpath, -⟩ := h.place hpart
  exact ⟨path, hpath⟩

/-- A document whose places are taken to those of another one, so that nothing comes before what it stands in,
makes the other one. -/
theorem grows_moved (hlens : lens.isMoving = true) {ms : Members} (hms : ms.AreDocument) {u : Tree}
    (h : Goes (Lens.route · lens) (Lens.route · lens.reverse) (.obj ms.trees) u)
    (h' : Goes (Lens.route · lens.reverse) (Lens.route · lens) u (.obj ms.trees))
    (horder : ((Json.obj ms).spots.filterMap (Lens.route · lens)).Pairwise fun p q => ¬ q <+: p) :
    ∃ ws, (lens.carryAll (Write.add.memberSteps [] ms)).outcome = .ok ws ∧ Grows u.hollow ws u := by
  rw [← Json.tree_obj] at h h'
  obtain ⟨ws, hws, hall⟩ := exists_carried hlens hms h
  exact ⟨ws, hws, h.grows h' (Json.isDocument_obj.2 hms) horder hall⟩

end Lens

section Order

variable {before after : Members} {host name : String} {inner : Members} {v : Json}

/-- No position of members begins with a name that none of them has. -/
private theorem head?_ne_of_absent {ms : Members} (hms : ms.AreDocument) (hname : ms.get? name = none) {p : Path}
    (hp : p ∈ (Json.layoutMembers ms).map Prod.fst) : p.head? ≠ some name := by
  intro hhead
  obtain ⟨b, hb, rfl⟩ := List.mem_map.1 hp
  obtain ⟨other, _, rest, hother, hpath, -⟩ := (Json.mem_layoutMembers ms hms).1 hb
  rw [hpath, List.head?_cons] at hhead
  obtain rfl := Option.some.inj hhead
  rw [hname] at hother
  cases hother

/-- The host is made before anything of what moves into it. -/
private theorem pairwise_host (hms : Members.AreDocument (before ++ after))
    (hhost : before.get? host = some (.obj inner)) (hv : after.get? name = some v) :
    (Json.obj (before ++ after)).spots.Pairwise fun p q => p.head? = some name → q ≠ [host] := by
  obtain ⟨hbefore, hafter, hacross⟩ := hms.of_append
  have hname : before.get? name = none := (hacross name).resolve_right (by simp [hv])
  have hhost' : after.get? host = none := (hacross host).resolve_left (by simp [hhost])
  have hearly : ∀ p ∈ (Json.layoutMembers before).map Prod.fst, p.head? ≠ some name :=
    fun p hp => head?_ne_of_absent hbefore hname hp
  have hlate : ∀ q ∈ (Json.layoutMembers after).map Prod.fst, q ≠ [host] := by
    rintro q hq rfl
    exact head?_ne_of_absent hafter hhost' hq rfl
  rw [Json.spots, Json.layout, Json.layoutMembers_append, List.map_append]
  exact List.pairwise_append.2 ⟨List.pairwise_of_forall_mem_list fun p hp q _ hhead => absurd hhead (hearly p hp),
    List.pairwise_of_forall_mem_list fun p _ q hq _ => hlate q hq, fun p hp q _ hhead => absurd hhead (hearly p hp)⟩

/-- Nothing stands yet where the member moves to. -/
private theorem not_mem_spots {ms : Members} (hdoc : (Json.obj ms).isDocument = true)
    (hhost : ms.get? host = some (.obj inner)) (hfree : inner.get? name = none) (rest : Path) :
    host :: name :: rest ∉ (Json.obj ms).spots := by
  intro hmem
  obtain ⟨-, hsome⟩ := (Json.mem_spots hdoc).1 hmem
  have hinner : ms.trees host = some (.obj inner.trees) := by
    rw [Members.trees, hhost, Option.map_some, Json.tree_obj]
  rw [Json.tree_obj, at?, hinner, Option.bind_some, at?, Members.trees, hfree] at hsome
  cases hsome

/-- Nothing comes before what it stands in where the member moves. -/
private theorem pairwise_plunged (hms : Members.AreDocument (before ++ after))
    (hhost : before.get? host = some (.obj inner)) (hfree : inner.get? name = none)
    (hv : after.get? name = some v) :
    ((Json.obj (before ++ after)).spots.filterMap
      (Lens.route · [.plunge (.str host) (.str name)])).Pairwise fun p q => ¬ q <+: p := by
  have hdoc := Json.isDocument_obj.2 hms
  have horder := pairwise_host hms hhost hv
  have hmissing := not_mem_spots hdoc (by rw [Members.get?_append, hhost, Option.some_or]) hfree
  rw [List.pairwise_filterMap]
  refine (horder.and (Json.pairwise_spots _ hdoc)).imp_of_mem fun {p q} hp hq hpq p' hp' q' hq' hprefix => ?_
  obtain ⟨horder, hneeds⟩ := hpq
  have hkept : ¬ q <+: p := fun h => hneeds (.above h)
  obtain ⟨token, rest, rfl⟩ := List.exists_cons_of_ne_nil ((Json.mem_spots hdoc).1 hp).1
  obtain ⟨other, below, rfl⟩ := List.exists_cons_of_ne_nil ((Json.mem_spots hdoc).1 hq).1
  rw [Lens.route_singleton, LensOp.route_plunge] at hp' hq'
  obtain rfl := Option.some.inj hp'
  obtain rfl := Option.some.inj hq'
  by_cases hother : name = other
  · subst hother
    by_cases htoken : name = token
    · subst htoken
      rw [if_pos rfl, if_pos rfl] at hprefix
      exact hkept (List.cons_prefix_cons.1 hprefix).2
    · rw [if_pos rfl, if_neg htoken] at hprefix
      obtain ⟨rest', hrest⟩ := hprefix
      exact hmissing (below ++ rest') (by rwa [← hrest] at hp)
  · rw [if_neg hother] at hprefix
    by_cases htoken : name = token
    · subst htoken
      rw [if_pos rfl] at hprefix
      obtain ⟨rfl, hbelow⟩ := List.cons_prefix_cons.1 hprefix
      cases below with
      | nil => exact horder rfl rfl
      | cons next below =>
        obtain ⟨rfl, -⟩ := List.cons_prefix_cons.1 hbelow
        exact hmissing _ hq
    · rw [if_neg htoken] at hprefix
      exact hkept hprefix

end Order

namespace Lens

/-- A document in which the host comes before the member that is plunged is converted into the document with the
member in the host, and nothing else is changed. -/
theorem convertDocument_plunges {before after inner : Members} {host name : String} {v : Json} {fills : Bool}
    (hdoc : (Json.obj (before ++ after)).isDocument = true)
    (hflat : (Json.obj (before ++ after)).arraysAreFlat = true)
    (hhost : before.get? host = some (.obj inner)) (hfree : inner.get? name = none)
    (hv : after.get? name = some v) :
    ∃ result, (Lens.convertDocument [.plunge (.str host) (.str name)] fills (.obj (before ++ after)) none
        .null).outcome = .ok result ∧
      result.same (.obj ((before ++ after).plunged host name inner v)) = true := by
  have hms := Json.isDocument_obj.1 hdoc
  obtain ⟨-, -, hacross⟩ := hms.of_append
  have hne : host ≠ name := by
    rintro rfl
    rcases hacross host with h | h
    · rw [hhost] at h
      cases h
    · rw [hv] at h
      cases h
  have hhost' : Members.get? (before ++ after) host = some (.obj inner) := by
    rw [Members.get?_append, hhost, Option.some_or]
  have hv' : Members.get? (before ++ after) name = some v := by
    rw [Members.get?_append, (hacross name).resolve_right (by simp [hv]), Option.none_or, hv]
  have hinferred : Schema.Describes fills (Schema.infer (.obj (before ++ after))) [.obj (before ++ after)] :=
    Schema.describes_infer hms fun _ => Json.uniform_of_arraysAreFlat hflat
  obtain ⟨next, hnext, hdescribes⟩ := hinferred.exists_plunged hhost' hv' hne
  obtain ⟨hback, hthere⟩ := Lens.goes [.hoist (.str host) (.str name)] rfl
    (Members.recast_plunged hhost' hfree hv' hne)
  obtain ⟨ws, hws, hgrows⟩ := @grows_moved [.plunge (.str host) (.str name)] rfl _ hms _ hthere hback
    (pairwise_plunged hms hhost hfree hv)
  have hfollow : (Lens.follow (Schema.infer (.obj (before ++ after))) [.plunge (.str host) (.str name)]).outcome =
      .ok next := by
    rw [Lens.follow, Noted.outcome_bind, hnext]
    rfl
  exact exists_result_of_grows hfollow hdescribes hws (by rwa [Json.tree_obj])
    (Json.isDocument_obj.2 (hms.plunged hhost' hv'))

/-- An object moves in beside an array. -/
theorem convertDocument_plunges_items :
    let inner : Members := [("m", .arr [.int 1, .null])]
    let part : Json := .obj [("o", .str "s"), ("p", .emptyObject)]
    ∃ result, (Lens.convertDocument [.plunge (.str "h") (.str "n")] true
        (.obj [("a", .int 2), ("h", .obj inner), ("b", .null), ("n", part)]) none .null).outcome = .ok result ∧
      result.same (.obj [("a", .int 2), ("h", .obj (inner.put "n" part)), ("b", .null)]) = true := by
  intro inner part
  exact @convertDocument_plunges [("a", .int 2), ("h", .obj inner)] [("b", .null), ("n", part)] inner "h" "n" part true
    rfl rfl rfl rfl rfl

end Lens

end EditLens
