import EditLens.Proofs.Lens.Rewrite
import EditLens.Proofs.Json.Elements
import EditLens.Proofs.Schema.Sampled
import EditLens.Schema.Follow

/-! Lenses on schemas that describe sample values. Main statement: where a lens can rewrite all the
samples, it can be followed on their schema, and leads to one that describes the rewritten samples. -/
namespace EditLens

open Schema

mutual

/-- Whether conversions name types for the values that they make, if they say anything about them. -/
def LensOp.isTyped : LensOp → Bool
  | .convert _ _ _ destination => destination.isNull || isTypeName destination
  | .inside _ lens => Lens.isTyped lens
  | .each lens => Lens.isTyped lens
  | _ => true

def Lens.isTyped : Lens → Bool
  | [] => true
  | op :: rest => op.isTyped && Lens.isTyped rest

end

theorem Lens.outcome_follow_append (schema : Json) (first second : Lens) :
    (Lens.follow schema (first ++ second)).outcome =
      (Lens.follow schema first).outcome >>= fun next => (Lens.follow next second).outcome := by
  induction first generalizing schema with
  | nil => rfl
  | cons op rest ih => simp [Lens.follow, ih]

theorem Lens.outcome_follow_singleton (schema : Json) (op : LensOp) :
    (Lens.follow schema [op]).outcome = (LensOp.follow schema op).outcome := by
  rw [Lens.follow, Noted.outcome_bind]
  cases (LensOp.follow schema op).outcome <;> rfl

/-- Where samples are related to others one by one, what is followed on a schema of the samples leads to one that
describes the others. -/
def Schema.Leads (follow : Json → Noted Json) (R : Json → Json → Prop) : Prop :=
  ∀ ⦃full : Bool⦄ ⦃schema : Json⦄ ⦃vs vs' : List Json⦄, Describes full schema vs → List.Forall₂ R vs vs' →
    ∃ schema', (follow schema).outcome = .ok schema' ∧ Describes full schema' vs'

def LensOp.Leads (op : LensOp) : Prop :=
  op.isTyped = true → Schema.Leads (LensOp.follow · op) fun v v' => op.rewrite v = .ok v'

def Lens.Leads (lens : Lens) : Prop :=
  Lens.isTyped lens = true → Schema.Leads (Lens.follow · lens) fun v v' => lens.rewrite v = .ok v'

namespace Schema

variable {full : Bool} {schema : Json} {ms props props' : Members} {vs vs' : List Json}

/-- The members of objects may be described in another way. -/
theorem Describes.describing (shaped : WellShaped (.obj ms)) (htype : OfType ms "object")
    (hitems : ms.get? "items" = none) (hprops : AreWellShaped props) (nonempty : vs ≠ [])
    (all : ∀ v ∈ vs, v.isObject = true)
    (described : ∀ name : String,
      DescribesMember full (props.get? name) (vs.map (Json.member? name))) :
    Describes full (.obj (withProperties ms props)) vs :=
  .of_members (shaped.describing hprops) nonempty all (htype.put (by simp) _)
    (by rwa [get?_withProperties (by simp)]) memberSchemas_withProperties described

theorem Describes.requiring (h : Describes full (.obj ms) vs) (all : ∀ v ∈ vs, v.isObject = true)
    (names : List Json) : Describes full (.obj (withRequired ms names)) vs := by
  obtain ⟨ms', props, heq, htype, hitems, hprops, hdescribed⟩ := h.exists_members all
  obtain rfl := Json.obj.inj heq
  exact .of_members (h.shaped.requiring names) h.nonempty all (htype.put (by simp) _)
    (by rwa [get?_withRequired _ (by simp)]) (by rwa [memberSchemas_withRequired]) hdescribed

/-- Where an operation is about members, all samples are objects and stay objects. -/
theorem objects_of_forall {R : Json → Json → Prop} (hvs : List.Forall₂ R vs vs')
    (hR : ∀ v v', R v v' → v.isObject = true ∧ v'.isObject = true) :
    (∀ v ∈ vs, v.isObject = true) ∧ ∀ v' ∈ vs', v'.isObject = true := by
  constructor
  · intro v hv
    obtain ⟨v', hv'⟩ := forall₂_exists hvs hv
    exact (hR v v' hv').1
  · intro v' hv'
    obtain ⟨v, -, hv⟩ := forall₂_exists_left hvs hv'
    exact (hR v v' hv).2

/-- The description of a member that all samples have. -/
theorem exists_described {name : String} (h : WellShaped (.obj ms)) (hprops : memberSchemas (.obj ms) = .ok props)
    (hne : vs ≠ []) (hdescribed : DescribesMember full (props.get? name) (vs.map (Json.member? name)))
    (hall : ∀ v ∈ vs, ∃ part, v.member? name = some part) (step : SchemaStep) :
    ∃ part, props.get? name = some part ∧ described ms (.str name) step = .ok part ∧
      Describes full part (vs.filterMap (Json.member? name)) := by
  obtain ⟨v, hv⟩ := List.exists_mem_of_ne_nil _ hne
  obtain ⟨w, hw⟩ := hall v hv
  obtain ⟨part, hpart, hdesc⟩ := hdescribed.exists_part (v := w) (List.mem_map.2 ⟨v, hv, hw⟩)
  refine ⟨part, hpart, ?_, by simpa [List.filterMap_map] using hdesc⟩
  simp [described, h.properties_eq_memberSchemas.trans hprops, Json.asKey, hpart]
  rfl

/-- The members of samples in which one member has got another value, with another description for this one. -/
theorem DescribesMember.of_put {R : Json → Json → Prop} {key : String} {part : Json} (hvs : List.Forall₂ R vs vs')
    (hput : ∀ v v', R v v' → ∃ (ns : Members) (w : Json), v = .obj ns ∧ v' = .obj (ns.put key w))
    (hdescribed : ∀ name : String, DescribesMember full (props.get? name) (vs.map (Json.member? name)))
    (hpart : Describes full part (vs'.filterMap (Json.member? key))) (name : String) :
    DescribesMember full ((props.put key part).get? name) (vs'.map (Json.member? name)) := by
  by_cases hname : name = key
  · subst hname
    rw [Members.get?_put_self]
    refine .of_describes hpart fun v' hv' => ?_
    obtain ⟨v, -, hv⟩ := forall₂_exists_left hvs hv'
    obtain ⟨ns, w, -, rfl⟩ := hput v v' hv
    exact ⟨w, Members.get?_put_self⟩
  · rw [Members.get?_put, if_neg (by simpa using Ne.symm hname), forall₂_map_eq hvs]
    · exact hdescribed name
    · intro v v' hv
      obtain ⟨ns, w, rfl, rfl⟩ := hput v v' hv
      rw [Json.member?_obj, Members.get?_put, if_neg (by simpa using Ne.symm hname)]
      rfl

namespace Leads

variable {follow first second : Json → Noted Json} {R S : Json → Json → Prop} {lens : Lens}

theorem imp (h : Leads follow R) (himp : ∀ v v', S v v' → R v v') : Leads follow S :=
  fun _ _ _ _ hdescribes hvs => h hdescribes (hvs.imp himp)

/-- The order of members does not matter. -/
theorem alike (h : Leads follow R) : Leads follow fun v v' => ∃ w, R v w ∧ w.tree = v'.tree := by
  intro full schema vs vs' hdescribes hvs
  obtain ⟨ws, hws, htrees⟩ := forall₂_comp hvs
  obtain ⟨schema', hfollow, hdescribes'⟩ := h hdescribes hws
  exact ⟨schema', hfollow, hdescribes'.congr (forall₂_map_eq htrees fun _ _ => Eq.symm)⟩

/-- One step after another. -/
theorem comp (hfirst : Leads first R) (hsecond : Leads second S)
    (hfollow : ∀ schema, (follow schema).outcome = (first schema).outcome >>= fun next => (second next).outcome) :
    Leads follow fun v w => ∃ u, R v u ∧ S u w := by
  intro full schema vs ws hdescribes hws
  obtain ⟨us, hus, hws⟩ := forall₂_comp hws
  obtain ⟨mid, hmid, hmids⟩ := hfirst hdescribes hus
  obtain ⟨schema', hschema', hdescribes'⟩ := hsecond hmids hws
  exact ⟨schema', by rw [hfollow, hmid, Except.bind_ok, hschema'], hdescribes'⟩

/-- A lens that is followed on the description of a member. -/
theorem inside (h : Leads (Lens.follow · lens) R) (key : String) :
    Leads (LensOp.follow · (.inside (.str key) lens)) fun v v' => ∃ (ms : Members) (part part' : Json), v = .obj ms ∧
      ms.get? key = some part ∧ R part part' ∧ v' = .obj (ms.put key part') := by
  intro full schema vs vs' hdescribes hvs
  obtain ⟨hobjects, hobjects'⟩ := objects_of_forall hvs fun v v' hv => by
    obtain ⟨ms, part, part', rfl, -, -, rfl⟩ := hv
    exact ⟨rfl, rfl⟩
  obtain ⟨ms, props, rfl, htype, hitems, hprops, hdescribed⟩ := hdescribes.exists_members hobjects
  have hshaped : AreWellShaped props := hdescribes.shaped.areWellShaped hprops
  obtain ⟨part, hpart, hdesc, hparts⟩ := exists_described hdescribes.shaped hprops hdescribes.nonempty (hdescribed key)
    (fun w hw => by
      obtain ⟨w', hw'⟩ := forall₂_exists hvs hw
      obtain ⟨ns, p, p', rfl, hp, -, -⟩ := hw'
      exact ⟨p, hp⟩) .inside
  have hmembers : List.Forall₂ R (vs.filterMap (Json.member? key)) (vs'.filterMap (Json.member? key)) :=
    forall₂_filterMap hvs fun w w' hw => by
      obtain ⟨ns, p, p', rfl, hp, hR, rfl⟩ := hw
      exact ⟨p, p', hp, Members.get?_put_self, hR⟩
  obtain ⟨part', hfollow, hparts'⟩ := h hparts hmembers
  have hnew := Describes.describing hdescribes.shaped htype hitems (hshaped.put key hparts'.shaped)
    (forall₂_ne_nil hvs hdescribes.nonempty) hobjects' (.of_put hvs (fun v v' hv => by
      obtain ⟨ns, p, p', rfl, -, -, rfl⟩ := hv
      exact ⟨ns, p', rfl, rfl⟩) hdescribed hparts')
  refine ⟨_, ?_, hnew⟩
  simp [LensOp.follow, Json.asObject, hdesc, hfollow, describe,
    hdescribes.shaped.properties_eq_memberSchemas.trans hprops, Json.asKey]

/-- A lens that is followed on the description of the elements, if there are any. -/
theorem each (h : Leads (Lens.follow · lens) R) :
    Leads (LensOp.follow · (.each lens)) fun v v' => ∃ es es', v = .arr es ∧ List.Forall₂ R es es' ∧ v' = .arr es' := by
  intro full schema vs vs' hdescribes hvs
  have harrays : ∀ w ∈ vs, w.isArray = true := by
    intro w hw
    obtain ⟨w', hw'⟩ := forall₂_exists hvs hw
    obtain ⟨es, es', rfl, -, -⟩ := hw'
    rfl
  have harrays' : ∀ w ∈ vs', w.isArray = true := by
    intro w' hw'
    obtain ⟨w, -, hw⟩ := forall₂_exists_left hvs hw'
    obtain ⟨es, es', -, -, rfl⟩ := hw
    rfl
  have helements : List.Forall₂ R (vs.flatMap Json.elements) (vs'.flatMap Json.elements) :=
    forall₂_flatMap hvs fun w w' hw => by
      obtain ⟨es, es', rfl, hes, rfl⟩ := hw
      exact hes
  obtain ⟨ms, rfl, htype, hknown, hparts⟩ := hdescribes.exists_elements harrays
  cases hitems : ms.get? "items" with
  | none =>
    have hnone : vs'.flatMap Json.elements = [] := by
      rw [hknown hitems] at helements
      exact List.forall₂_nil_left_iff.1 helements
    refine ⟨.obj ms, ?_, .arrays hdescribes.shaped (forall₂_ne_nil hvs hdescribes.nonempty) harrays' htype
      (fun _ => hnone) fun part hpart => ?_⟩
    · have hhas : ms.has "items" = false := Members.has_eq_false.2 hitems
      simp [LensOp.follow, Json.mentions, hhas, Members.valueOf, htype.type]
    · rw [hitems] at hpart
      cases hpart
  | some part =>
    obtain ⟨part', hfollow, hparts'⟩ := h (hparts part hitems) helements
    refine ⟨.obj (ms.put "items" part'), ?_, .arrays (hdescribes.shaped.enumerating hparts'.shaped)
      (forall₂_ne_nil hvs hdescribes.nonempty) harrays' (htype.put (by simp) _) ?_ ?_⟩
    · have hhas : ms.has "items" = true := Members.has_iff.2 ⟨part, hitems⟩
      simp [LensOp.follow, Json.mentions, hhas, WellShaped.valueOf_of_get? hitems, hfollow]
    · simp
    · intro t ht
      rw [Members.get?_put_self] at ht
      exact Option.some.inj ht ▸ hparts'

end Leads

end Schema

namespace LensOp

section Rename

variable {full : Bool} {props : Members} {vs vs' : List Json} {source destination : String}

private theorem describes_renamed (hvs : List.Forall₂ (fun v v' => v.renameMember source destination = .ok v') vs vs')
    (hdescribed : ∀ name : String, DescribesMember full (props.get? name) (vs.map (Json.member? name)))
    (hnew : props.get? destination = none) (name : String) :
    DescribesMember full ((props.renamed source destination).get? name) (vs'.map (Json.member? name)) := by
  by_cases hname : name = destination
  · subst hname
    rw [Members.get?_renamed_destination hnew, forall₂_map_eq hvs]
    · exact hdescribed source
    · intro w w' hw
      obtain ⟨ns, rfl, -, hnew, rfl⟩ := Json.renameMember_eq_ok.1 hw
      exact Members.get?_renamed_destination hnew
  by_cases hname' : name = source
  · subst hname'
    rw [Members.get?_renamed_source (by simpa using Ne.symm hname)]
    refine .of_eq_none fun w' hw' => ?_
    obtain ⟨w, -, hw⟩ := forall₂_exists_left hvs hw'
    obtain ⟨ns, rfl, -, -, rfl⟩ := Json.renameMember_eq_ok.1 hw
    exact Members.get?_renamed_source (by simpa using Ne.symm hname)
  · rw [Members.get?_renamed_of_ne (by simpa using hname') (by simpa using Ne.symm hname), forall₂_map_eq hvs]
    · exact hdescribed name
    · intro w w' hw
      obtain ⟨ns, rfl, -, -, rfl⟩ := Json.renameMember_eq_ok.1 hw
      exact Members.get?_renamed_of_ne (by simpa using hname') (by simpa using Ne.symm hname)

private theorem leads_rename (s d : Json) : (LensOp.rename s d).Leads := by
  intro _ full schema vs vs' h hvs
  obtain ⟨v, hv⟩ := List.exists_mem_of_ne_nil _ h.nonempty
  obtain ⟨v', hv'⟩ := forall₂_exists hvs hv
  cases direct_of_rewrite hv' with
  | rename source destination =>
  obtain ⟨hobjects, hobjects'⟩ := objects_of_forall hvs fun v v' hv => by
    obtain ⟨ms, rfl, -, -, rfl⟩ := Json.renameMember_eq_ok.1 hv
    exact ⟨rfl, rfl⟩
  obtain ⟨ms, props, rfl, htype, hitems, hprops, hdescribed⟩ := h.exists_members hobjects
  have hshaped : AreWellShaped props := h.shaped.areWellShaped hprops
  obtain ⟨names, hnames⟩ := h.shaped.required_eq
  have hsource : ∃ part, props.get? source = some part := by
    obtain ⟨ns, rfl, hhas, -, -⟩ := Json.renameMember_eq_ok.1 hv'
    obtain ⟨w, hw⟩ := Members.has_iff.1 hhas
    obtain ⟨part, hpart, -⟩ := (hdescribed source).exists_part (v := w) (List.mem_map.2 ⟨_, hv, hw⟩)
    exact ⟨part, hpart⟩
  have hdestination : props.get? destination = none := by
    refine (hdescribed destination).eq_none fun o ho => ?_
    obtain ⟨w, hw, rfl⟩ := List.mem_map.1 ho
    obtain ⟨w', hw'⟩ := forall₂_exists hvs hw
    obtain ⟨ns, rfl, -, hnew, -⟩ := Json.renameMember_eq_ok.1 hw'
    exact hnew
  have hrenamed : renameKey props source destination = props.renamed source destination :=
    Members.ofEntries_eq (hshaped.renamed hdestination).distinct
  have hnew := Describes.describing h.shaped htype hitems (hshaped.renamed hdestination)
    (forall₂_ne_nil hvs h.nonempty) hobjects' (describes_renamed hvs hdescribed hdestination)
  refine ⟨_, ?_, hnew.requiring hobjects'
    (names.map fun n => if n.same (.str source) then .str destination else n)⟩
  have hproperties := h.shaped.properties_eq_memberSchemas.trans hprops
  simp [LensOp.follow, followFlat, Json.asObject, Schema.rename, hproperties, Json.asKey, hrenamed,
    Members.has_iff.2 hsource, hnames]

end Rename

/-- Where a member is taken out of all samples, it is taken out of their description. -/
private theorem describes_without {full : Bool} {ms props : Members} {vs vs' : List Json}
    {key : String} (h : Describes full (.obj ms) vs) (hprops : memberSchemas (.obj ms) = .ok props)
    (hvs : List.Forall₂ (fun v v' => v.removeMember key = .ok v') vs vs') (names : List Json) :
    Describes full (.obj (withRequired (withProperties ms (props.without key)) names)) vs' := by
  obtain ⟨hobjects, hobjects'⟩ := objects_of_forall hvs fun v v' hv => by
    obtain ⟨ns, rfl, rfl⟩ := Json.removeMember_eq_ok.1 hv
    exact ⟨rfl, rfl⟩
  obtain ⟨_, _, heq, htype, hitems, hprops', hdescribed⟩ := h.exists_members hobjects
  obtain rfl := Json.obj.inj heq
  obtain rfl := Except.ok.inj (hprops'.symm.trans hprops)
  refine (Describes.describing h.shaped htype hitems ((h.shaped.areWellShaped hprops).without key)
    (forall₂_ne_nil hvs h.nonempty) hobjects' fun name => ?_).requiring hobjects' names
  by_cases hname : name = key
  · subst hname
    rw [Members.get?_without, if_pos (by simp)]
    refine .of_eq_none fun w' hw' => ?_
    obtain ⟨w, -, hw⟩ := forall₂_exists_left hvs hw'
    obtain ⟨ns, rfl, rfl⟩ := Json.removeMember_eq_ok.1 hw
    rw [Json.member?_obj, Members.get?_without, if_pos (by simp)]
  · rw [Members.get?_without, if_neg (by simpa using Ne.symm hname), forall₂_map_eq hvs]
    · exact hdescribed name
    · intro w w' hw
      obtain ⟨ns, rfl, rfl⟩ := Json.removeMember_eq_ok.1 hw
      rw [Json.member?_obj, Members.get?_without, if_neg (by simpa using Ne.symm hname)]
      rfl

private theorem leads_remove (property : Property) : (LensOp.remove property).Leads := by
  intro _ full schema vs vs' h hvs
  obtain ⟨v, hv⟩ := List.exists_mem_of_ne_nil _ h.nonempty
  obtain ⟨v', hv'⟩ := forall₂_exists hvs hv
  cases direct_of_rewrite hv' with
  | remove key type default required items =>
  obtain ⟨ms, rfl⟩ := h.shaped.exists_obj
  obtain ⟨props, hprops, -⟩ := h.shaped.memberSchemas_eq
  obtain ⟨names, hnames⟩ := h.shaped.required_eq
  refine ⟨_, ?_, describes_without h hprops hvs (unlisted names (.str key))⟩
  have hproperties := h.shaped.properties_eq_memberSchemas.trans hprops
  simp only [LensOp.follow, followFlat, Json.asObject, Schema.remove, hproperties, Json.asKey, hnames,
    Noted.outcome_bind, Noted.outcome_liftM, Except.bind_ok]
  cases props.has key <;> rfl

private theorem leads_inside (n : Json) {lens : Lens} (ih : lens.Leads) :
    (LensOp.inside n lens).Leads := by
  intro htyped full schema vs vs' h hvs
  obtain ⟨v, hv⟩ := List.exists_mem_of_ne_nil _ h.nonempty
  obtain ⟨v', hv'⟩ := forall₂_exists hvs hv
  cases direct_of_rewrite hv' with
  | inside key => exact (Leads.inside (ih htyped) key).imp (fun w w' hw => Json.rewriteMember_eq_ok.1 hw) h hvs

section Convert

variable {full : Bool} {mapping : Mapping} {vs vs' : List Json} {key : String}

private theorem scalars_of_recoded (hvs : List.Forall₂ (fun v v' => v.recodeMember key mapping = .ok v') vs vs') :
    List.Forall₂ (fun w w' => (∃ s, w = .scalar s) ∧ ∃ t, w' = .scalar t) (vs.filterMap (Json.member? key))
      (vs'.filterMap (Json.member? key)) :=
  forall₂_filterMap hvs fun v v' hv => by
    obtain ⟨ns, s, t, rfl, hs, -, rfl⟩ := Json.recodeMember_eq_ok.1 hv
    exact ⟨.scalar s, .scalar t, hs, Members.get?_put_self, ⟨s, rfl⟩, t, rfl⟩

private theorem leads_convert (n : Json) (mapping : Mapping) (source destination : Json) :
    (LensOp.convert n mapping source destination).Leads := by
  intro htyped full schema vs vs' h hvs
  obtain ⟨v, hv⟩ := List.exists_mem_of_ne_nil _ h.nonempty
  obtain ⟨v', hv'⟩ := forall₂_exists hvs hv
  cases direct_of_rewrite hv' with
  | convert key =>
  obtain ⟨hobjects, hobjects'⟩ := objects_of_forall hvs fun v v' hv => by
    obtain ⟨ms, s, t, rfl, -, -, rfl⟩ := Json.recodeMember_eq_ok.1 hv
    exact ⟨rfl, rfl⟩
  obtain ⟨ms, props, rfl, htype, hitems, hprops, hdescribed⟩ := h.exists_members hobjects
  have hproperties := h.shaped.properties_eq_memberSchemas.trans hprops
  obtain ⟨part, hpart, hdesc, hparts⟩ := exists_described h.shaped hprops h.nonempty (hdescribed key)
    (fun w hw => by
      obtain ⟨w', hw'⟩ := forall₂_exists hvs hw
      obtain ⟨ns, s, t, rfl, hs, -, -⟩ := Json.recodeMember_eq_ok.1 hw'
      exact ⟨.scalar s, hs⟩) .convert
  have hscalars := scalars_of_recoded hvs
  obtain ⟨ps, rfl, hdefault, henum⟩ := hparts.exists_scalars fun w hw =>
    (forall₂_exists hscalars hw).elim fun _ h => h.1
  have hnew : ∀ part' : Members, WellShaped (.obj part') → part'.get? "default" = none →
      part'.get? "enum" = none →
      Describes full (.obj (withProperties ms (props.put key (.obj part')))) vs' := by
    intro part' hpart' hdefault' henum'
    refine Describes.describing h.shaped htype hitems ((h.shaped.areWellShaped hprops).put key hpart')
      (forall₂_ne_nil hvs h.nonempty) hobjects' (.of_put hvs (fun v v' hv => ?_) hdescribed ?_)
    · obtain ⟨ns, s, t, rfl, -, -, rfl⟩ := Json.recodeMember_eq_ok.1 hv
      exact ⟨ns, .scalar t, rfl, rfl⟩
    · refine .of_scalars hpart' (forall₂_ne_nil hscalars hparts.nonempty) hdefault' henum' fun w' hw' => ?_
      obtain ⟨w, -, -, hw⟩ := forall₂_exists_left hscalars hw'
      exact hw
  by_cases hnull : destination.isNull = true
  · refine ⟨_, ?_, hnew ps hparts.shaped hdefault henum⟩
    simp [LensOp.follow, followFlat, Json.asObject, Schema.convert, hdesc, hnull, describe,
      hproperties, Json.asKey, Json.asMembers, hdefault, henum]
  · have htype : isTypeName destination = true := by
      have : (destination.isNull || isTypeName destination) = true := htyped
      simpa [hnull] using this
    refine ⟨_, ?_, hnew [("type", destination)] ?_ (by simp [Members.get?_cons])
      (by simp [Members.get?_cons])⟩
    · simp [LensOp.follow, followFlat, Json.asObject, Schema.convert, hdesc, hnull, describe,
        hproperties, Json.asKey]
    · refine Shape.wellShaped_ofTypes ?_
      cases destination with
      | arr es => cases htype
      | scalar s => exact htype
      | obj ns => exact htype

end Convert

section Hoist

variable {full : Bool} {props : Members} {vs vs' : List Json} {host key : String}

/-- Where a member moves out of its host in all samples, it is taken out of all hosts. -/
private theorem hosts_of_hoisted (hne : host ≠ key)
    (hvs : List.Forall₂ (fun v v' => v.hoistMember host key = .ok v') vs vs') :
    List.Forall₂ (fun p p' => p.removeMember key = .ok p') (vs.filterMap (Json.member? host))
      (vs'.filterMap (Json.member? host)) :=
  forall₂_filterMap hvs fun v v' hv => by
    obtain ⟨ns, inner, part, rfl, hhost, -, -, rfl⟩ := Json.hoistMember_eq_ok.1 hv
    refine ⟨.obj inner, .obj (inner.without key), hhost, ?_, rfl⟩
    rw [Json.member?_obj, Members.get?_cons, if_neg (by simpa using Ne.symm hne), Members.get?_put_self]

private theorem names_of_hoisted (hvs : List.Forall₂ (fun v v' => v.hoistMember host key = .ok v') vs vs') :
    vs'.map (Json.member? key) = (vs.filterMap (Json.member? host)).map (Json.member? key) := by
  have hfrom : List.Forall₂ (fun p v' => Json.member? key v' = Json.member? key p)
      (vs.filterMap (Json.member? host)) (vs'.filterMap some) := forall₂_filterMap hvs fun v v' hv => by
    obtain ⟨ns, inner, part, rfl, hhost, -, hpart, rfl⟩ := Json.hoistMember_eq_ok.1 hv
    refine ⟨_, _, hhost, rfl, ?_⟩
    rw [Json.member?_obj, Json.member?_obj, hpart, Members.get?_cons, if_pos (by simp)]
  rw [List.filterMap_some] at hfrom
  exact forall₂_map_eq hfrom fun _ _ => id

private theorem describes_hoisted {outer part : Json} (hne : host ≠ key)
    (hvs : List.Forall₂ (fun v v' => v.hoistMember host key = .ok v') vs vs')
    (hdescribed : ∀ name : String, DescribesMember full (props.get? name) (vs.map (Json.member? name)))
    (houter : Describes full outer (vs'.filterMap (Json.member? host)))
    (hpart : DescribesMember full (some part) ((vs.filterMap (Json.member? host)).map (Json.member? key)))
    (name : String) :
    DescribesMember full (((props.put host outer).put key part).get? name) (vs'.map (Json.member? name)) := by
  by_cases hkey : name = key
  · subst hkey
    rw [Members.get?_put_self, names_of_hoisted hvs]
    exact hpart
  rw [Members.get?_put, if_neg (by simpa using Ne.symm hkey)]
  by_cases hhost : name = host
  · subst hhost
    rw [Members.get?_put_self]
    refine .of_describes houter fun v' hv' => ?_
    obtain ⟨v, -, hv⟩ := forall₂_exists_left hvs hv'
    obtain ⟨ns, inner, part, -, -, -, -, rfl⟩ := Json.hoistMember_eq_ok.1 hv
    refine ⟨.obj (inner.without key), ?_⟩
    rw [Json.member?_obj, Members.get?_cons, if_neg (by simpa using Ne.symm hne), Members.get?_put_self]
  · rw [Members.get?_put, if_neg (by simpa using Ne.symm hhost), forall₂_map_eq hvs]
    · exact hdescribed name
    · intro v v' hv
      obtain ⟨ns, inner, part, rfl, -, -, -, rfl⟩ := Json.hoistMember_eq_ok.1 hv
      rw [Json.member?_obj, Members.get?_cons, if_neg (by simpa using Ne.symm hkey), Members.get?_put,
        if_neg (by simpa using Ne.symm hhost)]
      rfl

private theorem leads_hoist (h n : Json) : (LensOp.hoist h n).Leads := by
  intro _ full schema vs vs' hdescribes hvs
  obtain ⟨v, hv⟩ := List.exists_mem_of_ne_nil _ hdescribes.nonempty
  obtain ⟨v', hv'⟩ := forall₂_exists hvs hv
  cases direct_of_rewrite hv' with
  | hoist host key =>
  obtain ⟨hobjects, hobjects'⟩ := objects_of_forall hvs fun w w' hw => by
    obtain ⟨ns, inner, part, rfl, -, -, -, rfl⟩ := Json.hoistMember_eq_ok.1 hw
    exact ⟨rfl, rfl⟩
  have hne : host ≠ key := by
    rintro rfl
    obtain ⟨ns, inner, part, -, hhost, hkey, -, -⟩ := Json.hoistMember_eq_ok.1 hv'
    rw [hhost] at hkey
    cases hkey
  obtain ⟨ms, props, rfl, htype, hitems, hprops, hdescribed⟩ := hdescribes.exists_members hobjects
  obtain ⟨names, hnames⟩ := hdescribes.shaped.required_eq
  -- the host, before and after
  obtain ⟨outer, houter, hdesc, hhosts⟩ := exists_described hdescribes.shaped hprops hdescribes.nonempty
    (hdescribed host) (fun w hw => by
      obtain ⟨w', hw'⟩ := forall₂_exists hvs hw
      obtain ⟨ns, inner, part, rfl, hhost, -, -, -⟩ := Json.hoistMember_eq_ok.1 hw'
      exact ⟨.obj inner, hhost⟩) (.hoist (.str key))
  have hinner := hosts_of_hoisted hne hvs
  obtain ⟨hs, innerProps, rfl, -, -, hinnerProps, hinnerDescribed⟩ := hhosts.exists_members
    (objects_of_forall hinner fun p p' hp => by
      obtain ⟨ns, rfl, rfl⟩ := Json.removeMember_eq_ok.1 hp
      exact ⟨rfl, rfl⟩).1
  obtain ⟨hoisted, hhoisted, -, hparts⟩ := exists_described hhosts.shaped hinnerProps hhosts.nonempty
    (hinnerDescribed key) (fun p hp => by
      obtain ⟨w, hw, hp⟩ := List.mem_filterMap.1 hp
      obtain ⟨w', hw'⟩ := forall₂_exists hvs hw
      obtain ⟨ns, inner, part, rfl, hhost, -, hpart, -⟩ := Json.hoistMember_eq_ok.1 hw'
      obtain rfl := Option.some.inj (hp.symm.trans hhost)
      exact ⟨part, hpart⟩) .convert
  obtain ⟨innerNames, hinnerNames⟩ := hhosts.shaped.required_eq
  have hhosts' := describes_without hhosts hinnerProps hinner (unlisted innerNames (.str key))
  refine ⟨_, ?_, (Describes.describing hdescribes.shaped htype hitems
    (((hdescribes.shaped.areWellShaped hprops).put host hhosts'.shaped).put key hparts.shaped)
    (forall₂_ne_nil hvs hdescribes.nonempty) hobjects'
    (describes_hoisted hne hvs hdescribed hhosts' (hhoisted ▸ hinnerDescribed key))).requiring hobjects'
      (if listed innerNames (.str key) then enlisted names (.str key) else names)⟩
  have hproperties := hdescribes.shaped.properties_eq_memberSchemas.trans hprops
  have hinnerProperties := hhosts.shaped.properties_eq_memberSchemas.trans hinnerProps
  simp [LensOp.follow, followFlat, Json.asObject, Schema.hoist, hdesc, hproperties,
    hinnerProperties, Json.asKey, hhoisted, hnames, hinnerNames]

end Hoist

private theorem leads_each {lens : Lens} (ih : lens.Leads) : (LensOp.each lens).Leads :=
  fun htyped => (Leads.each (ih htyped)).imp fun _ _ hw => Json.rewriteElements_eq_ok.1 hw

end LensOp

mutual

theorem LensOp.leads (op : LensOp) : op.Leads := by
  match op with
  | .rename s d => exact LensOp.leads_rename s d
  | .hoist h n => exact LensOp.leads_hoist h n
  | .remove property => exact LensOp.leads_remove property
  | .convert n mapping s d => exact LensOp.leads_convert n mapping s d
  | .inside n lens => exact LensOp.leads_inside n (Lens.leads lens)
  | .each lens => exact LensOp.leads_each (Lens.leads lens)
  | .plunge _ _ | .wrap _ | .head _ | .add _ =>
    intro _ full schema vs vs' h hvs
    obtain ⟨v, hv⟩ := List.exists_mem_of_ne_nil _ h.nonempty
    obtain ⟨v', hv'⟩ := forall₂_exists hvs hv
    cases LensOp.direct_of_rewrite hv'

/-- A lens that can rewrite all samples can be followed on their schema. -/
theorem Lens.leads (lens : Lens) : lens.Leads := by
  intro htyped
  match lens with
  | [] =>
    intro full schema vs vs' h hvs
    have heq : List.Forall₂ Eq vs vs' := hvs.imp fun v v' hv => Except.ok.inj hv
    rw [List.forall₂_eq_eq_eq] at heq
    exact ⟨schema, rfl, heq ▸ h⟩
  | op :: rest =>
    rw [Lens.isTyped, Bool.and_eq_true] at htyped
    exact ((LensOp.leads op htyped.1).comp (Lens.leads rest htyped.2) fun schema => by
      rw [Lens.follow, Noted.outcome_bind]).imp fun v v' hv => Lens.rewrite_cons_eq_ok.1 hv

end

end EditLens
