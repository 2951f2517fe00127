import EditLens.Proofs.Lens.Listed
import EditLens.Proofs.Lens.Plunging
import EditLens.Proofs.Lens.Reversing
import EditLens.Proofs.Patch.Lasting
import EditLens.Proofs.Schema.Formed

/-! Documents that go through a lens and come back. Main statement: where a lens of moved members fits a document,
the document comes back if and only if on the way back no place comes before one that it stands in. -/
namespace EditLens

open EditLens.Tree

namespace Schema

variable {full : Bool} {schema part : Json} {ms ns : Members} {v : Json}

private theorem OfType.memberDefault_eq {type : String} (h : OfType ms type) (hshaped : WellShaped (.obj ms)) :
    memberDefault (.obj ms) = if type = "null" then .ok (some .null) else do
      return some (← defaultOfName (.str type)) := by
  cases hshaped with
  | mk os props _ _ _ hone => rw [memberDefault, if_pos (by rfl), defaultOf_type h.type h.default h.anyOf hone]

/-- What is filled in for a member that is described by one value is of the kind of that value, or the value is a
scalar. -/
private theorem BlankMember.of_describes {name : String} {o : Option Tree} (hblank : BlankMember schema name part o)
    (h : Describes full part [v]) : (∃ s, v = .scalar s) ∨ v.isArray = true ∧ o = some (.arr []) ∨
      v.isObject = true ∧ ∃ g next, o = some (.obj g) ∧ Schema.below schema name = .ok next ∧ Blank next g := by
  cases h with
  | objects shaped nonempty all type =>
    have hdefault : memberDefault (.obj _) = .ok (some .emptyObject) := type.memberDefault_eq shaped
    refine .inr (.inr ⟨all v List.mem_cons_self, ?_⟩)
    cases hblank with
    | none default => rw [hdefault] at default; cases default
    | value default nonempty =>
      rw [hdefault] at default
      exact absurd (Option.some.inj (Except.ok.inj default)).symm nonempty
    | object _ below blank => exact ⟨_, _, rfl, below, blank⟩
  | arrays shaped nonempty all type =>
    have hdefault : memberDefault (.obj _) = .ok (some (.arr [])) := type.memberDefault_eq shaped
    refine .inr (.inl ⟨all v List.mem_cons_self, ?_⟩)
    cases hblank with
    | none default => rw [hdefault] at default; cases default
    | value default =>
      obtain rfl := Option.some.inj (Except.ok.inj (hdefault.symm.trans default))
      rw [Json.tree_arr]
      rfl
    | object default => rw [hdefault] at default; cases default
  | others shaped nonempty objects arrays =>
    obtain ⟨w, hw, hobject⟩ := objects
    obtain rfl := List.mem_singleton.1 hw
    obtain ⟨u, hu, harray⟩ := arrays
    obtain rfl := List.mem_singleton.1 hu
    cases u with
    | scalar s => exact .inl ⟨s, rfl⟩
    | arr es => cases harray
    | obj ns => cases hobject

/-- In the blank object of a description of one object, arrays are empty, and they stand where the object has arrays
or scalars, if anything. -/
private theorem Blank.of_describes {f : String → Option Tree} (hblank : Blank (.obj ms) f)
    (h : Describes full (.obj ms) [.obj ns]) {path : Path} {es : List Tree} {w : Tree}
    (hes : (Tree.obj f).at? path = some (.arr es)) (hw : (Tree.obj ns.trees).at? path = some w) :
    (∃ s, w = .scalar s) ∨ es = [] ∧ ∃ fs, w = .arr fs := by
  induction path generalizing ms ns f with
  | nil => cases hes
  | cons token rest ih =>
    obtain ⟨u, hu, hes⟩ := Option.bind_eq_some_iff.1 hes
    obtain ⟨t, ht, hw⟩ := Option.bind_eq_some_iff.1 hw
    obtain ⟨v, hv, rfl⟩ := Option.map_eq_some_iff.1 ht
    obtain ⟨_, props, heq, htype, hitems, hprops, hdescribed⟩ := h.exists_members (by simp [Json.isObject])
    obtain rfl := Json.obj.inj heq
    obtain ⟨part, hpart, hparts⟩ := (hdescribed token).exists_part (v := v) (by simp [hv])
    replace hparts : Describes full part [v] := by simpa [hv] using hparts
    cases hblank with
    | mk members described =>
    obtain rfl := Except.ok.inj (members.symm.trans hprops)
    have hmember := described token part hpart
    rw [hu] at hmember
    rcases hmember.of_describes hparts with ⟨s, rfl⟩ | ⟨harray, ho⟩ | ⟨hobject, g, next, ho, hbelow, hg⟩
    · cases rest with
      | nil => exact .inl ⟨s, (Option.some.inj hw).symm⟩
      | cons next below => cases hw
    · obtain rfl := Option.some.inj ho
      obtain ⟨fs, rfl⟩ := Json.exists_arr_of_isArray harray
      cases rest with
      | nil =>
        obtain rfl := Tree.arr.inj (Option.some.inj hes)
        rw [Json.tree_arr] at hw
        exact .inr ⟨rfl, _, (Option.some.inj hw).symm⟩
      | cons next below => simp [at?] at hes
    · obtain rfl := Option.some.inj ho
      obtain ⟨inner, rfl⟩ := Json.exists_obj_of_isObject hobject
      obtain ⟨is, iprops, rfl, itype, -⟩ := hparts.exists_members (by simp [Json.isObject])
      have hnext : Schema.below (.obj ms) token = .ok (.obj is) := by
        rw [Schema.below, step_member hitems hprops hpart hparts.shaped, Except.bind_ok,
          hparts.shaped.container_self itype.anyOf]
      obtain rfl := Except.ok.inj (hnext.symm.trans hbelow)
      rw [Json.tree_obj] at hw
      exact ih hg hparts hes hw

/-- The smallest document for a description of an object has room for all that the object has. -/
theorem Blank.hasRoom {f : String → Option Tree} (hblank : Blank (.obj ms) f) (h : Describes full (.obj ms) [.obj ns])
    {paths : List Path} (hpaths : ∀ path ∈ paths, ((Tree.obj ns.trees).at? path).isSome = true) :
    (Tree.obj f).HasRoom paths := by
  intro above token es hmem hes
  have hsome := hpaths _ hmem
  rw [at?_append] at hsome
  cases hw : (Tree.obj ns.trees).at? above with
  | none => rw [hw] at hsome; cases hsome
  | some w =>
    rw [hw, Option.bind_some] at hsome
    rcases hblank.of_describes h hes hw with ⟨s, rfl⟩ | ⟨rfl, fs, rfl⟩
    · cases hsome
    · obtain ⟨u, hu⟩ := Option.isSome_iff_exists.1 hsome
      obtain ⟨i, hi, -⟩ := Option.bind_eq_some_iff.1 hu
      exact ⟨i, Pointer.eq_repr_of_position? hi, rfl⟩

end Schema

def LensOp.LeadsBack (op : LensOp) : Prop :=
  Schema.Leads (LensOp.follow · op.reverse) fun v' v => op.rewrite v = .ok v'

def Lens.LeadsBack (lens : Lens) : Prop :=
  Schema.Leads (Lens.follow · lens.reverse) fun v' v => lens.rewrite v = .ok v'

namespace LensOp

open Schema

private theorem leadsBack_rename (source destination : String) :
    (LensOp.rename (.str source) (.str destination)).LeadsBack := by
  refine (LensOp.leads (.rename (.str destination) (.str source)) rfl).alike.imp fun v' v hv => ?_
  obtain ⟨ms, rfl, hhas, hnew, rfl⟩ := Json.renameMember_eq_ok.1 hv
  have hne : source ≠ destination := by
    rintro rfl
    rw [Members.has, hnew] at hhas
    cases hhas
  have hfree : (ms.renamed source destination).get? source = none :=
    Members.get?_renamed_source (by simpa using hne.symm)
  refine ⟨_, Json.renameMember_eq_ok.2 ⟨_, rfl, ?_, hfree, rfl⟩, ?_⟩
  · rwa [Members.has, Members.get?_renamed_destination hnew]
  · rw [Json.tree_obj, Json.tree_obj, Members.trees_renamed hne.symm hfree, Members.trees_renamed hne hnew,
      Function.update_self, Function.update_idem, Function.update_comm hne, Function.update_idem,
      Members.update_trees_of_get?_eq_none hnew, Function.update_eq_self]

private theorem leadsBack_hoist (host name : String) : (LensOp.hoist (.str host) (.str name)).LeadsBack := by
  intro full schema vs' vs hdescribes hvs
  have hne : host ≠ name := by
    rintro rfl
    obtain ⟨v', hv'⟩ := List.exists_mem_of_ne_nil _ hdescribes.nonempty
    obtain ⟨v, hv⟩ := forall₂_exists hvs hv'
    obtain ⟨ms, inner, part, -, hhost, hfree, -⟩ := Json.hoistMember_eq_ok.1 hv
    rw [hhost] at hfree
    cases hfree
  refine (leads_plunge hne).alike.imp (fun v' v hv => ?_) hdescribes hvs
  obtain ⟨ms, inner, part, rfl, hhost, hfree, hpart, rfl⟩ := Json.hoistMember_eq_ok.1 hv
  refine ⟨_, ⟨_, inner.without name, part, rfl, ?_, by rw [Members.get?_cons, if_pos (by simp)], rfl⟩, ?_⟩
  · rw [Members.get?_cons, if_neg (by simpa using hne.symm), Members.get?_put_self]
  · have hinner : (Json.obj ((inner.without name).put name part)).tree = (Json.obj inner).tree := by
      rw [Json.tree_obj, Json.tree_obj, Members.trees_put, Members.trees_without, Function.update_idem,
        Members.update_trees_of_get? hpart]
    rw [Json.tree_obj, Json.tree_obj, Members.plunged, Members.trees_without, Members.trees_put, hinner,
      Members.trees_cons, Members.trees_put, Function.update_comm hne.symm, Function.update_idem, Function.update_idem,
      Members.update_trees_of_get? hhost, Members.update_trees_of_get?_eq_none hfree]

private theorem leadsBack_inside (name : String) {lens : Lens} (ih : lens.LeadsBack) :
    (LensOp.inside (.str name) lens).LeadsBack := by
  refine (Leads.inside ih name).alike.imp fun v' v hv => ?_
  obtain ⟨ms, part, part', rfl, hpart, hlens, rfl⟩ := Json.rewriteMember_eq_ok.1 hv
  refine ⟨_, ⟨_, part', part, rfl, Members.get?_put_self, hlens, rfl⟩, ?_⟩
  rw [Json.tree_obj, Json.tree_obj, Members.trees_put, Members.trees_put, Function.update_idem,
    Members.update_trees_of_get? hpart]

private theorem leadsBack_each {lens : Lens} (ih : lens.LeadsBack) : (LensOp.each lens).LeadsBack := by
  refine (Leads.each ih).imp fun v' v hv => ?_
  obtain ⟨es, es', rfl, hes, rfl⟩ := Json.rewriteElements_eq_ok.1 hv
  exact ⟨es', es, rfl, hes.flip, rfl⟩

end LensOp

mutual

theorem LensOp.leadsBack (op : LensOp) (hop : op.isMoving = true) : op.LeadsBack := by
  match op with
  | .rename (.str source) (.str destination) => exact LensOp.leadsBack_rename source destination
  | .hoist (.str host) (.str name) => exact LensOp.leadsBack_hoist host name
  | .inside (.str name) lens => exact LensOp.leadsBack_inside name (Lens.leadsBack lens hop)
  | .each lens => exact LensOp.leadsBack_each (Lens.leadsBack lens hop)
  | .plunge (.str _) (.str _) =>
    intro full schema vs' vs h hvs
    obtain ⟨v', hv'⟩ := List.exists_mem_of_ne_nil _ h.nonempty
    obtain ⟨v, hv⟩ := forall₂_exists hvs hv'
    cases LensOp.direct_of_rewrite hv

/-- The reversed lens can be followed on the schema of what a lens has made of samples, and leads back to one that
describes them. -/
theorem Lens.leadsBack (lens : Lens) (hlens : lens.isMoving = true) : lens.LeadsBack := by
  match lens with
  | [] =>
    intro full schema vs' vs h hvs
    have heq : List.Forall₂ Eq vs vs' := (hvs.imp fun v' v hv => Except.ok.inj hv).flip
    rw [List.forall₂_eq_eq_eq] at heq
    exact ⟨schema, rfl, heq ▸ h⟩
  | op :: rest =>
    rw [Lens.isMoving, Bool.and_eq_true] at hlens
    refine ((Lens.leadsBack rest hlens.2).comp (LensOp.leadsBack op hlens.1) fun schema => ?_).imp fun v' v hv => ?_
    · rw [Lens.reverse, Lens.outcome_follow_append]
      simp [Lens.outcome_follow_singleton]
    · obtain ⟨mid, hmid, hrest⟩ := Lens.rewrite_cons_eq_ok.1 hv
      exact ⟨mid, hrest, hmid⟩

end

namespace Lens

variable {lens : Lens} {doc out : Json}

/-- Whether no place of a document, as a lens takes them in their order, comes before one that it stands in. -/
def HostsFirst (lens : Lens) (doc : Json) : Prop :=
  (doc.spots.filterMap (Lens.route · lens)).Pairwise fun p q => ¬ q <+: p

instance (lens : Lens) (doc : Json) : Decidable (lens.HostsFirst doc) :=
  inferInstanceAs (Decidable (List.Pairwise _ _))

/-- An object goes to an object. -/
private theorem exists_obj_of_goes {ms : Members} {back : Path → Option Path}
    (h : Goes (Lens.route · lens) back (Json.obj ms).tree doc.tree) : ∃ ns, doc = .obj ns := by
  obtain ⟨path, w, hroot, -, hat, hhollow, -⟩ := h.place (show (Json.obj ms).tree.at? [] = some _ from rfl)
  obtain rfl := Option.some.inj ((Lens.route_root lens).symm.trans hroot)
  obtain rfl := Option.some.inj hat
  cases doc with
  | obj ns => exact ⟨ns, rfl⟩
  | scalar s => cases hhollow
  | arr es => cases hhollow

/-- A document whose places a lens takes to those of another one is converted into that one if and only if each place
comes after those that it stands in. -/
private theorem exists_same_iff (hlens : lens.isMoving = true) {ms os : Members} (hms : ms.AreDocument)
    (hos : os.AreDocument)
    (h : Goes (Lens.route · lens) (Lens.route · lens.reverse) (Json.obj ms).tree (Json.obj os).tree)
    (h' : Goes (Lens.route · lens.reverse) (Lens.route · lens) (Json.obj os).tree (Json.obj ms).tree) {next : Json}
    (hfollow : (Lens.follow (Schema.infer (.obj ms)) lens).outcome = .ok next)
    (hdescribes : Schema.Describes false next [.obj os]) :
    (∃ result, (lens.convertDocument false (.obj ms) none .null).outcome = .ok result ∧
      result.same (.obj os) = true) ↔ lens.HostsFirst (.obj ms) := by
  have hdoc := Json.isDocument_obj.2 hms
  constructor
  · rintro ⟨result, hresult, hsame⟩
    obtain ⟨ws, hws, hall⟩ := exists_carried hlens hms h
    have hedits : List.Forall₂ (fun w b => w.Edits (.add b.2) b.1) ws ((Json.obj ms).layoutAt (Lens.route · lens)) :=
      Json.edits_layoutAt hall
    have hstarts : ∀ b ∈ (Json.obj ms).layoutAt (Lens.route · lens), (Json.obj os).tree.Starts b :=
      fun b hb => h.starts hdoc hb
    have hplaces : ∀ path ∈ ((Json.obj ms).layoutAt (Lens.route · lens)).map Prod.fst,
        ((Json.obj os).tree.at? path).isSome = true := fun path hpath => by
      obtain ⟨b, hb, rfl⟩ := List.mem_map.1 hpath
      obtain ⟨-, part, hpart, -⟩ := hstarts b hb
      rw [hpart]
      rfl
    have hadds : ∀ w ∈ ws, ∃ v path, w.Edits (.add v) path ∧ v.isDocument = true := fun w hw => by
      obtain ⟨b, hb, hwb⟩ := forall₂_exists_left hedits.flip hw
      exact ⟨b.2, b.1, hwb, Json.isDocument_of_isHollow (hstarts b hb).1⟩
    rw [outcome_convertDocument_plain hfollow hws fun w hw => by
      obtain ⟨v, path, hedits, -⟩ := hadds w hw
      exact ⟨v, path, hedits⟩] at hresult
    obtain ⟨ns, props, rfl, htype, -⟩ := hdescribes.exists_members (by simp [Json.isObject])
    obtain ⟨base, part, hminimal, hbase, hpart, hblank⟩ := hdescribes.shaped.exists_minimal
    obtain rfl := Except.ok.inj ((hdescribes.shaped.container_self htype.anyOf).symm.trans hpart)
    rw [hminimal] at hresult
    have happly : Patch.apply ws (.obj base) = .ok result := hresult
    have hdocument := Patch.isDocument_apply hadds (Json.isDocument_obj.2 hbase) happly
    have hwrites := Patch.writes_of_apply hedits hstarts (by rw [Json.spots_layoutAt]; exact h.nodup hdoc)
      (by rw [Json.tree_obj] at hplaces ⊢; exact hblank.hasRoom hdescribes hplaces) happly
    have horder := hwrites.pairwise (by rw [Json.spots_layoutAt]; exact h.nodup hdoc) fun path hpath =>
      Json.isSome_at?_of_same hdocument (Json.isDocument_obj.2 hos) hsame (hplaces path hpath)
    rwa [Json.spots_layoutAt] at horder
  · intro horder
    obtain ⟨ws, hws, hgrows⟩ := grows_moved hlens hms (by rwa [← Json.tree_obj]) (by rwa [← Json.tree_obj]) horder
    exact exists_result_of_grows hfollow hdescribes hws (by rwa [Json.tree_obj] at hgrows ⊢) (Json.isDocument_obj.2 hos)

/-- Where a lens that moves members fits a document, the document comes out as the lens rewrites it, and the reversed
lens gives it back if and only if the places of what came out are taken back in an order in which none comes before one
that it stands in. -/
theorem convertDocument_reverse_iff (hlens : lens.isMoving = true) (hdoc : doc.isDocument = true)
    (hobject : doc.isObject = true) (hfit : lens.rewrite doc = .ok out) :
    ∃ there, (lens.convertDocument false doc none .null).outcome = .ok there ∧ there.same out = true ∧
      ((∃ back, (lens.reverse.convertDocument false there none .null).outcome = .ok back ∧ back.same doc = true) ↔
        lens.reverse.HostsFirst there) := by
  obtain ⟨ms, rfl⟩ := Json.exists_obj_of_isObject hobject
  have hms := Json.isDocument_obj.1 hdoc
  obtain ⟨there, hthere, hdocument, htree⟩ := @exists_tree_of_rewrite lens false ms out hms
    (Lens.isTyped_of_isMoving lens hlens) hfit (by simp)
  obtain ⟨hgoes, hback⟩ := Lens.goes lens hlens (Lens.fits lens hfit)
  rw [← htree] at hgoes hback
  obtain ⟨ts, rfl⟩ := exists_obj_of_goes hgoes
  refine ⟨_, hthere, Json.same_of_tree hdocument (Lens.isDocument_rewrite hdoc hfit) htree, ?_⟩
  have hinferred : Schema.Describes false (Schema.infer (.obj ts)) [out] :=
    (Schema.describes_infer (Json.isDocument_obj.1 hdocument) (by simp)).congr (by simp [htree])
  obtain ⟨next, hfollow, hdescribes⟩ := Lens.leadsBack lens hlens hinferred (.cons hfit .nil)
  exact exists_same_iff (Lens.isMoving_reverse lens hlens) (Json.isDocument_obj.1 hdocument) hms
    (by rwa [Lens.reverse_reverse]) (by rwa [Lens.reverse_reverse]) hfollow hdescribes

private theorem converted_late :
    (Lens.convertDocument [.hoist (.str "z") (.str "q"), .hoist (.str "q") (.str "p")] false
      (.obj [("z", .obj [("q", .obj [("p", .int 1)])])]) none .null).outcome =
      .ok (.obj [("z", .emptyObject), ("q", .emptyObject), ("p", .int 1)]) := by
  decide +kernel

private theorem converted_early :
    (Lens.convertDocument [.inside (.str "z") [.hoist (.str "q") (.str "p")], .hoist (.str "z") (.str "q")] false
      (.obj [("z", .obj [("q", .obj [("p", .int 1)])])]) none .null).outcome =
      .ok (.obj [("z", .obj [("p", .int 1)]), ("q", .emptyObject)]) := by
  decide +kernel

/-- A member that is hoisted after its host comes back, and one that is hoisted before its host does not. -/
theorem convertDocument_reverse_nested :
    let late : Lens := [.hoist (.str "z") (.str "q"), .hoist (.str "q") (.str "p")]
    let early : Lens := [.inside (.str "z") [.hoist (.str "q") (.str "p")], .hoist (.str "z") (.str "q")]
    let doc : Json := .obj [("z", .obj [("q", .obj [("p", .int 1)])])]
    (∃ there back, (late.convertDocument false doc none .null).outcome = .ok there ∧
      (late.reverse.convertDocument false there none .null).outcome = .ok back ∧ back.same doc = true) ∧
    ∃ there, (early.convertDocument false doc none .null).outcome = .ok there ∧
      ¬ ∃ back, (early.reverse.convertDocument false there none .null).outcome = .ok back ∧ back.same doc = true := by
  intro late early doc
  constructor
  · obtain ⟨out, hfit⟩ : ∃ out, late.rewrite doc = .ok out := ⟨_, by cbv⟩
    obtain ⟨there, hthere, -, hiff⟩ := convertDocument_reverse_iff (rfl : late.isMoving = true)
      (rfl : doc.isDocument = true) rfl hfit
    obtain rfl := Except.ok.inj (converted_late.symm.trans hthere)
    obtain ⟨back, hback, hsame⟩ := hiff.2 (by decide)
    exact ⟨_, back, hthere, hback, hsame⟩
  · obtain ⟨out, hfit⟩ : ∃ out, early.rewrite doc = .ok out := ⟨_, by cbv⟩
    obtain ⟨there, hthere, -, hiff⟩ := convertDocument_reverse_iff (rfl : early.isMoving = true)
      (rfl : doc.isDocument = true) rfl hfit
    obtain rfl := Except.ok.inj (converted_early.symm.trans hthere)
    exact ⟨_, hthere, hiff.not.2 (by decide)⟩

end Lens

end EditLens
