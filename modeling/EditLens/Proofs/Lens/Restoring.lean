import EditLens.Proofs.Lens.Retelling
import EditLens.Proofs.Schema.Matching

/-! Lenses on schemas that describe what they are about. Main statement: followed and then followed back, such a lens
restores the schema at every level. -/
namespace EditLens

open Function (update)
open Schema

/-- A name that a schema neither describes nor requires. -/
structure Schema.Free (ms : Members) (name : String) : Prop where
  undescribed : part? (.obj ms) name = none
  optional : ∀ names, required ms = .ok names → .str name ∉ names

mutual

/-- Operations that a schema describes: what is moved or entered is described, and what comes anew is free. -/
inductive LensOp.DescribedBy : LensOp → Json → Prop
  | rename {ms : Members} {part : Json} {source destination : String}
    (described : part? (.obj ms) source = some part) (free : Free ms destination) :
    LensOp.DescribedBy (.rename (.str source) (.str destination)) (.obj ms)
  | hoist {ms ps : Members} {part : Json} {host name : String} (hosted : part? (.obj ms) host = some (.obj ps))
    (described : part? (.obj ps) name = some part) (free : Free ms name) (apart : host ≠ name) :
    LensOp.DescribedBy (.hoist (.str host) (.str name)) (.obj ms)
  | plunge {ms ps : Members} {part : Json} {host name : String} (hosted : part? (.obj ms) host = some (.obj ps))
    (described : part? (.obj ms) name = some part) (free : Free ps name) (apart : host ≠ name) :
    LensOp.DescribedBy (.plunge (.str host) (.str name)) (.obj ms)
  | add {ms : Members} {property : Property} {part : Json} {name : String} (named : property.name = .str name)
    (nonempty : name ≠ "") (accepted : ofProperty property = .ok part) (free : Free ms name) :
    LensOp.DescribedBy (.add property) (.obj ms)
  | inside {ms : Members} {part : Json} {name : String} {lens : Lens} (described : part? (.obj ms) name = some part)
    (below : Lens.DescribedBy lens part) : LensOp.DescribedBy (.inside (.str name) lens) (.obj ms)
  | each {ms : Members} {part : Json} {lens : Lens} (described : ms.get? "items" = some part)
    (below : Lens.DescribedBy lens part) : LensOp.DescribedBy (.each lens) (.obj ms)
  | eachUnknown {ms : Members} {lens : Lens} (undescribed : ms.get? "items" = none)
    (array : (ms.valueOf "type").isText "array" = true) : LensOp.DescribedBy (.each lens) (.obj ms)

inductive Lens.DescribedBy : Lens → Json → Prop
  | nil (schema : Json) : Lens.DescribedBy [] schema
  | cons {op : LensOp} {lens : Lens} {schema : Json} (first : op.DescribedBy schema)
    (others : ∀ next, (op.follow schema).outcome = .ok next → Lens.DescribedBy lens next) :
    Lens.DescribedBy (op :: lens) schema

end

/-- An operation can be followed where it is described, and wherever a schema matches the outcome, it can be followed
back to one that matches what was there before. -/
def LensOp.Restores (op : LensOp) : Prop :=
  ∀ {schema : Json}, Layered schema → op.DescribedBy schema → ∃ next, (op.follow schema).outcome = .ok next ∧
    Layered next ∧ ∀ {other : Json}, Matches other next →
      ∃ back, (op.reverse.follow other).outcome = .ok back ∧ Matches back schema

def Lens.Restores (lens : Lens) : Prop :=
  ∀ {schema : Json}, Layered schema → Lens.DescribedBy lens schema →
    ∃ next, (Lens.follow schema lens).outcome = .ok next ∧ Layered next ∧ ∀ {other : Json}, Matches other next →
      ∃ back, (Lens.follow other lens.reverse).outcome = .ok back ∧ Matches back schema

namespace LensOp

variable {ms ps props : Members} {names : List Json} {host name source destination : String} {part : Json}

private theorem free_of_tells (h : Tells ms props names) (hfree : Free ms name) :
    props.get? name = none ∧ .str name ∉ names :=
  ⟨(congrFun h.part?_eq name).symm.trans hfree.undescribed, hfree.optional names (required_of_get? h.required)⟩

private theorem follow_revised (op : LensOp) {r : Revision} (heach : ∀ lens, op ≠ .each lens)
    (h : Tells ms props names) (hr : op.revise ⟨.ok props, .ok names⟩ = .ok r) :
    (op.follow (.obj ms)).outcome = .ok (.obj (r.write ms)) := by
  rw [outcome_follow_eq heach, h.roster_eq, hr]
  rfl

/-- A value that went elsewhere and came back. -/
private theorem update_swap_back {f : String → Option Json} (hnone : f destination = none) :
    update (update (update (update f source none) destination (f source)) destination none) source (f source) =
      f := by
  funext name
  simp only [Function.update_apply]
  grind

private theorem get?_put_without (hpart : props.get? name = some part) (other : String) :
    Members.get? ((props.without name).put name part) other = props.get? other := by
  simp only [Members.get?_put, Members.get?_without, Scalar.str_same, decide_eq_true_eq, Scalar.str.injEq]
  grind

private theorem get?_hoisted_back {left : Json} (hhost : props.get? host = some (.obj ps))
    (hnone : props.get? name = none) (other : String) :
    Members.get? ((((props.put host left).put name part).without name).put host (.obj ps)) other =
      props.get? other := by
  simp only [Members.get?_put, Members.get?_without, Scalar.str_same, decide_eq_true_eq, Scalar.str.injEq]
  grind

private theorem get?_plunged_back {left : Json} (hhost : props.get? host = some (.obj ps))
    (hpart : props.get? name = some part) (other : String) :
    Members.get? ((((props.without name).put host left).put host (.obj ps)).put name part) other =
      props.get? other := by
  simp only [Members.get?_put, Members.get?_without, Scalar.str_same, decide_eq_true_eq, Scalar.str.injEq]
  grind

private theorem get?_without_put (hnone : props.get? name = none) (other : String) :
    Members.get? ((props.put name part).without name) other = props.get? other := by
  simp only [Members.get?_put, Members.get?_without, Scalar.str_same, decide_eq_true_eq, Scalar.str.injEq]
  grind

private theorem revise_rename (hsource : props.get? source = some part) (hdestination : props.get? destination = none)
    (hprops : props.AreOf fun _ => True) :
    (LensOp.rename (.str source) (.str destination)).revise ⟨.ok props, .ok names⟩ =
      .ok (.told (props.renamed source destination) (replaced names (.str source) (.str destination))) := by
  have hrenamed : renameKey props (.str source) (.str destination) = props.renamed source destination :=
    Members.ofEntries_eq (hprops.renamed hdestination).distinct
  simp [revise, Json.asKey, Members.has_iff.2 ⟨_, hsource⟩, hrenamed, pure, Except.pure]

private theorem revise_hoist {inners : Members} {inames : List Json} (hhost : props.get? host = some (.obj ps))
    (hps : Tells ps inners inames) (hpart : inners.get? name = some part) :
    (LensOp.hoist (.str host) (.str name)).revise ⟨.ok props, .ok names⟩ =
      .ok (.told ((props.put host
        (.obj ((Revision.told (inners.without name) (unlisted inames (.str name))).write ps))).put name part)
        (if listed inames (.str name) then enlisted names (.str name) else names)) := by
  simp [revise, takenOut, Json.asKey, Json.asObject, hhost, properties_of_get? hps.properties,
    required_of_get? hps.required, hpart, pure, Except.pure, Revision.write]

private theorem revise_plunge {inners : Members} {inames : List Json} (hhost : props.get? host = some (.obj ps))
    (hps : Tells ps inners inames) (hpart : props.get? name = some part) (hne : host ≠ name) :
    (LensOp.plunge (.str host) (.str name)).revise ⟨.ok props, .ok names⟩ =
      .ok (.told ((props.without name).put host (.obj ((Revision.told (inners.put name part)
        (if listed names (.str name) then enlisted inames (.str name) else inames)).write ps)))
        (unlisted names (.str name))) := by
  have hdemand : (props.without name).demand host = .ok (.obj ps) := by
    rw [Members.demand, Members.get?_without, if_neg (by simpa using hne.symm), hhost]
  simp [revise, putInto, Json.asKey, Json.asObject, Members.has_iff.2 ⟨_, hhost⟩, hpart, hdemand,
    properties_of_get? hps.properties, required_of_get? hps.required, pure, Except.pure, Revision.write]

private theorem revise_add {property : Property} (hname : property.name = .str name) (hne : name ≠ "")
    (hpart : ofProperty property = .ok part) : (LensOp.add property).revise ⟨.ok props, .ok names⟩ =
      .ok (.told (props.put name part)
        (if property.required = .bool false then names else enlisted names (.str name))) := by
  have htruthy : (Json.str name).truthy = true := by simpa [Json.truthy] using hne
  simp [revise, hname, htruthy, hpart, Json.asKey, pure, Except.pure]

private theorem revise_remove {property : Property} (hname : property.name = .str name) :
    (LensOp.remove property).revise ⟨.ok props, .ok names⟩ =
      .ok (.told (props.without name) (unlisted names (.str name))) := by
  simp [revise, hname, Json.asKey, pure, Except.pure]

private theorem revise_inside {lens : Lens} {inner : Json} (hpart : props.get? name = some part)
    (hlens : (Lens.follow part lens).outcome = .ok inner) :
    (LensOp.inside (.str name) lens).revise ⟨.ok props, .ok names⟩ = .ok (.described (props.put name inner)) := by
  simp [revise, redescribe, Json.asKey, hpart, hlens, pure, Except.pure]

/-- A member that was put in and is taken out again. -/
private theorem matches_of_removed {ms' props' : Members} {names' others : List Json}
    (h : Level ms' props' names' ((Revision.told (props.put name part) others).write ms) (props.put name part) others)
    (htells : Tells ms props names) (hnone : props.get? name = none) (hoptional : .str name ∉ names)
    (hothers : ∀ n, n ≠ .str name → (n ∈ others ↔ n ∈ names)) :
    Matches (.obj ((Revision.told (props'.without name) (unlisted names' (.str name))).write ms')) (.obj ms) := by
  refine h.taken_back htells (Tells.told _ (h.left.members.without name) _) (fun other => ?_) fun n => ?_
  · have hwithout := rel_without h.parts name other
    rwa [get?_without_put hnone] at hwithout
  · rw [mem_unlisted, h.needed]
    grind

/-- A member that was taken out and is put in again. -/
private theorem matches_of_entered {ms' props' : Members} {names' : List Json} {part' : Json} {isRequired : Bool}
    (h : Level ms' props' names' ((Revision.told (props.without name) (unlisted names (.str name))).write ms)
      (props.without name) (unlisted names (.str name)))
    (htells : Tells ms props names) (hpart : props.get? name = some part) (hmatch : Matches part' part)
    (hrequired : isRequired = true ↔ .str name ∈ names) :
    Matches (.obj ((Revision.told (props'.put name part')
      (if isRequired then enlisted names' (.str name) else names')).write ms')) (.obj ms) := by
  refine h.taken_back htells (Tells.told _ (h.left.members.put name trivial) _) (fun other => ?_) fun n => ?_
  · have hput := rel_put h.parts name hmatch other
    rwa [get?_put_without hpart] at hput
  · rw [mem_enlisted_if, h.needed, mem_unlisted, hrequired]
    grind

private theorem restores_rename (s d : Json) : (LensOp.rename s d).Restores := by
  intro schema h hdescribed
  cases hdescribed with
  | @rename ms part source destination described free =>
  obtain ⟨props, names, htells, hparts⟩ := h.exists_tells
  replace described : props.get? source = some part := (congrFun htells.part?_eq source).symm.trans described
  obtain ⟨hnone, hoptional⟩ := free_of_tells htells free
  have hne : source ≠ destination := fun heq => by
    rw [heq, hnone] at described
    cases described
  have hnew : (props.renamed source destination).AreOf Layered := hparts.renamed hnone
  refine ⟨_, follow_revised _ nofun htells (revise_rename described hnone htells.members),
    h.revised (Tells.told ms hnew.any _) hnew, fun hmatch => ?_⟩
  obtain ⟨ms', props', names', rfl, hlevel⟩ := hmatch.exists_level (Tells.told ms hnew.any _)
  obtain ⟨part', hpart', -⟩ :=
    hlevel.exists_part destination ((Members.get?_renamed_destination hnone).trans described)
  have hsource := hlevel.get?_eq_none (Members.get?_renamed_source (by simpa using hne.symm))
  refine ⟨_, follow_revised _ nofun hlevel.left (revise_rename hpart' hsource hlevel.left.members),
    hlevel.taken_back htells (Tells.told _ (hlevel.left.members.renamed hsource) _) (fun name => ?_) fun n => ?_⟩
  · have hswapped := rel_update (rel_update hlevel.parts destination .none) source (hlevel.parts destination) name
    rwa [← Members.get?_renamed_eq_update hsource, Members.get?_renamed_eq_update hnone,
      Members.get?_renamed_destination hnone, update_swap_back hnone] at hswapped
  · simp only [mem_replaced, hlevel.needed]
    grind

private theorem restores_hoist (h n : Json) : (LensOp.hoist h n).Restores := by
  intro schema hlayered hdescribed
  cases hdescribed with
  | @hoist ms ps part host name hosted described free apart =>
  obtain ⟨props, names, htells, hparts⟩ := hlayered.exists_tells
  replace hosted : props.get? host = some (.obj ps) := (congrFun htells.part?_eq host).symm.trans hosted
  have hps := hparts.part hosted
  obtain ⟨inners, inames, hinners, hiparts⟩ := hps.exists_tells
  replace described : inners.get? name = some part := (congrFun hinners.part?_eq name).symm.trans described
  obtain ⟨hnone, hoptional⟩ := free_of_tells htells free
  have hleft := hiparts.without name
  have hhost := hps.revised (Tells.told ps hleft.any (unlisted inames (.str name))) hleft
  have hnew := (hparts.put host hhost).put name (hiparts.part described)
  refine ⟨_, follow_revised _ nofun htells (revise_hoist hosted hinners described),
    hlayered.revised (Tells.told ms hnew.any _) hnew, fun hmatch => ?_⟩
  obtain ⟨ms', props', names', rfl, hlevel⟩ := hmatch.exists_level (Tells.told ms hnew.any _)
  obtain ⟨outer, houter, hmatch⟩ := hlevel.exists_part host (by
    rw [Members.get?_put, if_neg (by simpa using apart.symm), Members.get?_put_self])
  obtain ⟨ps', inners', inames', rfl, hinner⟩ := hmatch.exists_level (Tells.told ps hleft.any _)
  obtain ⟨part', hpart', hmatch⟩ := hlevel.exists_part name Members.get?_put_self
  have hlisted : listed names' (.str name) = true ↔ .str name ∈ inames := by
    rw [listed_text_iff, hlevel.needed, mem_enlisted_if, listed_text_iff]
    simp [hoptional]
  have hback := matches_of_entered hinner hinners described hmatch hlisted
  refine ⟨_, follow_revised _ nofun hlevel.left (revise_plunge houter hinner.left hpart' apart),
    hlevel.taken_back htells (Tells.told _ ((hlevel.left.members.without name).put host trivial) _) (fun other => ?_)
      fun n => ?_⟩
  · have hput := rel_put (rel_without hlevel.parts name) host hback other
    rwa [get?_hoisted_back hosted hnone] at hput
  · rw [mem_unlisted, hlevel.needed, mem_enlisted_if]
    grind

private theorem restores_plunge (h n : Json) : (LensOp.plunge h n).Restores := by
  intro schema hlayered hdescribed
  cases hdescribed with
  | @plunge ms ps part host name hosted described free apart =>
  obtain ⟨props, names, htells, hparts⟩ := hlayered.exists_tells
  replace hosted : props.get? host = some (.obj ps) := (congrFun htells.part?_eq host).symm.trans hosted
  replace described : props.get? name = some part := (congrFun htells.part?_eq name).symm.trans described
  have hps := hparts.part hosted
  obtain ⟨inners, inames, hinners, hiparts⟩ := hps.exists_tells
  obtain ⟨hnone, hoptional⟩ := free_of_tells hinners free
  have hfull := hiparts.put name (hparts.part described)
  have hhost := hps.revised (Tells.told ps hfull.any
    (if listed names (.str name) then enlisted inames (.str name) else inames)) hfull
  have hnew := (hparts.without name).put host hhost
  refine ⟨_, follow_revised _ nofun htells (revise_plunge hosted hinners described apart),
    hlayered.revised (Tells.told ms hnew.any _) hnew, fun hmatch => ?_⟩
  obtain ⟨ms', props', names', rfl, hlevel⟩ := hmatch.exists_level (Tells.told ms hnew.any _)
  obtain ⟨outer, houter, hmatch⟩ := hlevel.exists_part host Members.get?_put_self
  obtain ⟨ps', inners', inames', rfl, hinner⟩ := hmatch.exists_level (Tells.told ps hfull.any _)
  obtain ⟨part', hpart', hmatch⟩ := hinner.exists_part name Members.get?_put_self
  have hlisted : listed inames' (.str name) = true ↔ .str name ∈ names := by
    rw [listed_text_iff, hinner.needed, mem_enlisted_if, listed_text_iff]
    simp [hoptional]
  have hback := matches_of_removed hinner hinners hnone hoptional fun n hn => by
    rw [mem_enlisted_if]
    simp [hn]
  refine ⟨_, follow_revised _ nofun hlevel.left (revise_hoist houter hinner.left hpart'),
    hlevel.taken_back htells (Tells.told _ ((hlevel.left.members.put host trivial).put name trivial) _)
      (fun other => ?_) fun n => ?_⟩
  · have hput := rel_put (rel_put hlevel.parts host hback) name hmatch other
    rwa [get?_plunged_back hosted described] at hput
  · rw [mem_enlisted_if, hlevel.needed, mem_unlisted, hlisted]
    grind

private theorem restores_add (property : Property) : (LensOp.add property).Restores := by
  intro schema h hdescribed
  cases hdescribed with
  | @add ms _ part name named nonempty accepted free =>
  obtain ⟨props, names, htells, hparts⟩ := h.exists_tells
  obtain ⟨hnone, hoptional⟩ := free_of_tells htells free
  have hnew := hparts.put name (Layered.of_ofProperty accepted)
  refine ⟨_, follow_revised _ nofun htells (revise_add named nonempty accepted),
    h.revised (Tells.told ms hnew.any _) hnew, fun hmatch => ?_⟩
  obtain ⟨ms', props', names', rfl, hlevel⟩ := hmatch.exists_level (Tells.told ms hnew.any _)
  refine ⟨_, follow_revised (.remove property) nofun hlevel.left (revise_remove named),
    matches_of_removed hlevel htells hnone hoptional fun n hn => ?_⟩
  split
  · rfl
  · simp [mem_enlisted, hn]

private theorem restores_inside (n : Json) {lens : Lens} (ih : lens.Restores) : (LensOp.inside n lens).Restores := by
  intro schema h hdescribed
  cases hdescribed with
  | @inside ms part name _ described below =>
  obtain ⟨props, names, htells, hparts⟩ := h.exists_tells
  replace described : props.get? name = some part := (congrFun htells.part?_eq name).symm.trans described
  obtain ⟨inner, hinner, hlayered, hrestored⟩ := ih (hparts.part described) below
  have hnew := hparts.put name hlayered
  refine ⟨_, follow_revised _ nofun htells (revise_inside described hinner),
    h.revised (htells.described hnew.any) hnew, fun hmatch => ?_⟩
  obtain ⟨ms', props', names', rfl, hlevel⟩ := hmatch.exists_level (htells.described hnew.any)
  obtain ⟨inner', hinner', hmatch⟩ := hlevel.exists_part name Members.get?_put_self
  obtain ⟨back, hback, hmatch⟩ := hrestored hmatch
  refine ⟨_, follow_revised (.inside (.str name) lens.reverse) nofun hlevel.left (revise_inside hinner' hback),
    hlevel.taken_back htells (hlevel.left.described (hlevel.left.members.put name trivial)) (fun other => ?_)
      hlevel.needed⟩
  have hput := rel_put hlevel.parts name hmatch other
  rwa [Members.put_put, Members.put_of_get? described] at hput

private theorem restores_each {lens : Lens} (ih : lens.Restores) : (LensOp.each lens).Restores := by
  intro schema h hdescribed
  cases hdescribed with
  | @each ms part _ described below =>
    obtain ⟨props, names, htells, -⟩ := h.exists_tells
    obtain ⟨inner, hinner, hlayered, hrestored⟩ := ih (h.of_items described) below
    refine ⟨_, follow_each described hinner, h.put_items hlayered, fun hmatch => ?_⟩
    obtain ⟨ms', props', names', rfl, hlevel⟩ := hmatch.exists_level (htells.put_items inner)
    have hitems := hlevel.beside.items
    rw [Members.get?_put_self] at hitems
    obtain ⟨inner', hinner', hmatch⟩ := exists_of_rel hitems
    obtain ⟨back, hback, hmatch⟩ := hrestored hmatch
    refine ⟨_, follow_each hinner' hback, .level (hlevel.left.put_items back) htells hlevel.parts hlevel.needed ?_
      fun key hprops hrequired hitems => ?_⟩
    · rw [Members.get?_put_self, described]
      exact .some hmatch
    · have hkey := hlevel.beside.others key hprops hrequired hitems
      rwa [Members.get?_put, if_neg (by simpa using hitems)] at hkey ⊢
  | @eachUnknown ms _ undescribed array =>
    obtain ⟨props, names, htells, -⟩ := h.exists_tells
    refine ⟨_, follow_each_unknown undescribed array, h, fun hmatch => ?_⟩
    obtain ⟨ms', props', names', rfl, hlevel⟩ := hmatch.exists_level htells
    have hitems := hlevel.beside.items
    rw [undescribed] at hitems
    have htype : Members.valueOf ms' "type" = ms.valueOf "type" := by
      rw [Members.valueOf, hlevel.beside.others "type" (by simp) (by simp) (by simp), Members.valueOf]
    exact ⟨_, follow_each_unknown (eq_none_of_rel hitems) (htype ▸ array), hmatch⟩

end LensOp

mutual

theorem LensOp.restores : ∀ op : LensOp, op.Restores
  | .rename s d => LensOp.restores_rename s d
  | .hoist h n => LensOp.restores_hoist h n
  | .plunge h n => LensOp.restores_plunge h n
  | .add property => LensOp.restores_add property
  | .inside n lens => LensOp.restores_inside n (Lens.restores lens)
  | .each lens => LensOp.restores_each (Lens.restores lens)
  | .wrap _ | .head _ | .remove _ | .convert _ _ _ _ => fun _ hdescribed => nomatch hdescribed

private theorem Lens.restores : ∀ lens : Lens, lens.Restores
  | [] => fun h _ => ⟨_, rfl, h, fun hmatch => ⟨_, rfl, hmatch⟩⟩
  | op :: rest => by
    intro h hdescribed
    cases hdescribed with
    | cons first others =>
    obtain ⟨mid, hmid, hlayered, hfirst⟩ := LensOp.restores op h first
    obtain ⟨next, hnext, hlayered, hrest⟩ := Lens.restores rest hlayered (others mid hmid)
    refine ⟨next, by rw [Lens.follow, Noted.outcome_bind, hmid]; exact hnext, hlayered, fun hmatch => ?_⟩
    -- The last operation is taken back first.
    obtain ⟨back, hback, hmatch⟩ := hrest hmatch
    obtain ⟨first, hfirst, hmatch⟩ := hfirst hmatch
    exact ⟨first, by simp [Lens.reverse, Lens.outcome_follow_append, hback, Lens.follow, hfirst], hmatch⟩

end

/-- A lens that a schema describes can be followed and followed back, and then the schema says what it said before,
at every level. -/
theorem Lens.follow_reverse_restores {lens : Lens} {schema : Json} (h : Layered schema)
    (hdescribed : lens.DescribedBy schema) : ∃ next back, (Lens.follow schema lens).outcome = .ok next ∧
      (Lens.follow next lens.reverse).outcome = .ok back ∧ Matches back schema := by
  obtain ⟨next, hnext, -, hrestored⟩ := Lens.restores lens h hdescribed
  obtain ⟨back, hback, hmatch⟩ := hrestored (.refl next)
  exact ⟨next, back, hnext, hback, hmatch⟩

/-- A required name leaves its host, another one goes in, and what describes the elements of an array changes. -/
theorem Lens.follow_reverse_restores_notes :
    let text : Json := .obj [("type", .str "string")]
    let author : Json := .obj [("properties", .obj [("name", text)]), ("required", .arr [.str "name"])]
    let tasks : Json := .obj [("items", .obj [("properties", .obj [("title", text)])])]
    let schema : Json := .obj [("properties", .obj [("note", text), ("author", author), ("tasks", tasks)]),
      ("required", .arr [.str "note", .str "author"])]
    let lens : Lens := [.hoist (.str "author") (.str "name"), .plunge (.str "author") (.str "note"),
      .rename (.str "name") (.str "byline"), .inside (.str "tasks") [.each [.rename (.str "title") (.str "label")]],
      .add ⟨.str "done", .str "boolean", .null, .null, .null⟩]
    Layered schema ∧ lens.DescribedBy schema ∧ ∃ next back, (Lens.follow schema lens).outcome = .ok next ∧
      (Lens.follow next lens.reverse).outcome = .ok back ∧ Matches back schema := by
  intro text author tasks schema lens
  have htext : Layered text := .mk ⟨.inl ⟨rfl, rfl⟩, .inl ⟨rfl, rfl⟩, .nil⟩ (by simp) (fun _ h => nomatch h)
  have hauthor : Layered author :=
    .mk ⟨.inr rfl, .inr rfl, .cons .nil rfl trivial⟩ (by simpa using htext) (fun _ h => nomatch h)
  have htasks : Layered tasks := .mk ⟨.inl ⟨rfl, rfl⟩, .inl ⟨rfl, rfl⟩, .nil⟩ (by simp) fun part hpart => by
    obtain rfl := Option.some.inj hpart
    exact .mk ⟨.inr rfl, .inl ⟨rfl, rfl⟩, .cons .nil rfl trivial⟩ (by simpa using htext) (fun _ h => nomatch h)
  have hschema : Layered schema := .mk
    ⟨.inr rfl, .inr rfl, .cons (.cons (.cons .nil rfl trivial) rfl trivial) rfl trivial⟩
    (by simpa using ⟨htext, hauthor, htasks⟩) (fun _ h => nomatch h)
  have hfree {ms : Members} {name : String} {names : List Json} (hpart : part? (.obj ms) name = none)
      (hrequired : required ms = .ok names) (hname : .str name ∉ names) : Free ms name :=
    ⟨hpart, fun names' hnames' => Except.ok.inj (hrequired.symm.trans hnames') ▸ hname⟩
  have hdescribed : lens.DescribedBy schema := by
    refine .cons (.hoist rfl rfl (hfree rfl rfl (by decide)) (by decide)) fun next hnext => ?_
    obtain rfl := Except.ok.inj hnext
    refine .cons (.plunge rfl rfl (hfree rfl rfl (by decide)) (by decide)) fun next hnext => ?_
    obtain rfl := Except.ok.inj hnext
    refine .cons (.rename rfl (hfree rfl rfl (by decide))) fun next hnext => ?_
    obtain rfl := Except.ok.inj hnext
    refine .cons (.inside rfl (.cons (.each rfl (.cons (.rename rfl (hfree rfl rfl (by decide))) fun next _ =>
      .nil next)) fun next _ => .nil next)) fun next hnext => ?_
    obtain rfl := Except.ok.inj hnext
    exact .cons (.add rfl (by decide) rfl (hfree rfl rfl (by decide))) fun next _ => .nil next
  exact ⟨hschema, hdescribed, Lens.follow_reverse_restores hschema hdescribed⟩

end EditLens
