import EditLens.Proofs.Lens.Following
import EditLens.Proofs.Lens.Unmapped

/-! Documents through a lens, by way of their patches and schemas. Main statement: the conversion of a
document is the rewritten document, and fails only where a table does not cover one of its values. -/
namespace EditLens

open EditLens.Tree

namespace Patch

variable {ps : Patch} {doc doc' : Json}

/-- A patch of edits can be shown. -/
theorem exists_describe_of_edits (h : ∀ p ∈ ps, ∃ e path, p.Edits e path) :
    ∃ text, Patch.describe ps = .ok text := by
  have hops : ∃ texts, ps.mapM PatchOp.describe = .ok texts := by
    induction ps with
    | nil => exact ⟨[], rfl⟩
    | cons p rest ih =>
      rw [List.forall_mem_cons] at h
      obtain ⟨⟨e, path, hedit, hpath⟩, hrest⟩ := h
      obtain ⟨texts, htexts⟩ := ih hrest
      obtain ⟨verb, hverb, -, -⟩ := PatchOp.members_of_edit hedit
      have htext : ∃ text, p.describe = .ok text := by
        rw [PatchOp.path] at hpath
        rw [PatchOp.describe, Members.demand, hverb, Except.bind_ok]
        cases hpointer : p.members.demand "path" with
        | error fault => rw [hpointer] at hpath; cases hpath
        | ok pointer =>
          rw [Except.bind_ok]
          cases p.members.get? "value" <;> exact ⟨_, rfl⟩
      obtain ⟨text, htext⟩ := htext
      exact ⟨text :: texts, by rw [List.mapM_cons, htext, htexts]; rfl⟩
  obtain ⟨texts, htexts⟩ := hops
  exact ⟨lines texts, by rw [Patch.describe, htexts]; rfl⟩

/-- A patch that applies can be shown. -/
theorem exists_describe (h : Patch.apply ps doc = .ok doc') : ∃ text, Patch.describe ps = .ok text := by
  refine exists_describe_of_edits ?_
  induction ps generalizing doc with
  | nil => simp
  | cons p rest ih =>
    rw [Patch.apply, List.foldlM_cons] at h
    cases hp : p.apply doc with
    | error fault => rw [hp] at h; cases h
    | ok doc₁ =>
      rw [hp] at h
      obtain ⟨e, path, hedit, hpath, -⟩ := PatchOp.edit_of_apply hp
      exact List.forall_mem_cons.2 ⟨⟨e, path, hedit, hpath⟩, ih h⟩

end Patch

namespace Schema

variable {schema part : Json} {f g : String → Option Tree} {ws : Patch} {t t' whole : Tree}

/-- A blank object fits into one that has all the members that are described. -/
private theorem Blank.filling (h : Blank part f) (hg : ∀ props, memberSchemas part = .ok props →
      ∀ name : String, props.has name = true → ∃ u, g name = some u) :
    Filling (.obj fun _ => none) (.obj f) (.obj g) := by
  cases h with
  | @mk _ props _ members described others =>
  refine .obj fun name => .absent fun hnone => ?_
  cases hname : props.get? name with
  | none => exact others name hname
  | some property =>
    obtain ⟨u, hu⟩ := hg props members name (Members.has_iff.2 ⟨property, hname⟩)
    rw [hnone] at hu
    cases hu

/-- Defaults are filled in only where the whole document has members as well. -/
private theorem WellShaped.exists_filled (h : WellShaped schema) (hframes : Frames schema whole)
    (hgrows : Grows t ws t') : ∃ qs, (filled schema ws).outcome = .ok qs ∧ Padded whole ws qs := by
  induction hgrows with
  | nil t => exact ⟨[], rfl, .nil⟩
  | @cons p v path t t₁ t' rest hedits _ _ _ _ ih =>
    obtain ⟨qs, hqs, hpadded⟩ := ih
    obtain ⟨fillings, w, hfilled, hbelow, hw⟩ := h.exists_filledOp hedits
    refine ⟨(p :: fillings) ++ qs, ?_, .cons hedits hbelow (fun c hc hpart => ?_) hpadded⟩
    · rw [filled, Noted.gather, Noted.outcome_bind, hfilled]
      rw [filled] at hqs
      simp [hqs]
    · rcases hw with ⟨-, rfl⟩ | ⟨rfl, part, f, hpart', hblank, rfl⟩
      · exact .of_part hpart
      · have hempty : Json.emptyObject.tree = .obj fun _ => none := Json.tree_obj []
        rw [hempty] at hpart ⊢
        cases hpart with
        | @obj _ g members =>
        exact hblank.filling fun props hprops => hframes path g part props hc hpart' hprops

end Schema

/-- Without defaults, a patch is one with nothing filled in. -/
private theorem Tree.Grows.padded {ws : Patch} {t t' whole : Tree} (h : Grows t ws t') : Padded whole ws ws := by
  induction h with
  | nil t => exact .nil
  | @cons p v path t t₁ t' rest hedits _ _ _ _ ih =>
    exact .cons hedits (.nil _) (fun c _ hpart => .of_part hpart) ih

namespace Schema

/-- The members that are described at the root are those of the sample. -/
private theorem Describes.root {full : Bool} {schema : Json} {ms : Members}
    (h : Describes full schema [.obj ms]) {part : Json} {props : Members}
    (hpart : container schema = .ok part) (hprops : memberSchemas part = .ok props) {name : String}
    (hname : props.has name = true) : ∃ u, ms.trees name = some u := by
  obtain ⟨ns, props', rfl, htype, -, hprops', hdescribed⟩ := h.exists_members (by simp [Json.isObject])
  obtain rfl := Except.ok.inj ((h.shaped.container_self htype.anyOf).symm.trans hpart)
  obtain rfl := Except.ok.inj (hprops'.symm.trans hprops)
  obtain ⟨property, hproperty⟩ := Members.has_iff.1 hname
  have hmember := hdescribed name
  rw [hproperty] at hmember
  cases hmember with
  | present hmember =>
  cases hget : ms.get? name with
  | none => exact absurd (by simp [hget]) hmember.nonempty
  | some v => exact ⟨v.tree, by rw [Members.trees, hget, Option.map_some]⟩

end Schema

namespace Lens

variable {lens : Lens} {doc : Json} {fills : Bool}

/-- With a schema, a document is converted by the steps that are left of it and the defaults among them, from
the smallest document. -/
theorem outcome_convertDocument {ms : Members} {schema next : Json} {ps : Patch}
    (hfollow : (Lens.follow schema lens).outcome = .ok next)
    (hcarried : (lens.carryAll (Write.add.memberSteps [] ms)).outcome = .ok ps) :
    (lens.convertDocument true (.obj ms) (some schema) .null).outcome = (do
      let qs ← (Schema.filled next ps).outcome
      let _ ← qs.describe
      let base ← (← (Schema.minimal next).outcome).asObject
      (Patch.applyIfThere (.obj base) qs).outcome) := by
  have htarget : (Json.null.orElse .emptyObject).asMembers = .ok [] := rfl
  simp [convertDocument, convertPatch, Json.asList, Patch.expand_creating ms, hcarried, hfollow, htarget,
    Members.putAll]

/-- Without defaults, a document is converted by the additions that are left of it, from the smallest document. -/
theorem outcome_convertDocument_plain {ms : Members} {next : Json} {ps : Patch}
    (hfollow : (Lens.follow (Schema.infer (.obj ms)) lens).outcome = .ok next)
    (hcarried : (lens.carryAll (Write.add.memberSteps [] ms)).outcome = .ok ps)
    (hadds : ∀ p ∈ ps, ∃ v path, p.Edits (.add v) path) :
    (lens.convertDocument false (.obj ms) none .null).outcome = (do
      let base ← (← (Schema.minimal next).outcome).asObject
      Patch.apply ps (.obj base)) := by
  have htarget : (Json.null.orElse .emptyObject).asMembers = .ok [] := rfl
  have hconvert : (lens.convertPatch false (Schema.infer (.obj ms))
      (.arr ((Patch.creating (.obj ms)).map PatchOp.toJson))).outcome = .ok ps := by
    rw [outcome_convertPatch_plain _ (Patch.expand_creating ms), hcarried]
  obtain ⟨text, htext⟩ := Patch.exists_describe_of_edits fun p hp => by
    obtain ⟨v, path, hedits⟩ := hadds p hp
    exact ⟨_, path, hedits⟩
  simp [convertDocument, hconvert, hfollow, htext, htarget, Members.putAll, Patch.outcome_applyIfThere_of_adds hadds]

/-- What comes out for the steps that make an object makes a document with the tree that it grows to, if the schema
that comes out describes it. -/
theorem exists_tree_of_grows {ms : Members} {schema out : Json} {ws : Patch}
    (hfollow : (Lens.follow (Schema.infer (.obj ms)) lens).outcome = .ok schema)
    (hdescribes : Schema.Describes fills schema [out])
    (hws : (lens.carryAll (Write.add.memberSteps [] ms)).outcome = .ok ws)
    (hgrows : Grows (.obj fun _ => none) ws out.tree) :
    ∃ result, (lens.convertDocument fills (.obj ms) none .null).outcome = .ok result ∧
      result.isDocument = true ∧ result.tree = out.tree := by
  have hexpand := Patch.expand_creating ms
  obtain ⟨qs, hconvert, hpadded⟩ : ∃ qs, (lens.convertPatch fills (Schema.infer (.obj ms))
      (.arr ((Patch.creating (.obj ms)).map PatchOp.toJson))).outcome = .ok qs ∧ Padded out.tree ws qs := by
    cases fills with
    | false => exact ⟨ws, by rw [outcome_convertPatch_plain _ hexpand, hws], hgrows.padded⟩
    | true =>
      obtain ⟨qs, hqs, hpadded⟩ := hdescribes.shaped.exists_filled
        (hdescribes.frames List.mem_cons_self) hgrows
      exact ⟨qs, by simp [convertPatch, Json.asList, hexpand, hws, hfollow, hqs], hpadded⟩
  obtain ⟨ns, rfl⟩ : ∃ ns, out = .obj ns := by
    have hpart := hgrows.part
    cases out with
    | obj ns => exact ⟨ns, rfl⟩
    | scalar s => cases hpart
    | arr es => rw [Json.tree_arr] at hpart; cases hpart
  obtain ⟨base, part, hminimal, hbase, hpart, hblank⟩ := hdescribes.shaped.exists_minimal
  have hfilling : Filling (.obj fun _ => none) (Json.obj base).tree (Json.obj ns).tree := by
    rw [Json.tree_obj, Json.tree_obj]
    exact hblank.filling fun props hprops name hname => hdescribes.root hpart hprops hname
  obtain ⟨result, happly, hresult, hsame⟩ := hpadded.exists_apply hgrows (.refl _)
    (Json.isDocument_obj.2 hbase) hfilling
  obtain ⟨text, htext⟩ := Patch.exists_describe happly
  refine ⟨result, ?_, hresult, hsame.eq_whole⟩
  have htarget : (Json.null.orElse .emptyObject).asMembers = .ok [] := rfl
  simp [convertDocument, hconvert, hfollow, htext, hminimal, Json.asObject, htarget, Members.putAll,
    Patch.outcome_applyIfThere happly]

/-- What comes out for the steps that make an object makes the converted document, if the schema that comes out
describes it. -/
theorem exists_result_of_grows {ms : Members} {schema out : Json} {ws : Patch}
    (hfollow : (Lens.follow (Schema.infer (.obj ms)) lens).outcome = .ok schema)
    (hdescribes : Schema.Describes fills schema [out])
    (hws : (lens.carryAll (Write.add.memberSteps [] ms)).outcome = .ok ws)
    (hgrows : Grows (.obj fun _ => none) ws out.tree) (hout : out.isDocument = true) :
    ∃ result, (lens.convertDocument fills (.obj ms) none .null).outcome = .ok result ∧
      result.same out = true := by
  obtain ⟨result, hresult, hdoc, htree⟩ := exists_tree_of_grows hfollow hdescribes hws hgrows
  exact ⟨result, hresult, Json.same_of_tree hdoc hout htree⟩

/-- Converting a document that a lens can rewrite gives one with the tree of the rewritten document. -/
theorem exists_tree_of_rewrite {ms : Members} {out : Json} (hms : ms.AreDocument)
    (htyped : Lens.isTyped lens = true) (hout : lens.rewrite (.obj ms) = .ok out)
    (huniform : fills = true → Json.Uniform [.obj ms]) :
    ∃ result, (lens.convertDocument fills (.obj ms) none .null).outcome = .ok result ∧
      result.isDocument = true ∧ result.tree = out.tree := by
  obtain ⟨schema, hfollow, hdescribes⟩ := Lens.leads lens htyped
    (Schema.describes_infer hms huniform) (.cons hout .nil)
  have hrecast : lens.recast (.obj ms.trees) = some out.tree := by
    rw [← Json.tree_obj]
    exact Lens.fits lens hout
  obtain ⟨u, ws, hu, hws, hgrows⟩ := Lens.grows_carryAll (Patch.grows_creating hms) hrecast
  obtain rfl : u = .obj fun _ => none :=
    Lens.recast_hollow (v := .emptyObject) rfl hu
  exact exists_tree_of_grows hfollow hdescribes hws hgrows

/-- Converting a document that a lens can rewrite rewrites it. -/
private theorem exists_result {ms : Members} {out : Json} (hms : ms.AreDocument)
    (htyped : Lens.isTyped lens = true) (hout : lens.rewrite (.obj ms) = .ok out)
    (huniform : fills = true → Json.Uniform [.obj ms]) :
    ∃ result, (lens.convertDocument fills (.obj ms) none .null).outcome = .ok result ∧
      result.same out = true := by
  obtain ⟨result, hresult, hdoc, htree⟩ := exists_tree_of_rewrite hms htyped hout huniform
  exact ⟨result, hresult, Json.same_of_tree hdoc (Lens.isDocument_rewrite (Json.isDocument_obj.2 hms) hout) htree⟩

/-- Where a table does not cover a value, the conversion of the document fails. -/
private theorem exists_failure {ms : Members} (hms : ms.AreDocument)
    (h : lens.rewrite (.obj ms) = .error .unmapped) :
    ∃ key, (lens.convertDocument fills (.obj ms) none .null).outcome = .error (.unmapped key) := by
  have hgrows := Patch.grows_creating hms
  obtain ⟨path, s, hpath, hs, hcarry⟩ := Lens.unmapped lens h
  rw [Json.tree_obj] at hs
  have hwritten : ∃ w ∈ Write.add.memberSteps [] ms, w.Edits (.add (.scalar s)) path := by
    rcases hgrows.exists_edits hs with hempty | hwritten
    · cases path with
      | nil => cases hempty
      | cons token rest => cases hempty
    · exact hwritten
  obtain ⟨w, hw, hedits⟩ := hwritten
  obtain ⟨key, hkey⟩ := carryAll_unmapped hgrows.edits ⟨w, hw, hcarry w hedits⟩
  refine ⟨key, ?_⟩
  simp [convertDocument, convertPatch, Json.asList, Patch.expand_creating ms, hkey, bind]

/-- The conversion of a document by a lens that keeps, takes out or recodes its values is the rewritten
document, and nothing fails but the look-up of a value that a table does not cover. Where defaults are
filled in, objects at one place must have the same members. -/
theorem convertDocument_rewrites (hdoc : doc.isDocument = true) (hobject : doc.isObject = true)
    (htyped : Lens.isTyped lens = true) (hfit : lens.rewrite doc ≠ .error .shape)
    (huniform : fills = true → Json.Uniform [doc]) :
    match lens.rewrite doc with
    | .ok out => ∃ result, (lens.convertDocument fills doc none .null).outcome = .ok result ∧
        result.same out = true
    | .error _ => ∃ key, (lens.convertDocument fills doc none .null).outcome =
        .error (.unmapped key) := by
  obtain ⟨ms, rfl⟩ := Json.exists_obj_of_isObject hobject
  have hms := Json.isDocument_obj.1 hdoc
  cases hout : lens.rewrite (.obj ms) with
  | ok out => exact exists_result hms htyped hout huniform
  | error misfit =>
    cases misfit with
    | shape => exact absurd hout hfit
    | unmapped => exact exists_failure hms hout

/-- Two objects with the same members in an array, which takes another name. -/
theorem convertDocument_rewrites_items :
    let lens : Lens := [.rename (.str "a") (.str "b"),
      .inside (.str "b") [.each [.convert (.str "s") ⟨[("x", .int 1), ("y", .int 0)], []⟩ .null .null]]]
    let doc (name : String) (v w : Json) : Json :=
      .obj [(.str name, .arr [.obj [("s", v)], .obj [("s", w)]])]
    ∃ result, (lens.convertDocument true (doc "a" (.str "x") (.str "y")) none .null).outcome =
      .ok result ∧ result.same (doc "b" (.int 1) (.int 0)) = true := by
  intro lens doc
  have hout : lens.rewrite (doc "a" (.str "x") (.str "y")) = .ok (doc "b" (.int 1) (.int 0)) := rfl
  have hscalars : Json.Uniform [.str "x", .str "y"] :=
    .of_parts ⟨by simp, by simp⟩ (fun _ => .nil) .nil
  have hobjects : Json.Uniform [.obj [("s", .str "x")], .obj [("s", .str "y")]] := by
    refine .of_parts ⟨?_, by simp⟩ (fun name => ?_) .nil
    · rintro ms ns hms hns name
      simp only [List.mem_cons, Json.obj.injEq, List.not_mem_nil, or_false] at hms hns
      rcases hms with rfl | rfl <;> rcases hns with rfl | rfl <;>
        simp [Members.has, Members.get?_cons]
    · by_cases hname : "s" = name
      · subst hname
        exact hscalars
      · simpa [Members.get?_cons, hname] using Json.Uniform.nil
  have harray : Json.Uniform [.arr [.obj [("s", .str "x")], .obj [("s", .str "y")]]] :=
    .of_parts ⟨by simp, by simp⟩ (fun _ => .nil) hobjects
  have huniform : Json.Uniform [doc "a" (.str "x") (.str "y")] := by
    refine .of_parts ⟨?_, by simp [doc]⟩ (fun name => ?_) .nil
    · rintro ms ns hms hns name
      obtain rfl := Json.obj.inj (List.mem_singleton.1 hms)
      obtain rfl := Json.obj.inj (List.mem_singleton.1 hns)
      exact id
    · by_cases hname : "a" = name
      · subst hname
        exact harray
      · simpa [doc, Members.get?_cons, hname] using Json.Uniform.nil
  have h := @convertDocument_rewrites lens (doc "a" (.str "x") (.str "y")) true rfl rfl rfl
    (by rw [hout]; simp) fun _ => huniform
  rw [hout] at h
  exact h

end Lens

end EditLens
