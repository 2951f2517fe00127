import EditLens.Proofs.Lens.Converting
import EditLens.Proofs.Lens.Route
import EditLens.Proofs.Patch.Expanding

/-! Arrays as whole documents. Such a document is made by a replacement of the whole, which is taken in steps that
are replacements as well. Main statement: through a lens for its elements that gives members other places, only
the empty array comes out; of any other one, the first element is replaced before it is there. -/
namespace EditLens

open Schema

variable {lens : Lens} {es es' : List Json} {p : PatchOp} {ps : Patch} {path : Path} {e : Edit}

mutual

theorem LensOp.isTyped_of_isMoving (op : LensOp) (h : op.isMoving = true) : op.isTyped = true := by
  match op with
  | .rename (.str _) (.str _) | .hoist (.str _) (.str _) | .plunge (.str _) (.str _) => rfl
  | .inside (.str _) lens => exact Lens.isTyped_of_isMoving lens h
  | .each lens => exact Lens.isTyped_of_isMoving lens h

theorem Lens.isTyped_of_isMoving (lens : Lens) (h : lens.isMoving = true) : Lens.isTyped lens = true := by
  match lens with
  | [] => rfl
  | op :: rest =>
    rw [Lens.isMoving, Bool.and_eq_true] at h
    rw [Lens.isTyped, LensOp.isTyped_of_isMoving op h.1, Lens.isTyped_of_isMoving rest h.2]
    rfl

end

namespace Lens

/-- A write comes through a lens that gives members other places as the same write, if there is a place left. -/
theorem exists_carry_of_isMoving (hlens : lens.isMoving = true) (hp : p.Edits e path)
    (hwrites : e.written?.isSome = true) : ∃ found, (Lens.carry p lens).outcome = .ok found ∧
      ∀ q, found = some q → ∃ place, q.Edits e place := by
  have hcomes := Lens.comes lens hp
  rw [Lens.take_eq_route lens (Lens.isPlacing_of_isStructural lens (Lens.isStructural_of_isMoving lens hlens))
    (.inl hwrites) (.inr (Lens.not_wrapping_of_isMoving lens hlens path))] at hcomes
  generalize (Lens.carry p lens).outcome = carried at hcomes
  cases hplace : Lens.route path lens with
  | none =>
    rw [hplace] at hcomes
    cases hcomes
    exact ⟨none, rfl, nofun⟩
  | some place =>
    rw [hplace] at hcomes
    cases hcomes with
    | @carried q _ _ hq =>
      refine ⟨some q, rfl, fun q' heq => ⟨place, ?_⟩⟩
      rwa [← Option.some.inj heq]

private theorem exists_carryAll_of_isMoving (hlens : lens.isMoving = true)
    (hps : ∀ p ∈ ps, ∃ e path, p.Edits e path ∧ e.written?.isSome = true) :
    ∃ ws, (lens.carryAll ps).outcome = .ok ws ∧ ∀ q ∈ ws, ∃ e path, q.Edits e path := by
  induction ps with
  | nil => exact ⟨[], rfl, by simp⟩
  | cons p rest ih =>
    obtain ⟨⟨e, path, hp, hwrites⟩, hrest⟩ := List.forall_mem_cons.1 hps
    obtain ⟨ws, hws, hedits⟩ := ih hrest
    obtain ⟨found, hfound, hq⟩ := exists_carry_of_isMoving hlens hp hwrites
    rw [outcome_carryAll_cons, hfound, hws]
    cases found with
    | none => exact ⟨ws, rfl, hedits⟩
    | some q =>
      obtain ⟨place, hplace⟩ := hq q rfl
      exact ⟨q :: ws, rfl, List.forall_mem_cons.2 ⟨⟨e, place, hplace⟩, hedits⟩⟩

end Lens

/-- Patches that make the document an empty array, and replace the first element next if there is to be one. -/
inductive Patch.Relists : List Json → Patch → Prop
  | empty {q : PatchOp} (hq : q.Edits (.replace (.arr [])) []) : Relists [] [q]
  | first {v w : Json} {es : List Json} {q r : PatchOp} {rest : Patch} (hq : q.Edits (.replace (.arr [])) [])
    (hr : r.Edits (.replace w) ["0"]) : Relists (v :: es) (q :: r :: rest)

private theorem Patch.exists_expand_creating (es : List Json) : ∃ steps,
    Patch.expand ((Patch.creating (.arr es)).map PatchOp.toJson) = .ok steps ∧ Patch.Relists es steps ∧
      ∀ p ∈ steps, ∃ e path, p.Edits e path ∧ e.written?.isSome = true := by
  obtain ⟨q, hexpand, hq⟩ := (PatchOp.Writes.toOp .replace [] (.arr es)).edits.exists_expand
  refine ⟨q :: Write.replace.below [] (.arr es), ?_, ?_, List.forall_mem_cons.2 ⟨⟨_, [], hq, rfl⟩, fun p hp => ?_⟩⟩
  · have hall := Patch.expand_cons hexpand (show Patch.expand [] = .ok [] from rfl)
    rwa [List.append_nil] at hall
  · cases es with
    | nil => exact .empty hq
    | cons v rest =>
      rw [Write.below, Write.elementSteps, Write.steps_eq]
      exact .first hq (PatchOp.Writes.toOp .replace ["0"] v.hollow).edits
  · obtain ⟨v, rest, rfl, -⟩ := Write.toOp_of_mem_elementSteps .replace es [] 0 p hp
    exact ⟨.replace v, rest, (PatchOp.Writes.toOp .replace rest v).edits, rfl⟩

namespace Patch.Relists

/-- Neither the whole nor an element as such is what a lens for the elements gives another place. -/
private theorem exists_carryAll (h : Patch.Relists es ps) (hlens : lens.isMoving = true)
    (hps : ∀ p ∈ ps, ∃ e path, p.Edits e path ∧ e.written?.isSome = true) :
    ∃ ws, (Lens.carryAll [.each lens] ps).outcome = .ok ws ∧ Patch.Relists es ws ∧
      ∀ q ∈ ws, ∃ e path, q.Edits e path := by
  have heach : Lens.isMoving [.each lens] = true := by rw [Lens.isMoving, LensOp.isMoving, hlens]; rfl
  cases h with
  | @empty q hq =>
    refine ⟨[q], ?_, .empty hq, by simpa using ⟨_, _, hq⟩⟩
    rw [Lens.outcome_carryAll_cons, Lens.outcome_carry_root hq.edit hq.path]
    rfl
  | @first v w es q r rest hq hr =>
    obtain ⟨ws, hws, hedits⟩ := Lens.exists_carryAll_of_isMoving heach
      (List.forall_mem_cons.1 (List.forall_mem_cons.1 hps).2).2
    refine ⟨q :: r :: ws, ?_, .first hq hr, by simpa using ⟨⟨_, _, hq⟩, ⟨_, _, hr⟩, hedits⟩⟩
    -- an index that ends a path is not cut off: only what stands below an element meets the lens
    rw [Lens.outcome_carryAll_cons, Lens.outcome_carry_root hq.edit hq.path, Lens.outcome_carryAll_cons,
      Lens.outcome_carry_cons hr.path, LensOp.outcome_carry_each, Path.cutAtIndex?_singleton]
    simp [hws, pure, Except.pure]

/-- No array is an object to be filled in; what is filled in below the first element comes after it. -/
private theorem exists_filled (h : Patch.Relists es ps) {schema : Json} (hschema : WellShaped schema)
    (hps : ∀ p ∈ ps, ∃ e path, p.Edits e path) :
    ∃ qs, (filled schema ps).outcome = .ok qs ∧ Patch.Relists es qs ∧ ∀ q ∈ qs, ∃ e path, q.Edits e path := by
  obtain ⟨qs, hqs, hedits⟩ := hschema.exists_filled_of_edits hps
  -- that all are edits is known of the whole; for the shape, the first two operations are followed by themselves
  refine ⟨qs, hqs, ?_, hedits⟩
  cases h with
  | @empty q hq =>
    rw [outcome_filled_cons, outcome_filledOp_of_ne schema hq nofun] at hqs
    obtain rfl := Except.ok.inj hqs
    exact .empty hq
  | @first v w es q r rest hq hr =>
    obtain ⟨fillings, hfillings, -⟩ := hschema.exists_filledOp_of_edit hr
    obtain ⟨others, hothers, -⟩ := hschema.exists_filled_of_edits
      (List.forall_mem_cons.1 (List.forall_mem_cons.1 hps).2).2
    rw [outcome_filled_cons, outcome_filledOp_of_ne schema hq nofun, outcome_filled_cons,
      hfillings, hothers] at hqs
    obtain rfl := Except.ok.inj hqs
    exact .first hq hr

/-- The first element is to be replaced in an array that has none. -/
private theorem outcome_applyIfThere (h : Patch.Relists es ps) (doc : Json) : (Patch.applyIfThere doc ps).outcome =
    if es = [] then .ok (.arr []) else .error .absentTarget := by
  have hwhole : (Edit.replace (.arr [])).applyIfThere [] doc = .ok (.arr []) := rfl
  cases h with
  | empty hq => simp [Patch.applyIfThere, hq.outcome_applyIfThere, hwhole]
  | @first v w es q r rest hq hr =>
    have hfirst : (Edit.replace w).applyIfThere ["0"] (.arr []) = .error .absentTarget := by
      simp [Edit.applyIfThere, Edit.apply, Edit.onPart, show Pointer.position? "0" = some 0 from rfl, Edit.onElement]
    simp [Patch.applyIfThere, hq.outcome_applyIfThere, hr.outcome_applyIfThere, hwhole, hfirst]
    rfl

end Patch.Relists

namespace Lens

/-- Of the arrays that a lens can rewrite, the conversion has the empty one only. -/
theorem convertDocument_each (hlens : lens.isMoving = true) (hes : ∀ v ∈ es, v.isDocument = true)
    (hfits : List.Forall₂ (fun v v' => lens.rewrite v = .ok v') es es') (fills : Bool) :
    (convertDocument [.each lens] fills (.arr es) none .null).outcome =
      if es = [] then .ok (.arr []) else .error .absentTarget := by
  obtain ⟨next, hfollow, hdescribes⟩ := Lens.leads [.each lens]
    (by rw [Lens.isTyped, LensOp.isTyped, Lens.isTyped_of_isMoving lens hlens]; rfl)
    (@describes_infer_arr false es hes nofun)
    (.cons (Lens.rewrite_cons_eq_ok.2 ⟨_, Json.rewriteElements_eq_ok.2 ⟨es, es', rfl, hfits, rfl⟩, rfl⟩) .nil)
  obtain ⟨base, part, hminimal, -⟩ := hdescribes.shaped.exists_minimal
  obtain ⟨steps, hsteps, hrelists, hwrites⟩ := Patch.exists_expand_creating es
  obtain ⟨ws, hcarried, hrelists, hedits⟩ := hrelists.exists_carryAll hlens hwrites
  have hconverted : ∃ qs, (convertPatch [.each lens] fills (infer (.arr es))
      (.arr ((Patch.creating (.arr es)).map PatchOp.toJson))).outcome = .ok qs ∧ Patch.Relists es qs ∧
        ∀ q ∈ qs, ∃ e path, q.Edits e path := by
    cases fills with
    | false => exact ⟨ws, by rw [outcome_convertPatch_plain _ hsteps, hcarried], hrelists, hedits⟩
    | true =>
      obtain ⟨qs, hqs, hrest⟩ := hrelists.exists_filled hdescribes.shaped hedits
      exact ⟨qs, by simp [convertPatch, Json.asList, hsteps, hcarried, hfollow, hqs], hrest⟩
  obtain ⟨qs, hqs, hrelists, hedits⟩ := hconverted
  obtain ⟨text, htext⟩ := Patch.exists_describe_of_edits hedits
  have htarget : (Json.null.orElse .emptyObject).asMembers = .ok [] := rfl
  rw [← hrelists.outcome_applyIfThere (.obj base)]
  simp [convertDocument, hqs, hfollow, htext, hminimal, Json.asObject, htarget, Members.putAll]

/-- An array of objects of which each has a member under one name and none under another is not converted by a
lens that renames the member in each of them, unless it is empty. -/
theorem convertDocument_each_rename {source destination : String}
    (hes : ∀ v ∈ es, ∃ ms : Members, v = .obj ms ∧ ms.AreDocument ∧ ms.has source = true ∧
      ms.get? destination = none) (fills : Bool) :
    (convertDocument [.each [.rename (.str source) (.str destination)]] fills (.arr es) none .null).outcome =
      if es = [] then .ok (.arr []) else .error .absentTarget := by
  have hfits : ∃ es', List.Forall₂
      (fun v v' => Lens.rewrite v [.rename (.str source) (.str destination)] = .ok v') es es' := by
    induction es with
    | nil => exact ⟨[], .nil⟩
    | cons v rest ih =>
      obtain ⟨⟨ms, rfl, -, hsource, hdestination⟩, hrest⟩ := List.forall_mem_cons.1 hes
      obtain ⟨es', hes'⟩ := ih hrest
      refine ⟨.obj (ms.renamed source destination) :: es', .cons ?_ hes'⟩
      exact Lens.rewrite_cons_eq_ok.2
        ⟨_, Json.renameMember_eq_ok.2 ⟨ms, rfl, hsource, hdestination, rfl⟩, rfl⟩
  obtain ⟨es', hes'⟩ := hfits
  refine convertDocument_each rfl (fun v hv => ?_) hes' fills
  obtain ⟨ms, rfl, hms, -⟩ := hes v hv
  exact Json.isDocument_obj.2 hms

/-- The only object of an array is replaced before it is there. -/
theorem convertDocument_each_rename_items :
    (convertDocument [.each [.rename (.str "s") (.str "t")]] true (.arr [.obj [("s", .int 1)]]) none .null).outcome =
      .error .absentTarget := by
  refine (@convertDocument_each_rename [.obj [("s", .int 1)]] "s" "t" ?_ true).trans (if_neg (by simp))
  intro v hv
  obtain rfl := List.mem_singleton.1 hv
  exact ⟨_, rfl, Json.isDocument_obj.1 rfl, rfl, rfl⟩

end Lens

end EditLens
