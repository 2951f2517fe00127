import EditLens.Proofs.Lens.Completing
import EditLens.Proofs.Schema.Furnished

/-! Documents through the lens that does nothing. Main statement: what comes out is the document itself exactly
if none of its objects lacks a member that the schema inferred from the document gives by default. -/
namespace EditLens.Lens

open Schema

variable {schema doc : Json} {ms : Members}

private theorem outcome_carryAll_nil (ps : Patch) : (carryAll [] ps).outcome = .ok ps := by
  induction ps with
  | nil => rfl
  | cons p rest ih =>
    rw [outcome_carryAll_cons, outcome_carry_nil, Except.bind_ok, ih]
    rfl

/-- With a schema that can be read, nothing fails, and what comes out is the object completed. -/
private theorem exists_completed (hschema : WellShaped schema) (hms : ms.AreDocument) :
    ∃ w result, complete schema (.obj ms) = .ok w ∧
      (convertDocument [] true (.obj ms) (some schema) .null).outcome = .ok result ∧
      result.isDocument = true ∧ result.tree = w.tree := by
  obtain ⟨whole, hwhole, hlegible⟩ := hschema.legible.container_eq
  obtain ⟨qs, hqs, hedits⟩ := hschema.exists_filled_of_edits (Patch.grows_creating hms).edits
  obtain ⟨text, htext⟩ := Patch.exists_describe_of_edits hedits
  obtain ⟨ns, part, hminimal, -⟩ := hschema.exists_minimal
  rcases minimal_cases hwhole hlegible with
    ⟨given, base, hgiven, -, hbase, hdocument, htrees⟩ | ⟨-, fault, -, -, hfault⟩
  · have hat : ∀ token rest, locate schema ([] ++ token :: rest) = (do locate (← step whole token) rest) :=
      fun token rest => by rw [List.nil_append, locate, hwhole, Except.bind_ok]
    have hputs := puts_memberSteps schema ms hms hlegible hat base.trees
    rw [hqs] at hputs
    generalize hown : completeMembers whole ms = members at hputs
    cases hputs with
    | @ok own _ below document =>
    obtain ⟨result, happly, hresult, htree⟩ := below.exists_apply (Tree.IsContext.root none)
      (Json.isDocument_obj.2 hdocument) (Json.tree_obj base)
    refine ⟨.obj (given.putAll own), result, ?_, ?_, hresult, ?_⟩
    · rw [complete, hwhole, Except.bind_ok, hgiven, Except.bind_ok, hown]
      rfl
    · rw [@outcome_convertDocument [] ms schema schema _ rfl (outcome_carryAll_nil _)]
      simp [hqs, htext, hbase, Json.asObject, Patch.outcome_applyIfThere happly]
    · rw [htree, Json.tree_obj]
      exact congrArg Tree.obj (funext fun name => by rw [document.trees_putAll, htrees])
  · rw [hfault] at hminimal
    cases hminimal

/-- Nothing of a document is lost by the lens that does nothing, and nothing is filled in exactly if no object
lacks a member that is given by default at its place. -/
theorem convertDocument_nil_same_iff (hdoc : doc.isDocument = true) (hobject : doc.isObject = true) :
    ∃ result, (convertDocument [] true doc none .null).outcome = .ok result ∧ Tree.Part doc.tree result.tree ∧
      (result.same doc = true ↔ Furnished (infer doc) doc.tree) := by
  obtain ⟨ms, rfl⟩ := Json.exists_obj_of_isObject hobject
  have hms := Json.isDocument_obj.1 hdoc
  have hshaped := (@describes_infer false ms hms nofun).shaped
  obtain ⟨w, result, hcomplete, hresult, hdocument, htree⟩ := exists_completed hshaped hms
  have hpart : Tree.Part (Json.obj ms).tree result.tree := htree ▸ part_complete _ hdoc hcomplete
  refine ⟨result, hresult, hpart, ?_⟩
  rw [← tree_complete_iff _ hdoc hshaped.legible hcomplete, ← htree]
  exact ⟨Json.tree_of_part hdocument hpart, Json.same_of_tree hdocument hdoc⟩

/-- An array is filled in where another element of the same array has one. -/
theorem convertDocument_nil_same_iff_items :
    let doc : Json := .obj [("p", .arr [.obj [("q", .arr [.null])], .null, .obj []])]
    ∃ result, (convertDocument [] true doc none .null).outcome = .ok result ∧ Tree.Part doc.tree result.tree ∧
      result.same doc = false := by
  intro doc
  obtain ⟨result, hresult, hpart, hiff⟩ := @convertDocument_nil_same_iff doc rfl rfl
  refine ⟨result, hresult, hpart, Bool.eq_false_iff.2 fun hsame => ?_⟩
  let part : Json := .obj [("type", .str "array"), ("items", .obj [("type", .str "null")])]
  have hlocate : locate (infer doc) ["p", "2"] =
      .ok (.obj [("type", .str "object"), ("properties", .obj [("q", part)])]) := rfl
  have hgives : Gives (.obj [("type", .str "object"), ("properties", .obj [("q", part)])]) "q" :=
    ⟨[("q", part)], part, .arr [], rfl, rfl, rfl⟩
  obtain ⟨u, hu⟩ := hiff.1 hsame ["p", "2"] (Members.trees []) _ rfl hlocate "q" hgives
  cases hu

/-- An object from which a number is missing that another element of the array has. -/
theorem convertDocument_nil_not_same :
    let doc : Json := .obj [("b", .arr [.obj [("a", .int 1)], .obj []])]
    let whole : Json := .obj [("b", .arr [.obj [("a", .int 1)], .obj [("a", .int 0)]])]
    ∃ result, (convertDocument [] true doc none .null).outcome = .ok result ∧ result.same whole = true ∧
      result.same doc = false := by
  intro doc whole
  have hms : Members.AreDocument [("b", .arr [.obj [("a", .int 1)], .obj []])] := Json.isDocument_obj.1 rfl
  have hshaped := (@describes_infer false _ hms nofun).shaped
  obtain ⟨w, result, hcomplete, hresult, hdocument, htree⟩ := exists_completed hshaped hms
  obtain rfl : whole = w := by
    have hwhole : complete (infer doc) doc = .ok whole := by decide +kernel
    exact Except.ok.inj (hwhole.symm.trans hcomplete)
  refine ⟨result, hresult, Json.same_of_tree hdocument rfl htree, Bool.eq_false_iff.2 fun hsame => ?_⟩
  have hpart := part_complete doc rfl hcomplete
  rw [← htree] at hpart
  have hequal : whole.tree = doc.tree := htree ▸ Json.tree_of_part hdocument hpart hsame
  exact absurd (Json.same_of_tree rfl rfl hequal) (by decide)

end EditLens.Lens
