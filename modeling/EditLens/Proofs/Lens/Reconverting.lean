import EditLens.Proofs.Lens.Leading

/-! Documents that are converted once more, onto what they have become. Main statement: nothing changes if nothing
is put deeper, or if each operation that makes the document does the same again. -/
namespace EditLens.Lens

variable {lens : Lens} {fills : Bool} {doc target result : Json} {schema? : Option Json}

def making (lens : Lens) (fills : Bool) (doc : Json) (schema? : Option Json) : Noted Patch :=
  lens.convertPatch fills (schema?.getD (Schema.infer doc)) (.arr ((Patch.creating doc).map PatchOp.toJson))

def smallest (lens : Lens) (doc : Json) (schema? : Option Json) : Noted Json := do
  Schema.minimal (← Lens.follow (schema?.getD (Schema.infer doc)) lens)

/-- Whether each operation that makes the document of the new shape does the same again on a result. -/
def Redoes (lens : Lens) (fills : Bool) (doc : Json) (schema? : Option Json) (result : Json) : Prop :=
  ∀ patch base, (lens.making fills doc schema?).outcome = .ok patch →
    (lens.smallest doc schema?).outcome = .ok base → Patch.Repeats result (fun _ => False) base patch

/-- A conversion is the run of a patch on the smallest document with the members of the target put over it. -/
theorem outcome_convertDocument_eq_ok :
    (lens.convertDocument fills doc schema? target).outcome = .ok result ↔
      ∃ (patch : Patch) (base ts : Members), (lens.making fills doc schema?).outcome = .ok patch ∧
        (∃ text, patch.describe = .ok text) ∧ (lens.smallest doc schema?).outcome = .ok (.obj base) ∧
        (target.orElse .emptyObject).asMembers = .ok ts ∧
        (Patch.applyIfThere (.obj (base.putAll ts)) patch).outcome = .ok result := by
  simp only [convertDocument, making, smallest, Noted.outcome_bind, Noted.outcome_liftM, Noted.outcome_note,
    Except.bind_ok]
  constructor
  · intro h
    obtain ⟨patch, hpatch, h⟩ := Except.exists_of_bind h
    obtain ⟨written, hwritten, h⟩ := Except.exists_of_bind h
    obtain ⟨text, htext, h⟩ := Except.exists_of_bind h
    obtain ⟨base, hbase, h⟩ := Except.exists_of_bind h
    obtain ⟨ms, hms, h⟩ := Except.exists_of_bind h
    obtain ⟨ts, hts, hrun⟩ := Except.exists_of_bind h
    obtain rfl : base = .obj ms := by
      cases base with
      | obj ns => rw [Except.ok.inj hms]
      | _ => cases hms
    exact ⟨patch, ms, ts, hpatch, ⟨text, htext⟩, by rw [hwritten]; exact hbase, hts, hrun⟩
  · rintro ⟨patch, base, ts, hpatch, ⟨text, htext⟩, hbase, hts, h⟩
    obtain ⟨written, hwritten, hbase⟩ := Except.exists_of_bind hbase
    simp only [hpatch, hwritten, htext, hbase, hts, Except.bind_ok, Json.asObject, h]

/-- Where nothing is put deeper, what makes an object is added to its members and below what was written. -/
private theorem anchored_making {ms : Members} {patch : Patch} (hlens : lens.deepens = false)
    (h : (lens.making fills (.obj ms) schema?).outcome = .ok patch) : Patch.Anchored (fun _ => False) patch := by
  simp only [making, convertPatch, Noted.outcome_bind, Noted.outcome_liftM, Noted.outcome_note, Json.asList,
    Patch.expand_creating ms, Except.bind_ok] at h
  obtain ⟨converted, hconverted, h⟩ := Except.exists_of_bind h
  have hrooted := (Patch.rooted_creating ms fun _ => False).carryAll hlens (fun _ _ hnot _ => hnot) hconverted
  cases fills with
  | false =>
    obtain rfl := Except.ok.inj h
    exact hrooted.anchored
  | true =>
    simp only [if_true, Noted.outcome_bind] at h
    obtain ⟨written, -, hfilled⟩ := Except.exists_of_bind h
    exact hrooted.anchored_filled hfilled

/-- The members of an object that are put over others are those that it will have in the end. -/
private theorem redone_putAll {base es : Members} (hbase : base.AreOf fun _ => True)
    (hes : es.AreDocument) :
    Json.Redone (fun _ => False) (some (.obj base)) (some (.obj (base.putAll es))) (some (.obj es)) := by
  refine .object id (hbase.putAll ⟨hes.distinct, hes.text, fun _ _ => trivial⟩) fun name => ?_
  rw [Members.get?_putAll hes.distinct]
  cases es.get? name with
  | none => exact .settled
  | some v => exact .pending fun _ => id

/-- Converting a document once more onto what it has become gives the same, if nothing is put deeper or if each
operation that makes the document does the same again. -/
theorem convertDocument_again (h : (lens.convertDocument fills doc schema? .null).outcome = .ok result)
    (hobject : result.isObject = true) (hresult : result.isDocument = true)
    (hlens : (lens.deepens = false ∧ doc.isObject = true) ∨ lens.Redoes fills doc schema? result) :
    ∃ again, (lens.convertDocument fills doc schema? result).outcome = .ok again ∧ again.same result = true := by
  obtain ⟨es, rfl⟩ : ∃ es, result = .obj es := by
    cases result with
    | obj es => exact ⟨es, rfl⟩
    | _ => cases hobject
  obtain ⟨patch, base, ts, hpatch, htext, hbase, hts, hrun⟩ := outcome_convertDocument_eq_ok.1 h
  obtain rfl : ts = [] := (Except.ok.inj hts).symm
  have hrepeats : Patch.Repeats (.obj es) (fun _ => False) (.obj base) patch := by
    rcases hlens with ⟨hdeepens, hdoc⟩ | hredoes
    · obtain ⟨ms, rfl⟩ : ∃ ms, doc = .obj ms := by
        cases doc with
        | obj ms => exact ⟨ms, rfl⟩
        | _ => cases hdoc
      exact (anchored_making hdeepens hpatch).repeats hrun
    · exact hredoes patch _ hpatch hbase
  obtain ⟨written, -, hminimal⟩ : ∃ written, _ ∧ (Schema.minimal written).outcome = .ok (.obj base) := by
    rw [smallest, Noted.outcome_bind] at hbase
    exact Except.exists_of_bind hbase
  obtain ⟨names, hbaseNames, hnames⟩ := Schema.areOf_minimal hminimal
  obtain rfl := Json.obj.inj hbaseNames
  obtain ⟨again, hagain, hdocument, htree⟩ := hrepeats.redone
    (redone_putAll hnames (Json.isDocument_obj.1 hresult)) hresult hrun
  refine ⟨again, outcome_convertDocument_eq_ok.2 ⟨patch, base, es, hpatch, htext, hbase, ?_, hagain⟩,
    Json.same_of_tree hdocument hresult htree⟩
  cases es <;> rfl

/-- Names change inside a member, an array becomes its first element and a member moves out; in the other lens, a
member moves into an object that is written before. -/
theorem convertDocument_again_items :
    let moves : Lens := [.inside (.str "p") [.rename (.str "s") (.str "t")], .head (.str "l"),
      .hoist (.str "p") (.str "i")]
    let nested : Json := .obj [("p", .obj [("s", .str "a"), ("i", .int 1)]), ("l", .arr [.str "x", .str "y"])]
    let moved : Json := .obj [("p", .obj [("t", .str "a")]), ("l", .str "x"), ("i", .int 1)]
    let plunges : Lens := [.plunge (.str "h") (.str "x")]
    let beside : Json := .obj [("h", .obj [("y", .str "a")]), ("x", .int 1)]
    let plunged : Json := .obj [("h", .obj [("y", .str "a"), ("x", .int 1)])]
    ((moves.convertDocument true nested none .null).outcome = .ok moved ∧
        ∃ again, (moves.convertDocument true nested none moved).outcome = .ok again ∧ again.same moved = true) ∧
      (plunges.convertDocument true beside none .null).outcome = .ok plunged ∧ plunges.deepens = true ∧
        ∃ again, (plunges.convertDocument true beside none plunged).outcome = .ok again ∧
          again.same plunged = true := by
  intro moves nested moved plunges beside plunged
  have hmoved : (moves.convertDocument true nested none .null).outcome = .ok moved := by decide +kernel
  have hmaking : (plunges.making true beside none).outcome = .ok [.add ["h"] (.obj []), .add ["h", "y"] (.str ""),
      .add ["h", "x"] (.int 0), .add ["h", "y"] (.str "a"), .add ["h", "x"] (.int 1)] := by decide +kernel
  have hsmallest : (plunges.smallest beside none).outcome =
      .ok (.obj [("h", .obj [("y", .str ""), ("x", .int 0)])]) := by decide +kernel
  have hrun : (Patch.applyIfThere (.obj [("h", .obj [("y", .str ""), ("x", .int 0)])]) [.add ["h"] (.obj []),
      .add ["h", "y"] (.str ""), .add ["h", "x"] (.int 0), .add ["h", "y"] (.str "a"),
      .add ["h", "x"] (.int 1)]).outcome = .ok plunged := by decide +kernel
  have hplunged : (plunges.convertDocument true beside none .null).outcome = .ok plunged :=
    outcome_convertDocument_eq_ok.2 ⟨_, _, [], hmaking, ⟨_, rfl⟩, hsmallest, rfl, hrun⟩
  have hbelow : Schema.AddsBelow ["h"] [.add ["h", "y"] (.str ""), .add ["h", "x"] (.int 0),
      .add ["h", "y"] (.str "a"), .add ["h", "x"] (.int 1)] := by
    simp only [Schema.AddsBelow, List.forall_mem_cons]
    exact ⟨⟨["y"], .str "", by simp, PatchOp.edits_add _ _⟩, ⟨["x"], .int 0, by simp, PatchOp.edits_add _ _⟩,
      ⟨["y"], .str "a", by simp, PatchOp.edits_add _ _⟩, ⟨["x"], .int 1, by simp, PatchOp.edits_add _ _⟩, by simp⟩
  refine ⟨⟨hmoved, convertDocument_again hmoved rfl rfl (.inl ⟨rfl, rfl⟩)⟩, hplunged, rfl,
    convertDocument_again hplunged rfl rfl (.inr fun patch base hpatch hbase => ?_)⟩
  obtain rfl := Except.ok.inj (hmaking.symm.trans hpatch)
  obtain rfl := Except.ok.inj (hsmallest.symm.trans hbase)
  refine (Patch.Anchored.cons (PatchOp.edits_add ["h"] (.obj [])) (.inl ⟨"h", rfl⟩) ?_).repeats hrun
  exact Patch.anchored_of_addsBelow hbelow (.inr ⟨rfl, rfl⟩)

/-- An element that was wrapped is inserted once more in front of the one that the target has. -/
theorem convertDocument_again_longer :
    let lens : Lens := [.wrap (.str "x")]
    let doc : Json := .obj [("x", .int 1)]
    let wrapped : Json := .obj [("x", .arr [.int 1])]
    let longer : Json := .obj [("x", .arr [.int 1, .int 1])]
    (lens.convertDocument true doc none .null).outcome = .ok wrapped ∧
      wrapped.isObject = true ∧ wrapped.isDocument = true ∧
      (lens.convertDocument true doc none wrapped).outcome = .ok longer ∧ longer.same wrapped = false :=
  ⟨by decide +kernel, rfl, rfl, by decide +kernel, rfl⟩

end EditLens.Lens
