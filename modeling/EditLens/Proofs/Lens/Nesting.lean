import EditLens.Proofs.Lens.Converting
import EditLens.Proofs.Patch.Expanding
import EditLens.Proofs.Patch.Redoing
import EditLens.Proofs.Schema.Inferred
import EditLens.Proofs.Schema.Revising
import EditLens.Proofs.Schema.Rooted

/-! Objects of scalars, of which some are wrapped. Main statement: what is wrapped once becomes the one element of an
array, a null no element at all, and what is no null and wrapped again cannot be written. -/
namespace EditLens

/-- A scalar in so many arrays of one element, one in the other. Null is no element. -/
def Scalar.nested (s : Scalar) : Nat → Json
  | 0 => .scalar s
  | n + 1 => if s = .null then .arr [] else .arr [s.nested n]

variable {fields : List (String × Scalar)} {field : String × Scalar} {names : List String} {name : String}
  {s : Scalar} {p : PatchOp} {qs : Patch} {n : Nat} {count : String → Nat} {required : List Json}

namespace Members

def ofFields (value : String × Scalar → Json) (fields : List (String × Scalar)) : Members :=
  fields.map fun f => (.str f.1, value f)

def ofScalars (fields : List (String × Scalar)) : Members := ofFields (fun f => .scalar f.2) fields

variable {value other : String × Scalar → Json}

private theorem ofFields_congr (h : ∀ f ∈ fields, value f = other f) : ofFields value fields = ofFields other fields :=
  List.map_congr_left fun f hf => by rw [h f hf]

private theorem distinct_ofFields (value : String × Scalar → Json) (hfields : (fields.map Prod.fst).Nodup) :
    Distinct (ofFields value fields) := by
  rw [Distinct, ofFields, List.pairwise_map]
  exact (List.pairwise_map.1 hfields).imp fun hne => by simpa using hne

private theorem get?_ofFields (value : String × Scalar → Json) (hfields : (fields.map Prod.fst).Nodup)
    (hfield : field ∈ fields) :
    get? (ofFields value fields) field.1 = some (value field) :=
  get?_of_mem (distinct_ofFields value hfields) (List.mem_map_of_mem hfield)

private theorem put_ofFields (value other : String × Scalar → Json) (hfields : (fields.map Prod.fst).Nodup)
    (hfield : field ∈ fields) :
    (ofFields value fields).put field.1 (other field) =
      ofFields (fun f => if f.1 = field.1 then other f else value f) fields := by
  have hhas := has_iff.2 ⟨_, get?_ofFields value hfields hfield⟩
  rw [put_eq_map (distinct_ofFields value hfields) hhas, ofFields, ofFields, List.map_map]
  refine List.map_congr_left fun f hf => ?_
  by_cases hname : f.1 = field.1
  · obtain rfl := List.inj_on_of_nodup_map hfields hf hfield hname
    simp
  · simp [hname]

private theorem areDocument_ofFields (hfields : (fields.map Prod.fst).Nodup)
    (hvalue : ∀ f ∈ fields, (value f).isDocument = true) : AreDocument (ofFields value fields) := by
  refine ⟨distinct_ofFields value hfields, fun m hm => ?_, fun m hm => ?_⟩
  · obtain ⟨f, -, rfl⟩ := List.mem_map.1 hm
    exact ⟨f.1, rfl⟩
  · obtain ⟨f, hf, rfl⟩ := List.mem_map.1 hm
    exact hvalue f hf

end Members

namespace Schema

def nestedOf (s : Scalar) : Nat → Json
  | 0 => .obj [("type", .str (SampleType.ofScalar s).name)]
  | n + 1 => arrayOf (nestedOf s n)

private theorem withoutNull_nestedOf (s : Scalar) (n : Nat) : withoutNull (nestedOf s n) = .ok (nestedOf s n) := by
  cases n <;> rfl

private theorem ofMembers_ofScalars (fields : List (String × Scalar)) :
    Shape.ofMembers (Members.ofScalars fields) = Members.ofFields (fun f => nestedOf f.2 0) fields := by
  rw [Shape.ofMembers, Members.ofScalars, Members.ofFields, Members.ofFields, List.map_map]
  refine List.map_congr_left fun f _ => ?_
  obtain ⟨name, s⟩ := f
  cases s <;> rfl

def ofNested (count : String → Nat) (fields : List (String × Scalar)) (required : List Json) : Json :=
  .obj (ofObject (Members.ofFields (fun f => nestedOf f.2 (count f.1)) fields) required)

private theorem infer_ofScalars (hfields : (fields.map Prod.fst).Nodup) (hne : fields ≠ []) :
    infer (.obj (Members.ofScalars fields)) =
      ofNested (fun _ => 0) fields (requiredNames (Members.ofScalars fields)) := by
  have hdoc : (Members.ofScalars fields).AreDocument := Members.areDocument_ofFields hfields fun _ _ => rfl
  have hmembers : Members.ofScalars fields ≠ [] := by simpa [Members.ofScalars, Members.ofFields] using hne
  rw [infer_obj_of_ne_nil hdoc hmembers, ofMembers_ofScalars, ofNested]

def nestedDefault (s : Scalar) : Nat → Json
  | 0 =>
    match s with
    | .null => .null
    | .bool _ => .bool false
    | .int _ => .int 0
    | .float _ => .int 0
    | .str _ => .str ""
  | _ + 1 => .arr []

private theorem memberDefault_nestedOf (s : Scalar) (n : Nat) :
    memberDefault (nestedOf s n) = .ok (some (nestedDefault s n)) := by
  cases n with
  | zero => cases s <;> rfl
  | succ n => rfl

private theorem nestedDefault_ne (s : Scalar) (n : Nat) : nestedDefault s n ≠ .emptyObject := by
  cases n with
  | zero => cases s <;> nofun
  | succ n => nofun

private theorem steps_nestedDefault (s : Scalar) (n : Nat) (path : Path) :
    Write.add.steps path (nestedDefault s n) = [.add path (nestedDefault s n)] := by
  cases n with
  | zero => cases s <;> rfl
  | succ n => rfl

private theorem isDocument_nestedDefault (s : Scalar) (n : Nat) : (nestedDefault s n).isDocument = true := by
  cases n with
  | zero => cases s <;> rfl
  | succ n => rfl

private theorem memberSchemas_ofObject (props : Members) (required : List Json) :
    memberSchemas (.obj (ofObject props required)) = .ok props := by
  show (Json.orElse (.obj props) .emptyObject).asObject = _
  cases props <;> rfl

theorem container_ofObject (props : Members) (required : List Json) :
    container (.obj (ofObject props required)) = .ok (.obj (ofObject props required)) := rfl

private theorem outcome_gather_nested (schema : Json) (count : String → Nat) (fields : List (String × Scalar)) :
    (Noted.gather (fillMember [] schema) (Members.ofFields (fun f => nestedOf f.2 (count f.1)) fields)).outcome =
      .ok (Write.add.memberSteps [] (Members.ofFields (fun f => nestedDefault f.2 (count f.1)) fields)) := by
  induction fields with
  | nil => rfl
  | cons f rest ih =>
    have hmember : (fillMember [] schema (.str f.1, nestedOf f.2 (count f.1))).outcome =
        .ok (Write.add.steps [f.1] (nestedDefault f.2 (count f.1))) := by
      rw [steps_nestedDefault]
      exact outcome_fillMember_of_ne (memberDefault_nestedOf f.2 (count f.1)) (nestedDefault_ne f.2 (count f.1))
    rw [Members.ofFields, List.map_cons, Noted.gather, Noted.outcome_bind, hmember]
    rw [Members.ofFields] at ih
    simp only [Noted.outcome_bind, ih, Except.bind_ok]
    rfl

/-- The smallest document has the defaults of the members. -/
private theorem outcome_minimal_nested (hfields : (fields.map Prod.fst).Nodup) (count : String → Nat)
    (required : List Json) :
    (minimal (ofNested count fields required)).outcome =
      .ok (.obj (Members.ofFields (fun f => nestedDefault f.2 (count f.1)) fields)) := by
  have hroot := PatchOp.edits_add [] .emptyObject
  have happly := Write.apply_memberSteps (Members.ofFields (fun f => nestedDefault f.2 (count f.1)) fields)
    (Members.areDocument_ofFields hfields fun f _ => isDocument_nestedDefault f.2 (count f.1)) []
    (fun _ _ => rfl) (rfl : Json.emptyObject.partAt? [] = some (.obj []))
  simp only [minimal, ofNested, Noted.outcome_bind, Noted.outcome_liftM, outcome_filled_singleton,
    outcome_filledOp_of_makesObject _ (makesObject_add [] .emptyObject) hroot.path, locate, container_ofObject, fill_eq,
    memberSchemas_ofObject, outcome_gather_nested, Except.bind_ok, pure_bind]
  exact Patch.apply_cons (hroot.apply_eq .emptyObject) happly

end Schema

def Scalar.nestedEdit (s : Scalar) (n : Nat) : Edit := if s = .null ∧ n ≠ 0 then .remove else .add (.scalar s)

def nestedPath (name : String) (n : Nat) : Path := name :: List.replicate n "0"

private theorem Edit.atMember_nested (s : Scalar) (n : Nat) :
    (s.nestedEdit n).atMember (List.replicate n "0") (some (Schema.nestedDefault s n)) =
      if s ≠ .null ∧ 1 < n then .error .badPointer else .ok (some (s.nested n)) := by
  match n with
  | 0 => simp [Scalar.nestedEdit, atMember, written?, Scalar.nested]
  | 1 => cases s <;> rfl
  | n + 2 =>
    -- there is no element to go into: a removal has nothing to remove, and an addition has no place
    have hempty : (s.nestedEdit (n + 2)).apply (List.replicate (n + 2) "0") (.arr []) = .error .badPointer := by
      rw [List.replicate_succ, List.replicate_succ, apply_cons_cons_arr]
      rfl
    rw [List.replicate_succ, Schema.nestedDefault, atMember_cons, ← List.replicate_succ, applyIfThere, hempty]
    by_cases hs : s = .null <;> simp [Scalar.nestedEdit, hs, Fault.isMisfit, Scalar.nested, Except.map]

namespace Lens

/-- Operations that write scalars, each as what it is in so many arrays. -/
def Nests (count : String → Nat) (fields : List (String × Scalar)) (ps : Patch) : Prop :=
  List.Forall₂ (fun f q => q.Edits (f.2.nestedEdit (count f.1)) (nestedPath f.1 (count f.1))) fields ps

def wraps (names : List String) : Lens := names.map fun name => .wrap (.str name)

private theorem exists_carry_wrap_nested (hp : p.Edits (s.nestedEdit n) (nestedPath name n)) :
    ∃ q, (LensOp.carry p (nestedPath name n) (.wrap (.str name))).outcome = .ok (some q) ∧
      q.Edits (s.nestedEdit (n + 1)) (nestedPath name (n + 1)) := by
  have htarget : name :: "0" :: List.replicate n "0" = nestedPath name (n + 1) := rfl
  rw [nestedPath, LensOp.outcome_carry_wrap hp.edit, if_pos rfl, htarget]
  refine ⟨_, rfl, ?_⟩
  cases n with
  | zero =>
    have hvalue : p.value = .scalar s := PatchOp.value_of_edit hp.edit (by simp [Scalar.nestedEdit, Edit.written?])
    by_cases hs : s = .null
    · subst hs
      rw [if_pos (by simp [hvalue, Scalar.nestedEdit, Edit.written?, Json.isNull])]
      exact PatchOp.edits_remove _
    · have hnull : (Json.scalar s).isNull = false := by cases s <;> first | rfl | exact absurd rfl hs
      have hedit : s.nestedEdit (0 + 1) = s.nestedEdit 0 := by simp [Scalar.nestedEdit, hs]
      rw [if_neg (by simp [hvalue, hnull]), hedit]
      exact hp.withPath _
  | succ n =>
    have hedit : s.nestedEdit (n + 1 + 1) = s.nestedEdit (n + 1) := by simp [Scalar.nestedEdit]
    rw [if_neg (by simp), hedit]
    exact hp.withPath _

private theorem exists_carry_wraps (names : List String) (hp : p.Edits (s.nestedEdit n) (nestedPath name n)) :
    ∃ q, (Lens.carry p (wraps names)).outcome = .ok (some q) ∧
      q.Edits (s.nestedEdit (n + names.count name)) (nestedPath name (n + names.count name)) := by
  induction names generalizing p n with
  | nil => exact ⟨p, rfl, hp⟩
  | cons first rest ih =>
    rw [wraps, List.map_cons, ← wraps, outcome_carry_cons hp.path]
    by_cases hfirst : first = name
    · subst hfirst
      obtain ⟨q, hq, hedits⟩ := exists_carry_wrap_nested hp
      rw [hq, Except.bind_ok, List.count_cons_self, Nat.add_comm _ 1, ← Nat.add_assoc]
      exact ih hedits
    · rw [nestedPath, LensOp.outcome_carry_wrap hp.edit, if_neg hfirst, Except.bind_ok, List.count_cons_of_ne hfirst]
      exact ih hp

private theorem outcome_follow_wrap_nested (hfields : (fields.map Prod.fst).Nodup) (hfield : field ∈ fields) :
    (LensOp.follow (Schema.ofNested count fields required) (.wrap (.str field.1))).outcome =
      .ok (Schema.ofNested (fun name => count name + if name = field.1 then 1 else 0) fields required) := by
  have hget := Members.get?_ofFields (fun f => Schema.nestedOf f.2 (count f.1)) hfields hfield
  have hput := Members.put_ofFields (fun f => Schema.nestedOf f.2 (count f.1))
    (fun f => Schema.nestedOf f.2 (count f.1 + 1)) hfields hfield
  have hprops : Members.ofFields (fun f => if f.1 = field.1 then Schema.nestedOf f.2 (count f.1 + 1)
      else Schema.nestedOf f.2 (count f.1)) fields =
      Members.ofFields (fun f => Schema.nestedOf f.2 (count f.1 + if f.1 = field.1 then 1 else 0)) fields :=
    Members.ofFields_congr fun f _ => by split <;> rfl
  rw [Schema.ofNested, LensOp.outcome_follow_eq (fun _ h => by cases h), LensOp.revise]
  simp only [Schema.roster, Schema.properties_ofObject, Schema.redescribe, Json.asKey, hget,
    Schema.withoutNull_nestedOf, Except.bind_ok, pure_bind]
  rw [Schema.ofNested, ← hprops, ← hput]
  rfl

private theorem outcome_follow_wraps (hfields : (fields.map Prod.fst).Nodup) (hnames : names ⊆ fields.map Prod.fst) :
    (Lens.follow (Schema.ofNested count fields required) (wraps names)).outcome =
      .ok (Schema.ofNested (fun name => count name + names.count name) fields required) := by
  induction names generalizing count with
  | nil => rfl
  | cons name rest ih =>
    obtain ⟨hname, hrest⟩ := List.cons_subset.1 hnames
    obtain ⟨field, hfield, rfl⟩ := List.mem_map.1 hname
    rw [wraps, List.map_cons, ← wraps, Lens.follow, Noted.outcome_bind, outcome_follow_wrap_nested hfields hfield,
      Except.bind_ok, ih hrest]
    congr 2
    funext other
    by_cases hother : other = field.1
    · rw [if_pos hother, hother, List.count_cons_self]
      omega
    · rw [if_neg hother, List.count_cons_of_ne (Ne.symm hother), Nat.add_zero]

/-- Through the lens that wraps, the steps that make an object of scalars go each to its place in the arrays. -/
private theorem exists_carryAll_wraps (names : List String) (fields : List (String × Scalar)) :
    ∃ qs, (carryAll (wraps names) (Write.add.memberSteps [] (Members.ofScalars fields))).outcome = .ok qs ∧
      Nests names.count fields qs := by
  induction fields with
  | nil => exact ⟨[], rfl, .nil⟩
  | cons f rest ih =>
    obtain ⟨qs, hqs, hedits⟩ := ih
    have hadd : (PatchOp.add [f.1] (.scalar f.2)).Edits (f.2.nestedEdit 0) (nestedPath f.1 0) := by
      rw [Scalar.nestedEdit, if_neg (by simp)]
      exact PatchOp.edits_add _ _
    obtain ⟨q, hq, hedit⟩ := exists_carry_wraps names hadd
    rw [Nat.zero_add] at hedit
    refine ⟨q :: qs, ?_, .cons hedit hedits⟩
    rw [Members.ofScalars, Members.ofFields, List.map_cons, ← Members.ofFields, ← Members.ofScalars,
      Write.memberSteps, Write.steps, List.singleton_append,
      outcome_carryAll_cons]
    rw [List.nil_append, Scalar.plain_str, Write.toOp, hq, hqs]
    rfl

/-- Nothing is filled in after writes of scalars, however nested: none of them makes an object. -/
private theorem Nests.filled_eq (h : Nests count fields qs) (schema : Json) :
    (Schema.filled schema qs).outcome = .ok qs := by
  induction h with
  | nil => rfl
  | @cons f q fields qs hq _ ih =>
    have hne : (f.2.nestedEdit (count f.1)).written? ≠ some .emptyObject := by
      rw [Scalar.nestedEdit]
      split <;> nofun
    rw [Schema.outcome_filled_cons, Schema.outcome_filledOp_of_ne schema hq hne, ih]
    rfl

/-- The scalars are written one after another; the first one that cannot be written stops it. -/
private theorem Nests.outcome_applyIfThere {value : String × Scalar → Json} {rest : List (String × Scalar)}
    (hfields : (fields.map Prod.fst).Nodup) (hsub : rest ⊆ fields) (hrest : (rest.map Prod.fst).Nodup)
    (hvalue : ∀ f ∈ rest, value f = Schema.nestedDefault f.2 (count f.1))
    (h : Nests count rest qs) :
    (Patch.applyIfThere (.obj (Members.ofFields value fields)) qs).outcome =
      if ∃ f ∈ rest, f.2 ≠ .null ∧ 1 < count f.1 then .error .badPointer
      else .ok (.obj (Members.ofFields (fun f => if f ∈ rest then f.2.nested (count f.1) else value f) fields)) := by
  -- `value` is what the members are so far; behind the first write it has changed at that member
  induction h generalizing value with
  | nil => simp [Patch.applyIfThere]
  | @cons f q rest qs hq _ ih =>
    obtain ⟨hfield, hsub⟩ := List.cons_subset.1 hsub
    obtain ⟨hfirst, hrest⟩ := List.nodup_cons.1 hrest
    rw [List.forall_mem_cons] at hvalue
    have hget := Members.get?_ofFields value hfields hfield
    have hput := Members.put_ofFields value (fun f => f.2.nested (count f.1)) hfields hfield
    rw [Patch.applyIfThere, Noted.outcome_bind, hq.outcome_applyIfThere, nestedPath, Edit.applyIfThere_cons_obj, hget,
      hvalue.1, Edit.atMember_nested]
    by_cases hbad : f.2 ≠ .null ∧ 1 < count f.1
    · rw [if_pos hbad, if_pos ⟨f, List.mem_cons_self, hbad⟩]
      rfl
    · rw [if_neg hbad]
      simp only [Except.bind_ok, pure_bind, Members.change, hput]
      have hothers : ∀ g ∈ rest, g.1 ≠ f.1 := fun g hg heq => hfirst (heq ▸ List.mem_map_of_mem hg)
      refine (ih hsub hrest fun g hg => (if_neg (hothers g hg)).trans (hvalue.2 g hg)).trans ?_
      have hmerge : Members.ofFields (fun x => if x ∈ rest then x.2.nested (count x.1)
            else if x.1 = f.1 then x.2.nested (count x.1) else value x) fields =
          Members.ofFields (fun x => if x ∈ f :: rest then x.2.nested (count x.1) else value x) fields := by
        refine Members.ofFields_congr fun x hx => ?_
        have hsame : x.1 = f.1 ↔ x = f := ⟨List.inj_on_of_nodup_map hfields hx hfield, fun h => by rw [h]⟩
        by_cases hlater : x ∈ rest <;> simp [hlater, hsame]
      simp only [hmerge, List.exists_mem_cons_iff, hbad, false_or]

/-- Wrapping members of an object of scalars, some of them again and again, puts each of them in as many arrays as it
is wrapped times. Where one that is not null is wrapped again, there is no element to go into, and the conversion
stops. -/
theorem convertDocument_wraps (hfields : (fields.map Prod.fst).Nodup) (hnames : names ⊆ fields.map Prod.fst)
    (fills : Bool) :
    (convertDocument (wraps names) fills (.obj (Members.ofScalars fields)) none .null).outcome =
      if ∃ f ∈ fields, f.2 ≠ .null ∧ 1 < names.count f.1 then .error .badPointer
      else .ok (.obj (Members.ofFields (fun f => f.2.nested (names.count f.1)) fields)) := by
  -- the schema of an object without members says nothing about members, and is not of this form
  by_cases hempty : fields = []
  · subst hempty
    obtain rfl := List.subset_nil.1 hnames
    rw [if_neg (by simp)]
    cases fills <;> decide +kernel
  have hfollow : (Lens.follow (Schema.infer (.obj (Members.ofScalars fields))) (wraps names)).outcome =
      .ok (Schema.ofNested names.count fields (Schema.requiredNames (Members.ofScalars fields))) := by
    rw [Schema.infer_ofScalars hfields hempty, outcome_follow_wraps hfields hnames]
    simp only [Nat.zero_add]
  obtain ⟨qs, hcarried, hnests⟩ := exists_carryAll_wraps names fields
  have hpatch : (convertPatch (wraps names) fills (Schema.infer (.obj (Members.ofScalars fields)))
      (.arr ((Patch.creating (.obj (Members.ofScalars fields))).map PatchOp.toJson))).outcome = .ok qs := by
    cases fills with
    | false => rw [outcome_convertPatch_plain _ (Patch.expand_creating _), hcarried]
    | true =>
      simp [convertPatch, Json.asList, Patch.expand_creating, hcarried, hfollow, hnests.filled_eq]
  obtain ⟨text, htext⟩ : ∃ text, Patch.describe qs = .ok text :=
    Patch.exists_describe_of_edits fun q hq => by
      obtain ⟨f, -, hf⟩ := forall₂_exists_left hnests hq
      exact ⟨_, _, hf⟩
  have htarget : (Json.null.orElse .emptyObject).asMembers = .ok [] := rfl
  have hminimal := Schema.outcome_minimal_nested hfields names.count (Schema.requiredNames (Members.ofScalars fields))
  have hwritten := hnests.outcome_applyIfThere hfields (List.Subset.refl fields) hfields fun f _ => rfl
  rw [Members.ofFields_congr fun f hf => if_pos hf] at hwritten
  simp only [convertDocument, Option.getD_none, Noted.outcome_bind, Noted.outcome_liftM, Noted.outcome_note, hpatch,
    hfollow, htext, hminimal, htarget, Json.asObject, Except.bind_ok, Members.putAll, List.foldl_nil, hwritten]

/-- A text that is wrapped, a null that is wrapped twice, and a number that is left alone. -/
theorem convertDocument_wraps_items :
    (convertDocument (wraps ["y", "x", "y"]) true (.obj [("x", .str "s"), ("y", .null), ("z", .int 1)]) none
      .null).outcome = .ok (.obj [("x", .arr [.str "s"]), ("y", .arr []), ("z", .int 1)]) := by
  have h := @convertDocument_wraps [("x", .str "s"), ("y", .null), ("z", .int 1)] ["y", "x", "y"] (by decide)
    (by decide) true
  rwa [if_neg (by decide)] at h

/-- A text that is wrapped twice does not become an array of an array. -/
theorem convertDocument_wrap_wrap :
    (Scalar.str "s").nested 2 = .arr [.arr [.str "s"]] ∧
      (convertDocument [.wrap (.str "x"), .wrap (.str "x")] true (.obj [("x", .str "s")]) none .null).outcome =
        .error .badPointer :=
  ⟨rfl, by decide +kernel⟩

end Lens

end EditLens
