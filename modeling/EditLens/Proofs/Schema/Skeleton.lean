import EditLens.Proofs.Patch.Expanding
import EditLens.Proofs.Schema.Formed
import EditLens.Proofs.Schema.Inferred
import EditLens.Proofs.Schema.Rooted

/-! The smallest document of a schema that is inferred from one object. Main statement: it is the skeleton of the
object, and the patch that makes it is the patch that makes the skeleton. -/
namespace EditLens

namespace Json

mutual

/-- The members of an object at all levels, with the smallest value of its type for each that is no object. -/
def skeleton : Json → Json
  | .scalar .null => .null
  | .scalar (.bool _) => .bool false
  | .scalar (.int _) => .int 0
  | .scalar (.float _) => .int 0
  | .scalar (.str _) => .str ""
  | .arr _ => .arr []
  | .obj ms => .obj (skeletonMembers ms)

def skeletonMembers : List (Scalar × Json) → Members
  | [] => []
  | (k, v) :: rest => (k, v.skeleton) :: skeletonMembers rest

end

private theorem get?_skeletonMembers (ms : Members) (key : Scalar) :
    (skeletonMembers ms).get? key = (ms.get? key).map skeleton := by
  induction ms with
  | nil => rfl
  | cons m rest ih =>
    obtain ⟨k, v⟩ := m
    rw [skeletonMembers, Members.get?_cons, Members.get?_cons, ih]
    split <;> rfl

mutual

/-- The skeleton of a document is a document. -/
theorem isDocument_skeleton (v : Json) (hv : v.isDocument = true) : v.skeleton.isDocument = true := by
  match v with
  | .scalar s => cases s <;> rfl
  | .arr es => rfl
  | .obj ms => exact isDocument_obj.2 (areDocument_skeletonMembers ms (isDocument_obj.1 hv))

theorem areDocument_skeletonMembers (ms : List (Scalar × Json)) (hms : Members.AreDocument ms) :
    Members.AreDocument (skeletonMembers ms) := by
  match ms with
  | [] => exact .nil
  | (k, v) :: rest =>
    obtain ⟨name, rfl, hname, hv, hrest⟩ := Members.areOf_cons.1 hms
    refine (areDocument_skeletonMembers rest hrest).cons ?_ (isDocument_skeleton v hv)
    rw [get?_skeletonMembers, hname, Option.map_none]

end

end Json

namespace Shape

def ofValue (v : Json) : Json := .obj (unseen.observe v).toMembers

private theorem ofMembers_eq (ms : Members) : ofMembers ms = ms.map fun m => (m.1, ofValue m.2) := rfl

private theorem get?_ofMembers (ms : Members) (key : Scalar) : (ofMembers ms).get? key = (ms.get? key).map ofValue := by
  induction ms with
  | nil => rfl
  | cons m rest ih =>
    obtain ⟨k, v⟩ := m
    rw [ofMembers_eq, List.map_cons, Members.get?_cons, Members.get?_cons, ← ofMembers_eq, ih]
    split <;> rfl

/-- The schema of one value names its type, and has neither a default nor alternatives. -/
private theorem exists_ofValue (v : Json) : ∃ ms : Members, ofValue v = .obj ms ∧
    ms.get? "type" = some (.str (SampleType.ofJson v).name) ∧ ms.get? "default" = none ∧
      ms.get? "anyOf" = none ∧ ms.get? "oneOf" = none := by
  cases v with
  | scalar s =>
    have htypes : ofValue (.scalar s) = .obj (ofTypes (.str (SampleType.ofScalar s).name)) := by
      cases s <;> rfl
    refine ⟨_, htypes, ?_, ?_, ?_, ?_⟩ <;> simp [get?_ofTypes, SampleType.ofJson]
  | arr es =>
    refine ⟨_, congrArg Json.obj (toMembers_array _ _ _), ?_, ?_, ?_, ?_⟩ <;>
      simp [get?_ofArrays, SampleType.ofJson, SampleType.name]
  | obj ms =>
    refine ⟨_, congrArg Json.obj (toMembers_object _ _ _), ?_, ?_, ?_, ?_⟩ <;>
      simp [get?_ofObjects, SampleType.ofJson, SampleType.name]

end Shape

namespace Schema

open Shape (ofMembers ofValue)

/-- What is given by default for a member is its skeleton, though without any members. -/
private theorem memberDefault_ofValue (v : Json) : memberDefault (ofValue v) = .ok (some v.skeleton.hollow) := by
  obtain ⟨ms, hschema, htype, hdefault, hany, hone⟩ := Shape.exists_ofValue v
  rw [hschema, memberDefault, if_pos (by rfl), defaultOf_type htype hdefault hany hone]
  cases v with
  | scalar s => cases s <;> rfl
  | arr es => rfl
  | obj ms => rfl

structure Portrays (schema ms : Members) : Prop where
  members : memberSchemas (.obj schema) = .ok (ofMembers ms)
  items : schema.get? "items" = none
  anyOf : schema.get? "anyOf" = none
  oneOf : schema.get? "oneOf" = none

private theorem portrays_observe {ms : Members} (hms : ms.AreDocument) :
    Portrays (Shape.unseen.observe (.obj ms)).toMembers ms := by
  rw [show (Shape.unseen.observe (.obj ms)).toMembers = Shape.ofObjects (Shape.observeMembers [] ms) (some ms.keys) from
    Shape.toMembers_object _ _ _]
  refine ⟨?_, by simp [Shape.get?_ofObjects], by simp [Shape.get?_ofObjects], by simp [Shape.get?_ofObjects]⟩
  rw [Shape.memberSchemas_ofObjects, Shape.memberSchemas_observeMembers hms.distinct fun _ _ => rfl,
    Shape.memberSchemas, List.nil_append]

namespace Portrays

variable {schema ms : Members}

/-- What a schema refers to does not matter. -/
private theorem referring (h : Portrays schema ms) :
    Portrays ((.str "$schema", .str "http://json-schema.org/schema#") :: schema) ms where
  members := by
    have hmembers := h.members
    rwa [memberSchemas, WellShaped.lookup_obj, Members.valueOf, ← get?_referring schema _ (by simp)] at hmembers
  items := (get?_referring schema _ (by simp)).trans h.items
  anyOf := (get?_referring schema _ (by simp)).trans h.anyOf
  oneOf := (get?_referring schema _ (by simp)).trans h.oneOf

/-- From an object, a name leads to the schema of the member, also if it counts elements. -/
private theorem below_eq (h : Portrays schema ms) (hms : ms.AreDocument) :
    ∀ m ∈ ms, below (.obj schema) m.1.plain = .ok (ofValue m.2) := by
  intro m hm
  obtain ⟨name, hname⟩ := hms.text m hm
  have hpart : (ofMembers ms).valueOf name = ofValue m.2 := by
    rw [Members.valueOf, Shape.get?_ofMembers, ← hname, Members.get?_of_mem hms.distinct hm]
    rfl
  have hobject : (ofValue m.2).isObject = true := rfl
  have hnull : Json.null.isObject = false := rfl
  -- A name that counts elements looks for their schema first, but an object has none.
  have hstep : step (.obj schema) name = .ok (ofValue m.2) := by
    rw [step, WellShaped.lookup_obj, WellShaped.valueOf_of_get?_eq_none h.items, Except.bind_ok, h.members]
    simp [hnull, hpart, hobject, pure, Except.pure]
  obtain ⟨part, hschema, -, -, hany, hone⟩ := Shape.exists_ofValue m.2
  rw [hname, below, show (Scalar.str name).plain = name from rfl, hstep, Except.bind_ok, hschema,
    container_of_get? hany hone]

private theorem outcome_fill (h : Portrays schema ms) (path : Path) :
    (fill path (.obj schema)).outcome = (Noted.gather (fillMember path (.obj schema)) (ofMembers ms)).outcome := by
  rw [fill_eq, h.members]
  rfl

end Portrays

mutual

/-- The additions for a member are the steps that write its skeleton. -/
theorem outcome_fillMember_ofValue (v : Json) (hv : v.isDocument = true) {schema : Json} {name : String}
    (hbelow : below schema name = .ok (ofValue v)) (path : Path) :
    (fillMember path schema (.str name, ofValue v)).outcome = .ok (Write.add.steps (path ++ [name]) v.skeleton) := by
  have hdefault := memberDefault_ofValue v
  match v with
  | .scalar s =>
    rw [outcome_fillMember_of_ne hdefault (by cases s <;> nofun)]
    cases s <;> rfl
  | .arr es => exact outcome_fillMember_of_ne hdefault nofun
  | .obj ms =>
    -- The object is added without members, which are then filled in from the part of the schema.
    have hms := Json.isDocument_obj.1 hv
    have hportrays := portrays_observe hms
    exact outcome_fillMember_emptyObject hdefault hbelow ((hportrays.outcome_fill (path ++ [name])).trans
      (outcome_fillMembers ms hms (hportrays.below_eq hms) (path ++ [name])))

/-- The additions for members one after another are the steps that write their skeletons. -/
theorem outcome_fillMembers (ms : List (Scalar × Json)) (hms : Members.AreDocument ms) {schema : Json}
    (hbelow : ∀ m ∈ ms, below schema m.1.plain = .ok (ofValue m.2)) (path : Path) :
    (Noted.gather (fillMember path schema) (ofMembers ms)).outcome =
      .ok (Write.add.memberSteps path (Json.skeletonMembers ms)) := by
  match ms with
  | [] => rfl
  | (k, v) :: rest =>
    obtain ⟨name, rfl, -, hv, hrest⟩ := Members.areOf_cons.1 hms
    rw [List.forall_mem_cons] at hbelow
    have hfirst : below schema name = .ok (ofValue v) := hbelow.1
    show (Noted.gather (fillMember path schema) ((.str name, ofValue v) :: ofMembers rest)).outcome = _
    rw [Noted.gather, Noted.outcome_bind, outcome_fillMember_ofValue v hv hfirst path, Except.bind_ok,
      Noted.outcome_bind, outcome_fillMembers rest hrest hbelow.2 path]
    rfl

end

/-- What an inferred schema fills an empty document with are the steps that write the skeleton of the object. -/
theorem outcome_filled_infer {ms : Members} (hms : ms.AreDocument) :
    (filled (infer (.obj ms)) [.add [] .emptyObject]).outcome = .ok (Write.add.steps [] (Json.obj ms).skeleton) := by
  have hportrays := (portrays_observe hms).referring
  have hwhole : locate (infer (.obj ms)) [] = .ok (infer (.obj ms)) :=
    container_of_get? hportrays.anyOf hportrays.oneOf
  have hfill : (fill [] (infer (.obj ms))).outcome = .ok (Write.add.memberSteps [] (Json.skeletonMembers ms)) :=
    (hportrays.outcome_fill []).trans (outcome_fillMembers ms hms (hportrays.below_eq hms) [])
  rw [outcome_filled_singleton, outcome_filledOp_of_makesObject _ (makesObject_add [] .emptyObject)
    (PatchOp.edits_add [] .emptyObject).path, hwhole, Except.bind_ok, hfill]
  rfl

/-- The smallest document of the schema that is inferred from an object is the skeleton of the object: it has the
members of the object in their order, at all levels, and the smallest value of its type for each that is no object. -/
theorem minimal_infer {doc : Json} (hdoc : doc.isDocument = true) (hobject : doc.isObject = true) :
    (minimal (infer doc)).outcome = .ok doc.skeleton := by
  obtain ⟨ms, rfl⟩ := Json.exists_obj_of_isObject hobject
  simp only [minimal, Noted.outcome_bind, Noted.outcome_liftM, outcome_filled_infer (Json.isDocument_obj.1 hdoc),
    Except.bind_ok]
  rw [Write.steps_eq]
  exact Patch.apply_steps_of_add (PatchOp.edits_add [] _) (Json.isDocument_skeleton _ hdoc) rfl (by simp)

/-- Names that count elements or have to be escaped, beside an array of objects and below them. -/
theorem minimal_infer_items :
    let doc : Json := .obj [("", .str "s"), ("0", .obj [("a/b~1", .arr [.obj [("c", .int 1)]]), ("1", .bool true)]),
      ("x", .obj []), ("n", .null), ("y", .float ⟨0⟩)]
    (minimal (infer doc)).outcome = .ok (.obj [("", .str ""), ("0", .obj [("a/b~1", .arr []), ("1", .bool false)]),
      ("x", .obj []), ("n", .null), ("y", .int 0)]) := by
  intro doc
  have hdoc : doc.isDocument = true := by decide
  exact minimal_infer hdoc rfl

end Schema

end EditLens
