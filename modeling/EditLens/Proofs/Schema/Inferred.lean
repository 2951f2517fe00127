import EditLens.Proofs.Schema.Sampled
import EditLens.Schema.Follow
import Mathlib.Data.List.Sort
import Mathlib.Data.String.Basic

/-! The schema that is inferred from one object, member by member. Main statement: once a member is removed from
the schema, it is the schema inferred from the object without the member. -/
namespace EditLens

namespace Shape

/-- The names in order are the names sorted by insertion. -/
theorem inOrder_eq (names : List String) : inOrder names = names.insertionSort (· ≤ ·) := by
  have hinsert : ∀ (name : String) (sorted : List String),
      insertInOrder name sorted = sorted.orderedInsert (· ≤ ·) name := by
    intro name sorted
    induction sorted with
    | nil => rfl
    | cons first rest ih => rw [insertInOrder, List.orderedInsert, ih]
  induction names with
  | nil => rfl
  | cons name rest ih =>
    rw [List.insertionSort_cons, ← ih, ← hinsert]
    rfl

/-- Names that are left out before sorting can as well be left out after it. -/
private theorem inOrder_filter (keep : String → Bool) (names : List String) :
    inOrder (names.filter keep) = (inOrder names).filter keep := by
  rw [inOrder_eq, inOrder_eq]
  refine List.Perm.eq_of_pairwise' (List.pairwise_insertionSort _ _)
    ((List.pairwise_insertionSort _ _).filter _) ?_
  exact (List.perm_insertionSort _ _).trans ((List.perm_insertionSort _ names).filter keep).symm

def ofMembers (ms : Members) : Members := ms.map fun m => (m.1, .obj (unseen.observe m.2).toMembers)

/-- Members with other names are seen one by one. -/
theorem memberSchemas_observeMembers {members : List (Scalar × Shape)} {ms : Members} (hms : ms.Distinct)
    (hnew : ∀ m ∈ ms, member? members m.1 = none) :
    memberSchemas (observeMembers members ms) = memberSchemas members ++ ofMembers ms := by
  induction ms generalizing members with
  | nil => simp [observeMembers, ofMembers]
  | cons m rest ih =>
    obtain ⟨k, v⟩ := m
    obtain ⟨hfirst, hrest⟩ := List.pairwise_cons.1 hms
    rw [List.forall_mem_cons] at hnew
    have hget : (memberSchemas members).get? k = none := by rw [get?_memberSchemas, hnew.1, Option.map_none]
    rw [observeMembers, hnew.1, ih hrest, memberSchemas_putMember, Members.put_of_get?_eq_none hget,
      List.append_assoc]
    · rfl
    · intro m hm
      rw [member?_putMember, if_neg (by simp [hfirst m hm]), hnew.2 m hm]

def propertiesEntry (props : Members) : Members :=
  if props = [] then [] else [("properties", .obj props)]

private theorem ofObjects_eq (members : List (Scalar × Shape)) (always : Option (List Scalar)) :
    ofObjects members always = (.str "type", .str "object") ::
      (propertiesEntry (memberSchemas members) ++ requiredEntry (always.getD [])) := by
  cases members with
  | nil => rw [memberSchemas]; rfl
  | cons first rest =>
    obtain ⟨k, shape⟩ := first
    rw [propertiesEntry, memberSchemas_cons, if_neg (List.cons_ne_nil _ _), ← memberSchemas_cons]
    rfl

/-- The entry for the names of members, if there are any. -/
private theorem requiredEntry_eq (names : List Scalar) : requiredEntry names =
    if names = [] then []
    else [(.str "required", .arr ((inOrder (names.map Scalar.plain)).map .str))] := by
  cases names with
  | nil => rfl
  | cons name rest =>
    unfold requiredEntry
    rw [if_neg (List.cons_ne_nil _ _)]
    cases hsorted : inOrder ((name :: rest).map Scalar.plain) with
    | nil =>
      rw [inOrder_eq] at hsorted
      have := (List.perm_insertionSort (· ≤ ·) ((name :: rest).map Scalar.plain)).length_eq
      rw [hsorted] at this
      cases this
    | cons first others => rfl

private theorem ofMembers_without (ms : Members) (key : Scalar) :
    (ofMembers ms).without key = ofMembers (ms.without key) := by
  rw [ofMembers, ofMembers, Members.without, Members.without, List.filter_map]
  rfl

end Shape

namespace Schema

open Shape (propertiesEntry requiredEntry)

variable {ms : Members} {name : String}

/-- The schema of one object: the schemas of its members, all of which are required. -/
theorem infer_obj (hms : ms.AreDocument) : infer (.obj ms) =
    .obj ((.str "$schema", .str "http://json-schema.org/schema#") :: (.str "type", .str "object") ::
      (propertiesEntry (Shape.ofMembers ms) ++ requiredEntry (ms.map Prod.fst))) := by
  have hseen : Shape.memberSchemas (Shape.observeMembers [] ms) = Shape.ofMembers ms := by
    rw [Shape.memberSchemas_observeMembers hms.distinct fun _ _ => rfl, Shape.memberSchemas]
    rfl
  have hshape : Shape.unseen.observe (.obj ms) =
      .mk [.object] none (Shape.observeMembers [] ms) (some (ms.map Prod.fst)) := rfl
  rw [infer, hshape, Shape.toMembers_object, Shape.ofObjects_eq, hseen, Option.getD_some]

def ofObject (props : Members) (names : List Json) : Members :=
  [("$schema", .str "http://json-schema.org/schema#"), ("type", .str "object"), ("properties", .obj props),
    ("required", .arr names)]

theorem properties_ofObject (props : Members) (names : List Json) :
    properties (ofObject props names) = .ok props := by
  show (Json.orElse (.obj props) .emptyObject).asMembers = _
  cases props <;> rfl

private theorem required_ofObject (props : Members) (names : List Json) :
    required (ofObject props names) = .ok names := by
  show (Json.orElse (.arr names) (.arr [])).asList = _
  cases names <;> rfl

def requiredNames (ms : Members) : List Json := (Shape.inOrder (ms.map fun m => m.1.plain)).map .str

theorem infer_obj_of_ne_nil (hms : ms.AreDocument) (hne : ms ≠ []) :
    infer (.obj ms) = .obj (ofObject (Shape.ofMembers ms) (requiredNames ms)) := by
  rw [infer_obj hms, propertiesEntry, if_neg (by simpa [Shape.ofMembers] using hne), Shape.requiredEntry_eq,
    if_neg (by simpa using hne), List.map_map]
  rfl

/-- The names in order, of which one is left out. -/
theorem unlisted_requiredNames (hms : ms.AreDocument) :
    unlisted (requiredNames ms) (.str name) = requiredNames (ms.without name) := by
  have hplain : ((ms.map fun m => m.1.plain).filter fun n => !decide (n = name)) =
      (ms.without name).map fun m => m.1.plain := by
    rw [List.filter_map, Members.without]
    congr 1
    refine List.filter_congr fun m hm => ?_
    obtain ⟨other, hother⟩ := hms.text m hm
    simp [hother, Scalar.plain]
  rw [requiredNames, requiredNames, ← hplain, Shape.inOrder_filter, unlisted, List.filter_map]
  congr 1
  refine List.filter_congr fun n _ => ?_
  simp [Json.same]

private theorem outcome_remove {schema props : Members} {names : List Json} (hprops : properties schema = .ok props)
    (hnames : required schema = .ok names) : (remove schema (.str name)).outcome =
      .ok (withRequired (withProperties schema (props.without name)) (unlisted names (.str name))) := by
  have hkey : (Json.str name).asKey = .ok (.str name) := rfl
  cases hhas : props.has name <;> simp [remove, hprops, hnames, hkey, hhas, pure]

/-- The schema that is inferred from an object gives up one member, described or not: what is left is
the schema of the object without the member, with an entry for members even if there are none. -/
theorem outcome_remove_infer (hms : ms.AreDocument) {members : Members} (h : infer (.obj ms) = .obj members) :
    (remove members (.str name)).outcome =
      .ok (ofObject (Shape.ofMembers (ms.without name)) (requiredNames (ms.without name))) := by
  by_cases hne : ms = []
  · subst hne
    obtain rfl := Json.obj.inj h
    rfl
  · rw [infer_obj_of_ne_nil hms hne] at h
    obtain rfl := Json.obj.inj h
    rw [outcome_remove (properties_ofObject _ _) (required_ofObject _ _), Shape.ofMembers_without,
      unlisted_requiredNames hms]
    rfl

end Schema

end EditLens
