import EditLens.Proofs.Json.Document
import EditLens.Schema.Basic

/-! Which values a schema made of types, enumerations and unions accepts. Main statements: an object accepts what all
of its keywords accept, and a union counts the alternatives that do. -/
namespace EditLens

def Scalar.isBool : Scalar → Bool
  | .bool _ => true
  | _ => false

namespace Json

/-- Whether a value is of a type, given by its name. Whole numbers are numbers, and a number without a fractional part
is whole. -/
def isOfType (v : Json) (name : String) : Bool :=
  v.typeName == name || match v with
    | .int _ => name == "number"
    | .float x => name == "integer" && x.integer?.isSome
    | _ => false

mutual

/-- Equality of values in enumerations: truth values are no numbers. -/
def equals : Json → Json → Bool
  | .scalar a, .scalar b => a.same b && a.isBool == b.isBool
  | .arr as, .arr bs => equalElements as bs
  | .obj ms, .obj ns => ms.length == ns.length && equalMembers ms ns
  | _, _ => false

def equalElements : List Json → List Json → Bool
  | [], [] => true
  | a :: as, b :: bs => equals a b && equalElements as bs
  | _, _ => false

def equalMembers : List (Scalar × Json) → Members → Bool
  | [], _ => true
  | (k, v) :: rest, ns =>
    (match Members.get? ns k with
      | some w => equals v w
      | none => false) && equalMembers rest ns

end

mutual

theorem equals_refl : ∀ {v : Json}, v.isDocument = true → v.equals v = true
  | .scalar a, _ => by rw [equals, Scalar.same_refl, beq_self_eq_true, Bool.and_self]
  | .arr es, h => by
    rw [equals]
    exact equalElements_refl (isDocument_arr.1 h)
  | .obj ms, h => by
    have hms := isDocument_obj.1 h
    rw [equals, beq_self_eq_true, Bool.true_and]
    exact equalMembers_of_get? fun m hm => ⟨Members.get?_of_mem hms.distinct hm, hms.parts m hm⟩

theorem equalElements_refl : ∀ {es : List Json}, (∀ e ∈ es, e.isDocument = true) → equalElements es es = true
  | [], _ => rfl
  | e :: rest, h => by
    rw [equalElements, equals_refl (h e List.mem_cons_self),
      equalElements_refl fun e he => h e (List.mem_cons_of_mem _ he), Bool.and_self]

theorem equalMembers_of_get? {ns : Members} : ∀ {ms : List (Scalar × Json)},
    (∀ m ∈ ms, ns.get? m.1 = some m.2 ∧ m.2.isDocument = true) → equalMembers ms ns = true
  | [], _ => rfl
  | (k, v) :: rest, h => by
    obtain ⟨hget, hv⟩ := h (k, v) List.mem_cons_self
    dsimp only at hget hv
    rw [equalMembers, hget, equalMembers_of_get? fun m hm => h m (List.mem_cons_of_mem _ hm), Bool.and_true]
    exact equals_refl hv

end

end Json

namespace Schema

open Json (isOfType equals)

def typeAccepts (v : Json) : Json → Bool
  | .str name => v.isOfType name
  | .arr names => names.any fun name => match name with
    | .str name => v.isOfType name
    | _ => false
  | _ => false

mutual

/-- Whether a schema accepts a value. Keywords other than those for types, enumerations and unions accept all. -/
def accepts (v : Json) : Json → Bool
  | .obj keywords => acceptsAll v keywords
  | .scalar s => s = .bool true
  | .arr _ => false

def acceptsAll (v : Json) : List (Scalar × Json) → Bool
  | [] => true
  | (keyword, content) :: rest => keywordAccepts v keyword content && acceptsAll v rest

def keywordAccepts (v : Json) (keyword : Scalar) : Json → Bool
  | .arr es =>
    if keyword = .str "type" then typeAccepts v (.arr es)
    else if keyword = .str "enum" then es.any fun e => v.equals e
    else if keyword = .str "anyOf" then accepting v es != 0
    else if keyword = .str "oneOf" then accepting v es == 1
    else true
  | content => if keyword = .str "type" then typeAccepts v content else true

def accepting (v : Json) : List Json → Nat
  | [] => 0
  | schema :: rest => (if accepts v schema then 1 else 0) + accepting v rest

end

private theorem accepting_eq (v : Json) (options : List Json) : accepting v options = options.countP (accepts v) := by
  induction options with
  | nil => rfl
  | cons o rest ih => rw [accepting, ih, List.countP_cons, Nat.add_comm]

private theorem acceptsAll_iff {v : Json} {keywords : Members} :
    acceptsAll v keywords = true ↔ ∀ m ∈ keywords, keywordAccepts v m.1 m.2 = true := by
  induction keywords with
  | nil => simp [acceptsAll]
  | cons m rest ih => rw [acceptsAll, Bool.and_eq_true, ih, List.forall_mem_cons]

/-- An object accepts what each of its keywords does. -/
theorem accepts_obj_iff {v : Json} {ms : Members} (h : ms.AreOf fun _ => True) : accepts v (.obj ms) = true ↔
    ∀ (keyword : String) (content : Json), ms.get? keyword = some content →
      keywordAccepts v (.str keyword) content = true := by
  rw [accepts, acceptsAll_iff]
  constructor
  · intro hall keyword content hget
    obtain ⟨k, hmem, hk⟩ := Members.exists_mem_of_get? hget
    obtain rfl : k = .str keyword := by simpa using hk
    exact hall _ hmem
  · intro hall m hm
    obtain ⟨keyword, hkeyword⟩ := h.text m hm
    rw [hkeyword]
    exact hall keyword m.2 (hkeyword ▸ Members.get?_of_mem h.distinct hm)

theorem keywordAccepts_type {v type : Json} : keywordAccepts v (.str "type") type = typeAccepts v type := by
  cases type <;> simp [keywordAccepts]

theorem keywordAccepts_enum {v : Json} {values : List Json} :
    keywordAccepts v (.str "enum") (.arr values) = values.any fun e => v.equals e := by
  simp [keywordAccepts]

abbrev only (keyword : String) (content : Json) : Json := .obj [(keyword, content)]

variable {v : Json} {options : List Json}

theorem accepts_type (v types : Json) : accepts v (only "type" types) = typeAccepts v types := by
  rw [accepts, acceptsAll, acceptsAll, Bool.and_true, keywordAccepts_type]

theorem accepts_anyOf : accepts v (only "anyOf" (.arr options)) = options.any (accepts v) := by
  rw [accepts, acceptsAll, acceptsAll, Bool.and_true, keywordAccepts, accepting_eq, Bool.eq_iff_iff]
  simp [List.countP_eq_zero]

theorem accepts_oneOf : accepts v (only "oneOf" (.arr options)) = (options.countP (accepts v) == 1) := by
  rw [accepts, acceptsAll, acceptsAll, Bool.and_true, keywordAccepts, accepting_eq]
  simp

end Schema

end EditLens
