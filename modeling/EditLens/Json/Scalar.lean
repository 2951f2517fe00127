import EditLens.Number.Shortest

/-!
Scalars, which are the leaves of JSON values and the keys of objects. Whole numbers and binary64
numbers are told apart as data but compared by value, so that `1`, `1.0` and `true` are one key.
Main statements: comparison is an equivalence, and a string equals only itself.
-/
namespace EditLens

/-- A value without parts. Members of an object are keyed by scalars, of which documents read from
text only use strings. -/
inductive Scalar where
  | null
  | bool (b : Bool)
  | int (n : Int)
  | float (x : Binary64)
  | str (s : String)
  deriving DecidableEq, Inhabited, Repr

namespace Scalar

instance : Coe String Scalar := ⟨.str⟩

/-- The representative of the scalars of one value: truth values are 0 and 1, and a number without
a fractional part is a whole number. -/
def canonical : Scalar → Scalar
  | .bool b => .int (if b then 1 else 0)
  | .float x =>
    match x.integer? with
    | some n => .int n
    | none => .float (if x.isNaN then .nan else x)
  | s => s

@[simp] theorem canonical_str (s : String) : (Scalar.str s).canonical = .str s := rfl

@[simp] theorem canonical_eq_str {a : Scalar} {s : String} :
    a.canonical = .str s ↔ a = .str s := by
  cases a with
  | float x => cases h : x.integer? <;> simp [canonical, h]
  | _ => simp [canonical]

def same (a b : Scalar) : Bool := a.canonical = b.canonical

theorem same_iff {a b : Scalar} : a.same b = true ↔ a.canonical = b.canonical := by simp [same]

@[simp] theorem same_refl (a : Scalar) : a.same a = true := by simp [same]

theorem same_comm (a b : Scalar) : a.same b = b.same a := by simp only [same, eq_comm]

theorem same_trans {a b c : Scalar} (hab : a.same b = true) (hbc : b.same c = true) :
    a.same c = true := by
  rw [same_iff] at *
  rw [hab, hbc]

/-- A string is the same key as no other scalar. -/
@[simp] theorem same_str (a : Scalar) (s : String) : a.same (.str s) = decide (a = .str s) := by
  simp [same]

@[simp] theorem str_same (s : String) (a : Scalar) :
    (Scalar.str s).same a = decide (a = .str s) := by
  rw [same_comm, same_str]

end Scalar

end EditLens
