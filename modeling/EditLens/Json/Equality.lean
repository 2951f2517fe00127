import EditLens.Json.Basic

/-!
Two equalities of JSON values: `Json.same` compares what they stand for, and `Json.decEq` decides
whether they are one term.
-/
namespace EditLens.Json

mutual

/-- Equality of values: numbers by value, arrays in order, objects up to the order of members. -/
def same : Json → Json → Bool
  | .scalar a, .scalar b => a.same b
  | .arr as, .arr bs => sameElements as bs
  | .obj ms, .obj ns => ms.length == ns.length && sameMembers ms ns
  | _, _ => false

def sameElements : List Json → List Json → Bool
  | [], [] => true
  | a :: as, b :: bs => same a b && sameElements as bs
  | _, _ => false

def sameMembers : List (Scalar × Json) → Members → Bool
  | [], _ => true
  | (k, v) :: rest, ns =>
    (match Members.get? ns k with
      | some w => same v w
      | none => false) && sameMembers rest ns

end

mutual

def decEq : (a b : Json) → Decidable (a = b)
  | .scalar a, .scalar b =>
    if h : a = b then isTrue (by rw [h]) else isFalse (by simpa using h)
  | .arr as, .arr bs =>
    match decEqElements as bs with
    | isTrue h => isTrue (by rw [h])
    | isFalse h => isFalse (by simpa using h)
  | .obj ms, .obj ns =>
    match decEqMembers ms ns with
    | isTrue h => isTrue (by rw [h])
    | isFalse h => isFalse (by simpa using h)
  | .scalar _, .arr _ => isFalse (by simp)
  | .scalar _, .obj _ => isFalse (by simp)
  | .arr _, .scalar _ => isFalse (by simp)
  | .arr _, .obj _ => isFalse (by simp)
  | .obj _, .scalar _ => isFalse (by simp)
  | .obj _, .arr _ => isFalse (by simp)

def decEqElements : (as bs : List Json) → Decidable (as = bs)
  | [], [] => isTrue rfl
  | [], _ :: _ => isFalse (by simp)
  | _ :: _, [] => isFalse (by simp)
  | a :: as, b :: bs =>
    match decEq a b, decEqElements as bs with
    | isTrue h, isTrue hs => isTrue (by rw [h, hs])
    | isFalse h, _ => isFalse (by simp [h])
    | _, isFalse hs => isFalse (by simp [hs])

def decEqMembers : (ms ns : List (Scalar × Json)) → Decidable (ms = ns)
  | [], [] => isTrue rfl
  | [], _ :: _ => isFalse (by simp)
  | _ :: _, [] => isFalse (by simp)
  | (k, v) :: ms, (l, w) :: ns =>
    match decEq v w, decEqMembers ms ns with
    | isTrue h, isTrue hs =>
      if hk : k = l then isTrue (by rw [hk, h, hs]) else isFalse (by simp [hk])
    | isFalse h, _ => isFalse (by simp [h])
    | _, isFalse hs => isFalse (by simp [hs])

end

instance : DecidableEq Json := decEq

end EditLens.Json
