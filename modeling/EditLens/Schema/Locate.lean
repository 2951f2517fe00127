import EditLens.Schema.Basic
import EditLens.Pointer

/-!
Finding the part of a schema that describes the value at a path. Main statement: a step below a
schema that describes members leads to a smaller schema.
-/
namespace EditLens

namespace Schema

def findContainer? : List Json → Except Fault (Option Json)
  | [] => .ok none
  | option :: rest => do
    if ← option.mentions "properties" then return some option
    if ← option.mentions "items" then return some option
    findContainer? rest

/-- Of a union, the first alternative that describes a container; all else as it is. -/
def container (schema : Json) : Except Fault Json := do
  return (← findContainer? (← options schema)).getD schema

def memberSchemas (schema : Json) : Except Fault Members := do
  ((← schema.lookup "properties").orElse .emptyObject).asObject

/-- The schema of the part that a token leads to: of the elements if the token counts them and they
are described, and else of the member. Where nothing is known, anything goes. -/
def step (schema : Json) (token : String) : Except Fault Json := do
  let items ← schema.lookup "items"
  if Pointer.isIndex token && items.isObject then return items
  let part := (← memberSchemas schema).valueOf token
  return if part.isObject then part else .emptyObject

def locate (schema : Json) : Path → Except Fault Json
  | [] => container schema
  | token :: rest => do locate (← step (← container schema) token) rest

end Schema

namespace Json

mutual

def weight : Json → Nat
  | .scalar _ => 1
  | .arr es => elementsWeight es + 1
  | .obj ms => membersWeight ms + 1

def elementsWeight : List Json → Nat
  | [] => 0
  | e :: rest => e.weight + elementsWeight rest

def membersWeight : List (Scalar × Json) → Nat
  | [] => 0
  | (_, v) :: rest => v.weight + membersWeight rest

end

theorem weight_pos (v : Json) : 0 < v.weight := by
  cases v <;> simp [weight]

private theorem weight_le_of_mem {v : Json} {es : List Json} (h : v ∈ es) :
    v.weight ≤ elementsWeight es := by
  induction es with
  | nil => simp at h
  | cons e rest ih =>
    rw [elementsWeight]
    rcases List.mem_cons.1 h with rfl | h
    · omega
    · have := ih h
      omega

theorem weight_le_of_get? {ms : Members} {key : Scalar} {v : Json} (h : ms.get? key = some v) :
    v.weight ≤ membersWeight ms := by
  induction ms with
  | nil => simp [Members.get?] at h
  | cons m rest ih =>
    obtain ⟨k, w⟩ := m
    rw [membersWeight]
    rw [Members.get?] at h
    split at h
    · obtain rfl := Option.some.inj h
      omega
    · have := ih h
      omega

/-- A member of an object is smaller than the object; one that is not there counts as null. -/
theorem weight_lookup_lt {v part : Json} {key : Scalar} (h : v.lookup key = .ok part)
    (hp : part ≠ .null) : part.weight < v.weight := by
  cases v with
  | obj ms =>
    simp only [lookup, asObject, bind, Except.bind, pure, Except.pure, Except.ok.injEq] at h
    cases hg : Members.get? ms key with
    | none => simp [hg] at h; exact absurd h.symm hp
    | some w =>
      simp only [hg, Option.getD_some] at h
      have := weight_le_of_get? hg
      rw [weight, ← h]
      omega
  | _ => simp [lookup, asObject, bind, Except.bind] at h

end Json

namespace Schema

private theorem weight_le_of_asList {v part : Json} {parts : List Json} (h : v.asList = .ok parts)
    (hp : part ∈ parts) : part.weight ≤ v.weight := by
  cases v with
  | arr es =>
    obtain rfl := Except.ok.inj h
    have := Json.weight_le_of_mem hp
    rw [Json.weight]
    omega
  | obj ms =>
    obtain rfl := Except.ok.inj h
    obtain ⟨m, -, rfl⟩ := List.mem_map.1 hp
    exact Json.weight_pos (.obj ms)
  | scalar s =>
    cases s with
    | str s =>
      obtain rfl := Except.ok.inj h
      obtain ⟨c, -, rfl⟩ := List.mem_map.1 hp
      exact Nat.le_refl 1
    | _ => cases h

theorem findContainer?_mem {options : List Json} {option : Json}
    (h : findContainer? options = .ok (some option)) : option ∈ options := by
  induction options with
  | nil => simp [findContainer?] at h
  | cons first rest ih =>
    simp only [findContainer?, bind, Except.bind] at h
    split at h
    · cases h
    · split at h
      · simp [pure, Except.pure] at h
        simp [h]
      · simp only [pure, Except.pure] at h
        split at h
        · cases h
        · split at h
          · simp at h
            simp [h]
          · exact List.mem_cons_of_mem _ (ih h)

theorem orElse_of_truthy {v other : Json} (h : v.truthy = true) : v.orElse other = v := by
  simp [Json.orElse, h]

theorem ne_null_of_truthy {v : Json} (h : v.truthy = true) : v ≠ .null := by
  rintro rfl
  simp [Json.truthy] at h

/-- If there are alternatives at all, one of two keywords lists them. -/
theorem exists_of_options {schema : Json} {os : List Json} (h : options schema = .ok os) (hos : os ≠ []) :
    ∃ (keyword : String) (union : Json), (keyword = "anyOf" ∨ keyword = "oneOf") ∧
      schema.lookup keyword = .ok union ∧ union.truthy = true ∧ union.asList = .ok os := by
  simp only [options, bind, Except.bind] at h
  split at h
  · cases h
  rename_i anyOf ha
  split at h
  · cases h
  rename_i oneOf hb
  by_cases hta : anyOf.truthy = true
  · rw [orElse_of_truthy hta, orElse_of_truthy hta] at h
    exact ⟨"anyOf", anyOf, .inl rfl, ha, hta, h⟩
  · rw [show anyOf.orElse oneOf = oneOf by simp [Json.orElse, hta]] at h
    by_cases htb : oneOf.truthy = true
    · rw [orElse_of_truthy htb] at h
      exact ⟨"oneOf", oneOf, .inr rfl, hb, htb, h⟩
    · rw [show oneOf.orElse (.arr []) = .arr [] by simp [Json.orElse, htb]] at h
      exact absurd (Except.ok.inj h).symm hos

private theorem options_weight_lt {schema option : Json} {os : List Json} (h : options schema = .ok os)
    (ho : option ∈ os) : option.weight < schema.weight := by
  obtain ⟨keyword, union, -, hunion, htruthy, hlist⟩ := exists_of_options h (List.ne_nil_of_mem ho)
  exact Nat.lt_of_le_of_lt (weight_le_of_asList hlist ho)
    (Json.weight_lookup_lt hunion (ne_null_of_truthy htruthy))

theorem container_weight_le {schema found : Json} (h : container schema = .ok found) :
    found.weight ≤ schema.weight := by
  simp only [container, bind, Except.bind] at h
  split at h
  · cases h
  rename_i os ho
  split at h
  · cases h
  rename_i option hf
  obtain rfl := Except.ok.inj h
  cases option with
  | none => simp
  | some option => exact Nat.le_of_lt (options_weight_lt ho (findContainer?_mem hf))

private theorem memberSchemas_weight_lt {schema : Json} {m : Scalar × Json} {ms : Members}
    (h : memberSchemas schema = .ok (m :: ms)) :
    Json.membersWeight (m :: ms) + 1 < schema.weight := by
  simp only [memberSchemas, bind, Except.bind] at h
  split at h
  · cases h
  rename_i properties hp
  by_cases ht : properties.truthy = true
  · rw [orElse_of_truthy ht] at h
    cases properties with
    | obj ns =>
      obtain rfl := Except.ok.inj h
      simpa [Json.weight] using Json.weight_lookup_lt hp (by simp)
    | _ => cases h
  · simp [Json.orElse, ht, Json.emptyObject, Json.asObject] at h

/-- Where members are described, a step leads to a smaller schema. -/
theorem step_weight_lt {schema found : Json} {token : String} {m : Scalar × Json} {ms : Members}
    (hm : memberSchemas schema = .ok (m :: ms)) (h : step schema token = .ok found) :
    found.weight < schema.weight := by
  have hlt := memberSchemas_weight_lt hm
  simp only [step, hm, bind, Except.bind] at h
  split at h
  · cases h
  rename_i items hi
  split at h
  · rename_i hobj
    obtain rfl := Except.ok.inj h
    refine Json.weight_lookup_lt hi ?_
    rintro rfl
    simp [Json.isObject] at hobj
  · obtain rfl := Except.ok.inj h
    cases hg : Members.get? (m :: ms) token with
    | none =>
      simp [Members.valueOf, hg, Json.isObject, Json.emptyObject, Json.weight, Json.membersWeight]
      omega
    | some part =>
      have := Json.weight_le_of_get? hg
      simp only [Members.valueOf, hg, Option.getD_some]
      split
      · omega
      · simp only [Json.emptyObject, Json.weight, Json.membersWeight]
        omega

end Schema

end EditLens
