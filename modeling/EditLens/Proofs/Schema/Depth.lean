import EditLens.Proofs.Lens.Convert
import EditLens.Proofs.Schema.WellShaped

/-! How deep schemas are nested. Main statements: a step below a schema that describes members leads to a schema that
is less deep, and a path of any length leads to the same schema at once as in two parts. -/
namespace EditLens.Schema

mutual

/-- The longest way down a schema, by members and by elements. The alternatives of a union are no deeper than the
union, and what else a schema says does not count. -/
def depth : Json → Nat
  | .obj ms => keywordsDepth ms
  | _ => 0

def keywordsDepth : List (Scalar × Json) → Nat
  | [] => 0
  | (k, v) :: rest => max (keywordDepth k v) (keywordsDepth rest)

def keywordDepth (keyword : Scalar) : Json → Nat
  | .obj ms =>
    if keyword = "properties" then membersDepth ms
    else if keyword = "items" then keywordsDepth ms + 1
    else 0
  | .arr es => if keyword = "anyOf" ∨ keyword = "oneOf" then alternativesDepth es else 0
  | .scalar _ => 0

def membersDepth : List (Scalar × Json) → Nat
  | [] => 0
  | (_, part) :: rest => max (depth part + 1) (membersDepth rest)

def alternativesDepth : List Json → Nat
  | [] => 0
  | o :: rest => max (depth o) (alternativesDepth rest)

end

variable {schema part found : Json} {ms props : Members} {keyword token : String}

private theorem keywordDepth_le {v : Json} (h : ms.get? keyword = some v) :
    keywordDepth keyword v ≤ depth (.obj ms) := by
  rw [depth]
  induction ms with
  | nil => cases h
  | cons m rest ih =>
    obtain ⟨k, w⟩ := m
    rw [Members.get?_cons] at h
    rw [keywordsDepth]
    split at h
    · rename_i hk
      obtain rfl := Option.some.inj h
      obtain rfl : k = .str keyword := by simpa using hk
      exact Nat.le_max_left _ _
    · exact (ih h).trans (Nat.le_max_right _ _)

private theorem depth_lt_membersDepth {m : Scalar × Json} (h : m ∈ props) : depth m.2 < membersDepth props := by
  induction props with
  | nil => cases h
  | cons first rest ih =>
    obtain ⟨k, v⟩ := first
    rw [membersDepth]
    rcases List.mem_cons.1 h with rfl | h
    · exact Nat.le_max_left (depth v + 1) _
    · exact (ih h).trans_le (Nat.le_max_right _ _)

private theorem depth_le_alternativesDepth {os : List Json} {o : Json} (h : o ∈ os) :
    depth o ≤ alternativesDepth os := by
  induction os with
  | nil => cases h
  | cons first rest ih =>
    rw [alternativesDepth]
    rcases List.mem_cons.1 h with rfl | h
    · exact Nat.le_max_left _ _
    · exact (ih h).trans (Nat.le_max_right _ _)

/-- What is read as an object, if nothing counts as an object without members, is nothing or the object. -/
private theorem eq_of_orElse_asObject {v : Json} (h : (v.orElse .emptyObject).asObject = .ok props) :
    props = [] ∨ v = .obj props := by
  by_cases ht : v.truthy = true
  · rw [orElse_of_truthy ht] at h
    cases v with
    | obj ms => exact .inr (congrArg Json.obj (Except.ok.inj h))
    | _ => cases h
  · rw [show v.orElse .emptyObject = .emptyObject by simp [Json.orElse, ht]] at h
    exact .inl (Except.ok.inj h).symm

private theorem exists_of_lookup {v : Json} {key : Scalar} (h : schema.lookup key = .ok v) (hv : v ≠ .null) :
    ∃ ms : Members, schema = .obj ms ∧ ms.get? key = some v := by
  cases schema with
  | obj ms =>
    refine ⟨ms, rfl, ?_⟩
    have hget := Except.ok.inj h
    cases hk : Members.get? ms key with
    | none => exact absurd (by rw [← hget, hk, Option.getD_none]) hv
    | some w => rw [hk, Option.getD_some] at hget; rw [hget]
  | _ => cases h

private theorem membersDepth_le (h : memberSchemas schema = .ok props) : membersDepth props ≤ depth schema := by
  obtain ⟨given, hgiven, h⟩ := Except.exists_of_bind h
  rcases eq_of_orElse_asObject h with rfl | rfl
  · exact Nat.zero_le _
  · obtain ⟨ms, rfl, hget⟩ := exists_of_lookup hgiven (by simp)
    have hle := keywordDepth_le hget
    rwa [keywordDepth, if_pos rfl] at hle

theorem exists_mem_of_isObject {key : Scalar} (h : (props.valueOf key).isObject = true) :
    ∃ k, (k, props.valueOf key) ∈ props := by
  cases hget : props.get? key with
  | none =>
    rw [WellShaped.valueOf_of_get?_eq_none hget] at h
    cases h
  | some v =>
    obtain ⟨k, hmem, -⟩ := Members.exists_mem_of_get? hget
    exact ⟨k, by rwa [WellShaped.valueOf_of_get? hget]⟩

private theorem depth_items_lt (h : schema.lookup "items" = .ok part) (hpart : part.isObject = true) :
    depth part < depth schema := by
  obtain ⟨ns, rfl⟩ := Json.exists_obj_of_isObject hpart
  obtain ⟨ms, rfl, hget⟩ := exists_of_lookup h (by simp)
  have hle := keywordDepth_le hget
  rw [keywordDepth, if_neg (by simp), if_pos rfl] at hle
  exact hle

private theorem depth_option_le {o : Json} {os : List Json} (h : options schema = .ok os) (ho : o ∈ os) :
    depth o ≤ depth schema := by
  obtain ⟨keyword, union, hkeyword, hunion, htruthy, hlist⟩ := exists_of_options h (List.ne_nil_of_mem ho)
  obtain ⟨ms, rfl, hget⟩ := exists_of_lookup hunion (ne_null_of_truthy htruthy)
  cases union with
  | arr es =>
    obtain rfl := Except.ok.inj hlist
    have hle := keywordDepth_le hget
    rw [keywordDepth, if_pos (by simpa using hkeyword)] at hle
    exact (depth_le_alternativesDepth ho).trans hle
  | obj ns =>
    obtain rfl := Except.ok.inj hlist
    obtain ⟨m, -, rfl⟩ := List.mem_map.1 ho
    exact Nat.zero_le _
  | scalar s =>
    cases s with
    | str t =>
      obtain rfl := Except.ok.inj hlist
      obtain ⟨c, -, rfl⟩ := List.mem_map.1 ho
      exact Nat.zero_le _
    | _ => cases hlist

private theorem depth_container_le (h : container schema = .ok found) : depth found ≤ depth schema := by
  obtain ⟨os, hos, h⟩ := Except.exists_of_bind h
  obtain ⟨found?, hfound, h⟩ := Except.exists_of_bind h
  obtain rfl := Except.ok.inj h
  cases found? with
  | none => exact Nat.le_refl _
  | some o => exact depth_option_le hos (findContainer?_mem hfound)

theorem depth_pos {m : Scalar × Json} (hprops : memberSchemas schema = .ok props) (hm : m ∈ props) :
    0 < depth schema :=
  (Nat.zero_le _).trans_lt ((depth_lt_membersDepth hm).trans_le (membersDepth_le hprops))

/-- Where members are described, a step leads to a schema that is less deep. -/
theorem depth_step_lt {m : Scalar × Json} (hprops : memberSchemas schema = .ok props) (hm : m ∈ props)
    (h : step schema token = .ok found) : depth found < depth schema := by
  obtain ⟨items, hitems, h⟩ := Except.exists_of_bind h
  split at h
  · rename_i hindex
    obtain rfl := Except.ok.inj h
    exact depth_items_lt hitems (Bool.and_eq_true_iff.1 hindex).2
  · rw [hprops, Except.bind_ok] at h
    obtain rfl := Except.ok.inj h
    split
    · rename_i hobj
      obtain ⟨k, hmem⟩ := exists_mem_of_isObject hobj
      exact (depth_lt_membersDepth hmem).trans_le (membersDepth_le hprops)
    · exact depth_pos hprops hm

theorem depth_below_lt {m : Scalar × Json} (hprops : memberSchemas schema = .ok props) (hm : m ∈ props)
    (h : below schema token = .ok found) : depth found < depth schema := by
  obtain ⟨part, hpart, hfound⟩ := Except.exists_of_bind h
  exact (depth_container_le hfound).trans_lt (depth_step_lt hprops hm hpart)

/-- The way to a member goes on from where the path ends. -/
theorem locate_append_token (schema : Json) (path : Path) (token : String) :
    locate schema (path ++ [token]) = (do below (← locate schema path) token) := by
  induction path generalizing schema with
  | nil => rfl
  | cons first rest ih =>
    simp only [List.cons_append, locate, ih, bind_assoc]

end EditLens.Schema
