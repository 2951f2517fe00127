import EditLens.Json.Equality

/-!
Laws of the members of objects. Main statements: which member is found after one was set, and which
after one was left out, depends on the equality of keys alone.
-/
namespace EditLens

namespace Members

variable {ms : Members} {key other : Scalar} {value : Json}

@[simp] theorem get?_nil (key : Scalar) : get? [] key = none := rfl

theorem get?_cons (k : Scalar) (v : Json) (rest : Members) (key : Scalar) :
    get? ((k, v) :: rest) key = if k.same key then some v else get? rest key := rfl

/-- Keys of one value find the same member. -/
theorem get?_congr (h : key.same other = true) : get? ms key = get? ms other := by
  induction ms with
  | nil => rfl
  | cons m rest ih =>
    obtain ⟨k, v⟩ := m
    rw [get?_cons, get?_cons, ih]
    have hk : k.same key = k.same other := by
      simp only [Scalar.same, Scalar.same_iff.1 h]
    rw [hk]

theorem get?_put : get? (ms.put key value) other =
    if key.same other then some value else get? ms other := by
  induction ms with
  | nil => simp [put, get?_cons]
  | cons m rest ih =>
    obtain ⟨k, v⟩ := m
    by_cases hk : k.same key = true
    · have hko : k.same other = key.same other := by
        simp only [Scalar.same, Scalar.same_iff.1 hk]
      simp only [put, hk, if_true, get?_cons, hko]
      split <;> rfl
    · simp only [put, hk, Bool.false_eq_true, if_false, get?_cons, ih]
      by_cases hko : k.same other = true
      · have hne : key.same other = false := by
          rw [Bool.eq_false_iff]
          intro h
          exact hk (Scalar.same_trans hko (by rwa [Scalar.same_comm]))
        simp [hko, hne]
      · simp [hko]

@[simp] theorem get?_put_self : get? (ms.put key value) key = some value := by
  simp [get?_put]

theorem get?_without : get? (ms.without key) other =
    if key.same other then none else get? ms other := by
  induction ms with
  | nil => simp [without]
  | cons m rest ih =>
    obtain ⟨k, v⟩ := m
    simp only [without] at ih
    simp only [without, List.filter_cons]
    by_cases hk : k.same key = true
    · have hko : k.same other = key.same other := by
        simp only [Scalar.same, Scalar.same_iff.1 hk]
      simp only [hk, Bool.not_true, Bool.false_eq_true, if_false, ih, get?_cons, hko]
      split <;> rfl
    · simp only [hk, Bool.not_false, if_true, get?_cons, ih]
      by_cases hko : k.same other = true
      · have hne : key.same other = false := by
          rw [Bool.eq_false_iff]
          intro h
          exact hk (Scalar.same_trans hko (by rwa [Scalar.same_comm]))
        simp [hko, hne]
      · simp [hko]

/-- Setting a member to the value that it has changes nothing. -/
theorem put_of_get? (h : get? ms key = some value) : ms.put key value = ms := by
  induction ms with
  | nil => simp at h
  | cons m rest ih =>
    obtain ⟨k, v⟩ := m
    rw [get?_cons] at h
    rw [put]
    split at h
    · rename_i hk
      rw [if_pos hk, Option.some.inj h]
    · rename_i hk
      rw [if_neg hk, ih h]

/-- Of two values for one key, the later one counts. -/
@[simp] theorem put_put {first : Json} : (ms.put key first).put key value = ms.put key value := by
  induction ms with
  | nil => simp [put]
  | cons m rest ih =>
    obtain ⟨k, v⟩ := m
    by_cases hk : k.same key = true
    · simp [put, hk]
    · simp [put, hk, ih]

def Distinct (ms : Members) : Prop := ms.Pairwise fun m n => m.1.same n.1 = false

theorem get?_of_mem (h : ms.Distinct) {m : Scalar × Json} (hm : m ∈ ms) :
    get? ms m.1 = some m.2 := by
  induction ms with
  | nil => simp at hm
  | cons first rest ih =>
    obtain ⟨hfirst, hrest⟩ := List.pairwise_cons.1 h
    rw [get?_cons]
    rcases List.mem_cons.1 hm with rfl | hm
    · simp
    · simp [hfirst m hm, ih hrest hm]

end Members

end EditLens
