import EditLens.Pointer.Lemmas
import Mathlib.Data.List.Induction
import Mathlib.Tactic.IntervalCases

/-! Tokens that give positions in arrays. Main statement: the token of a position is its decimal
text and nothing else, and each such token counts elements. -/
namespace EditLens.Pointer

private theorem ofDigits (ds : List Char) :
    ds.foldl (fun n d => n * 10 + (d.toNat - 48)) 0 = Nat.ofDigitChars 10 ds 0 := by
  simp [Nat.ofDigitChars, Nat.mul_comm]

private theorem digitChar_of_isDigit {c : Char} (h : c.isDigit = true) :
    c.toNat - 48 < 10 ∧ Nat.digitChar (c.toNat - 48) = c := by
  rw [Char.isDigit_iff_toNat] at h
  simp only [show '0'.toNat = 48 from rfl, show '9'.toNat = 57 from rfl] at h
  refine ⟨by omega, ?_⟩
  obtain ⟨k, hk, hc⟩ : ∃ k, k < 10 ∧ c.toNat = 48 + k := ⟨c.toNat - 48, by omega, by omega⟩
  have hchar : c = Char.ofNat (48 + k) := by rw [← hc, Char.ofNat_toNat]
  subst hchar
  interval_cases k <;> rfl

/-- Digits without a leading zero are the digits of their value. -/
private theorem toDigits_ofDigitChars {ds : List Char} (hne : ds ≠ [])
    (hdigits : ds.all Char.isDigit = true) (hlead : ds.head? ≠ some '0') :
    Nat.toDigits 10 (Nat.ofDigitChars 10 ds 0) = ds ∧ 0 < Nat.ofDigitChars 10 ds 0 := by
  induction ds using List.reverseRecOn with
  | nil => exact absurd rfl hne
  | append_singleton front c ih =>
    simp only [List.all_append, List.all_cons, List.all_nil, Bool.and_true, Bool.and_eq_true]
      at hdigits
    obtain ⟨hlt, hchar⟩ := digitChar_of_isDigit hdigits.2
    rw [Nat.ofDigitChars_append]
    simp only [Nat.ofDigitChars_cons, Nat.ofDigitChars_nil, show '0'.toNat = 48 from rfl]
    cases front with
    | nil =>
      have hpos : c.toNat - 48 ≠ 0 := by
        intro hzero
        rw [hzero] at hchar
        simp [← hchar, Nat.digitChar] at hlead
      simp only [Nat.ofDigitChars_nil, Nat.mul_zero, Nat.zero_add, List.nil_append]
      exact ⟨by rw [Nat.toDigits_of_lt_base hlt, hchar], by omega⟩
    | cons d ds =>
      obtain ⟨hfront, hpos⟩ := ih (by simp) hdigits.1 (by simpa using hlead)
      rw [← Nat.toDigits_append_toDigits (by decide) hpos hlt, hfront, Nat.toDigits_of_lt_base hlt,
        hchar]
      exact ⟨rfl, by omega⟩

theorem head?_toDigits {n : Nat} (hn : 0 < n) : (Nat.toDigits 10 n).head? ≠ some '0' := by
  induction n using Nat.strongRecOn with
  | ind n ih =>
    rw [Nat.toDigits_eq_if (by decide)]
    split
    · simp only [List.head?_cons, ne_eq, Option.some.injEq, Nat.digitChar_eq_zero]
      omega
    · have := ih (n / 10) (by omega) (by omega)
      cases hd : Nat.toDigits 10 (n / 10) with
      | nil => exact absurd hd Nat.toDigits_ne_nil
      | cons d ds => simpa [hd] using this

private theorem position?_of_digits {token : String} {ds : List Char} (htoken : token.toList = ds)
    (hne : ds ≠ []) (hdigits : ds.all Char.isDigit = true) (hlead : ds.head? ≠ some '0') :
    position? token = some (Nat.ofDigitChars 10 ds 0) := by
  unfold position?
  rw [htoken]
  split
  · exact absurd rfl hne
  · simp at hlead
  · simp at hlead
  · rw [if_pos hdigits, ofDigits]

/-- The token of a position is its decimal text. -/
@[simp] theorem position?_repr (i : Nat) : position? i.repr = some i := by
  by_cases hi : i = 0
  · subst hi
    rfl
  · rw [position?_of_digits Nat.toList_repr Nat.toDigits_ne_nil _ (head?_toDigits (by omega)),
      Nat.ofDigitChars_ten_toDigits]
    rw [List.all_eq_true]
    intro c hc
    exact Nat.isDigit_of_mem_toDigits (by decide) (by decide) hc

theorem eq_repr_of_position? {token : String} {i : Nat} (h : position? token = some i) :
    token = i.repr := by
  rw [← String.toList_inj, Nat.toList_repr]
  unfold position? at h
  split at h
  · cases h
  · rename_i hzero
    obtain rfl := Option.some.inj h
    rw [hzero, Nat.toDigits_zero]
  · cases h
  · rename_i hne hzero hlead
    split at h
    · rename_i hdigits
      obtain rfl := Option.some.inj h
      rw [ofDigits]
      refine (toDigits_ofDigitChars ?_ hdigits ?_).1.symm
      · intro hnil
        exact hne hnil
      · intro hhead
        obtain ⟨rest, hrest⟩ := List.head?_eq_some_iff.1 hhead
        exact hlead rest hrest
    · cases h

theorem position?_eq_some_iff {token : String} {i : Nat} :
    position? token = some i ↔ token = i.repr :=
  ⟨eq_repr_of_position?, fun h => by rw [h, position?_repr]⟩

/-- A token of a position counts elements. -/
theorem isIndex_of_position? {token : String} {i : Nat} (h : position? token = some i) :
    isIndex token = true := by
  obtain rfl := eq_repr_of_position? h
  have hdigits : ∀ c ∈ Nat.toDigits 10 i, c.isDigit = true := fun c hc =>
    Nat.isDigit_of_mem_toDigits (by decide) (by decide) hc
  have hlast : (Nat.toDigits 10 i).getLast? ≠ some '\n' := by
    intro hbreak
    exact absurd (hdigits _ (List.mem_of_getLast? hbreak)) (by decide)
  simp only [isIndex, Nat.toList_repr, if_neg hlast, Bool.and_eq_true, List.all_eq_true]
  refine ⟨?_, hdigits⟩
  cases hd : Nat.toDigits 10 i with
  | nil => exact absurd hd Nat.toDigits_ne_nil
  | cons d ds => rfl

@[simp] theorem isIndex_repr (i : Nat) : isIndex i.repr = true :=
  isIndex_of_position? (position?_repr i)

theorem repr_injective {i j : Nat} (h : i.repr = j.repr) : i = j := by
  have hi := position?_repr i
  rw [h, position?_repr] at hi
  exact (Option.some.inj hi).symm

end EditLens.Pointer
