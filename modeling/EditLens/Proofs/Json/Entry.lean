import EditLens.Json.Display
import EditLens.Json.Equality
import EditLens.Proofs.Number.Numeral

/-! Entries of scalars in tables of conversions. Main statement: apart from texts, values with one entry are equal. -/
namespace EditLens.Scalar

open Numeral (isNumeric isNumeric_of_isDigit)

def words : List (String × Scalar) :=
  [("null", .null), ("true", .int 1), ("false", .int 0), ("nan", .float .nan),
    ("inf", .float (.infinity false)), ("-inf", .float (.infinity true))]

private theorem canonical_of_isNaN {x : Binary64} (h : x.isNaN = true) :
    (Scalar.float x).canonical = .float .nan := by
  have hbiased : x.biased = 0x7ff := by
    simp only [Binary64.isNaN, Bool.and_eq_true, beq_iff_eq] at h
    exact h.1
  simp [canonical, Binary64.integer?, Binary64.isFinite, hbiased, h]

private theorem eq_infinity {x : Binary64} (h : x.isInfinite = true) : x = .infinity x.negative := by
  simp only [Binary64.isInfinite, Bool.and_eq_true, beq_iff_eq] at h
  refine Binary64.eq_of_parts ?_ ?_ ?_
  · cases x.negative <;> rfl
  · rw [h.1]
    cases x.negative <;> rfl
  · rw [h.2]
    cases x.negative <;> rfl

/-- A number without a whole value is not finite or no zero. -/
private theorem significand_pos {x : Binary64} (hfinite : x.isFinite = true) (h : x.integer? = none) :
    0 < x.significand := by
  refine Nat.pos_of_ne_zero fun hzero => ?_
  simp [Binary64.integer?, hfinite, hzero] at h

/-- Apart from texts, entries are words, whole numbers and numbers with a point or an exponent, and tell the value. -/
private theorem entry_cases {a : Scalar} (h : ∀ t, a ≠ .str t) :
    ((Json.scalar a).entry, a.canonical) ∈ words ∨
      (∃ n : Int, (Json.scalar a).entry = toString n ∧ a.canonical = .int n) ∨
      ∃ x : Binary64, a = .float x ∧ (Json.scalar a).entry = x.text ∧ x.isFinite = true ∧ 0 < x.significand := by
  cases a with
  | null => exact .inl (by decide)
  | bool b => exact .inl (by cases b <;> decide)
  | int n => exact .inr (.inl ⟨n, rfl, rfl⟩)
  | str t => exact absurd rfl (h t)
  | float x =>
    cases hwhole : x.integer? with
    | some n => exact .inr (.inl ⟨n, by simp [Json.entry, hwhole], by simp [canonical, hwhole]⟩)
    | none =>
      have hentry : (Json.float x).entry = x.text := by simp [Json.entry, hwhole]
      by_cases hfinite : x.isFinite = true
      · exact .inr (.inr ⟨x, rfl, hentry, hfinite, significand_pos hfinite hwhole⟩)
      left
      rw [hentry]
      by_cases hnan : x.isNaN = true
      · rw [canonical_of_isNaN hnan, Binary64.text, if_pos hnan]
        simp [words]
      · have hinfinite : x.isInfinite = true := by
          simp only [Binary64.isFinite, Binary64.isNaN, Binary64.isInfinite, Bool.and_eq_true, bne_iff_ne,
            beq_iff_eq, ne_eq, not_not] at hfinite hnan ⊢
          exact ⟨hfinite, not_not.1 fun hfraction => hnan ⟨hfinite, hfraction⟩⟩
        rw [show (Scalar.float x).canonical = .float x by simp [canonical, hwhole, hnan], Binary64.text, if_neg hnan,
          if_pos hinfinite, eq_infinity hinfinite]
        cases x.negative <;> decide

private theorem words_functional : ∀ v ∈ words, ∀ w ∈ words, v.1 = w.1 → v.2 = w.2 := by
  decide

/-- A word has a character that is in no number. -/
private theorem not_numeric_of_mem_words : ∀ w ∈ words, w.1.toList.all isNumeric = false := by
  decide

private theorem toString_negSucc (k : Nat) : (toString (Int.negSucc k)).toList = '-' :: (k + 1).repr.toList :=
  String.toList_append

private theorem isDigit_of_mem_repr {k : Nat} {c : Char} (h : c ∈ k.repr.toList) : c.isDigit = true := by
  rw [Nat.toList_repr] at h
  exact Numeral.isDigit_of_mem_toDigits h

private theorem of_mem_toString {n : Int} {c : Char} (h : c ∈ (toString n).toList) :
    c.isDigit = true ∨ c = '-' := by
  cases n with
  | ofNat k => exact .inl (isDigit_of_mem_repr h)
  | negSucc k =>
    rw [toString_negSucc, List.mem_cons] at h
    exact h.symm.imp_left isDigit_of_mem_repr

private theorem toString_ofNat_ne_negSucc (k l : Nat) : toString (Int.ofNat k) ≠ toString (Int.negSucc l) := by
  intro h
  have hsign : '-' ∈ k.repr.toList := by
    rw [show k.repr = _ from h, toString_negSucc]
    exact List.mem_cons_self
  exact absurd (isDigit_of_mem_repr hsign) (by decide)

private theorem toString_injective {m n : Int} (h : toString m = toString n) : m = n := by
  cases m with
  | ofNat k =>
    cases n with
    | ofNat l => rw [Pointer.repr_injective h]
    | negSucc l => exact absurd h (toString_ofNat_ne_negSucc k l)
  | negSucc k =>
    cases n with
    | ofNat l => exact absurd h.symm (toString_ofNat_ne_negSucc l k)
    | negSucc l =>
      rw [← String.toList_inj, toString_negSucc, toString_negSucc, List.cons.injEq, String.toList_inj] at h
      rw [Nat.succ.inj (Pointer.repr_injective h.2)]

private theorem isNumeric_of_mem_toString {n : Int} {c : Char} (h : c ∈ (toString n).toList) :
    isNumeric c = true := by
  rcases of_mem_toString h with h | rfl
  · exact isNumeric_of_isDigit h
  · rfl

private theorem isNumeric_of_mem_text {x : Binary64} (hfinite : x.isFinite = true) (hpos : 0 < x.significand)
    {c : Char} (h : c ∈ x.text.toList) : isNumeric c = true := by
  obtain ⟨n, hn, -⟩ := Binary64.exists_text hfinite hpos
  rw [hn] at h
  rcases List.mem_append.1 h with h | h
  · split at h
    · rw [List.mem_singleton.1 h]
      rfl
    · cases h
  · exact n.isNumeric_of_mem_chars c h

private theorem word_ne_number {w : String × Scalar} {s : String} (hw : w ∈ words)
    (hs : ∀ c ∈ s.toList, isNumeric c = true) : w.1 ≠ s := by
  rintro rfl
  exact Bool.false_ne_true ((not_numeric_of_mem_words w hw).symm.trans (List.all_eq_true.2 hs))

private theorem text_ne_toString {x : Binary64} (hfinite : x.isFinite = true) (hpos : 0 < x.significand)
    (n : Int) : x.text ≠ toString n := by
  intro h
  obtain ⟨numeral, hnumeral, -⟩ := Binary64.exists_text hfinite hpos
  obtain ⟨c, hc, hmark⟩ := numeral.exists_mark
  have hmem : c ∈ (toString n).toList := by
    rw [← h, hnumeral]
    exact List.mem_append_right _ hc
  rcases of_mem_toString hmem with hdigit | rfl
  · rcases hmark with rfl | rfl <;> exact absurd hdigit (by decide)
  · rcases hmark with h | h <;> exact absurd h (by decide)

/-- Apart from texts, scalars with one entry are equal. -/
theorem same_of_entry_eq {a b : Scalar} (ha : ∀ t, a ≠ .str t) (hb : ∀ t, b ≠ .str t)
    (h : (Json.scalar a).entry = (Json.scalar b).entry) : a.same b = true := by
  rw [same_iff]
  rcases entry_cases ha with hword | ⟨m, hm, hcanonical⟩ | ⟨x, rfl, hx, hfinite, hpos⟩ <;>
    rcases entry_cases hb with hword' | ⟨n, hn, hcanonical'⟩ | ⟨y, rfl, hy, hfinite', hpos'⟩
  · exact words_functional _ hword _ hword' h
  · exact absurd (h.trans hn) (word_ne_number hword fun _ => isNumeric_of_mem_toString)
  · exact absurd (h.trans hy) (word_ne_number hword fun _ => isNumeric_of_mem_text hfinite' hpos')
  · exact absurd (h.symm.trans hm) (word_ne_number hword' fun _ => isNumeric_of_mem_toString)
  · rw [hcanonical, hcanonical', toString_injective (hm.symm.trans (h.trans hn))]
  · exact absurd (hy.symm.trans (h.symm.trans hm)) (text_ne_toString hfinite' hpos' m)
  · exact absurd (h.symm.trans hx) (word_ne_number hword' fun _ => isNumeric_of_mem_text hfinite hpos)
  · exact absurd (hx.symm.trans (h.trans hn)) (text_ne_toString hfinite hpos n)
  · rw [Binary64.eq_of_text_eq hfinite hpos hfinite' hpos' (hx.symm.trans (h.trans hy))]

/-- Apart from truth values, the entry is that of the representative. -/
private theorem entry_canonical {a : Scalar} (h : ∀ b, a ≠ .bool b) :
    (Json.scalar a.canonical).entry = (Json.scalar a).entry := by
  cases a with
  | bool b => exact absurd rfl (h b)
  | float x =>
    cases hwhole : x.integer? with
    | some n =>
      simp only [canonical, Json.entry, hwhole]
      rfl
    | none =>
      by_cases hnan : x.isNaN = true
      · rw [canonical_of_isNaN hnan]
        simp [Json.entry, hwhole, Binary64.text, hnan]
        rfl
      · simp [canonical, hwhole, hnan]
  | _ => rfl

/-- Apart from truth values, equal scalars have one entry. -/
theorem entry_eq_of_same {a b : Scalar} (ha : ∀ x, a ≠ .bool x) (hb : ∀ x, b ≠ .bool x) (h : a.same b = true) :
    (Json.scalar a).entry = (Json.scalar b).entry := by
  rw [← entry_canonical ha, ← entry_canonical hb, same_iff.1 h]

end EditLens.Scalar
