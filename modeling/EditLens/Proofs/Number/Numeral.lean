import EditLens.Json.Reader
import EditLens.Proofs.Number.Shortest
import EditLens.Proofs.Pointer.Index
import Mathlib.Data.List.TakeWhile

/-! How binary64 numbers are written. Main statement: finite numbers other than zero that are written alike are the
same. -/
namespace EditLens

open Json.Token (digitsValue whole? fractional exponential)

/-- A number as it is written, with a point or an exponent. -/
structure Numeral where
  whole : List Char
  fraction : List Char
  exponent : Option Int
  whole_digits : ∀ c ∈ whole, c.isDigit = true
  fraction_digits : ∀ c ∈ fraction, c.isDigit = true
  lead : whole = ['0'] ∨ ∃ c rest, whole = c :: rest ∧ c ≠ '0'
  marked : fraction ≠ [] ∨ exponent ≠ none

namespace Numeral

def pairedDigits (n : Nat) : List Char :=
  let shown := Nat.toDigits 10 n
  List.replicate (2 - shown.length) '0' ++ shown

def exponentChars : Option Int → List Char
  | none => []
  | some e => 'e' :: (if e < 0 then '-' else '+') :: pairedDigits e.natAbs

def fractionChars (ds : List Char) : List Char := if ds.isEmpty then [] else '.' :: ds

def chars (n : Numeral) : List Char := n.whole ++ (fractionChars n.fraction ++ exponentChars n.exponent)

def value (n : Numeral) : ℚ :=
  digitsValue (n.whole ++ n.fraction) * 10 ^ (n.exponent.getD 0 - n.fraction.length)

private theorem digitsValue_eq (ds : List Char) : digitsValue ds = Nat.ofDigitChars 10 ds 0 := by
  simp [digitsValue, Nat.ofDigitChars, Nat.mul_comm]

private theorem digitsValue_append (ds es : List Char) :
    digitsValue (ds ++ es) = digitsValue ds * 10 ^ es.length + digitsValue es := by
  rw [digitsValue_eq, digitsValue_eq, digitsValue_eq, Nat.ofDigitChars_append,
    Nat.ofDigitChars_eq_ofDigitChars_zero, Nat.mul_comm]

private theorem digitsValue_replicate (k : Nat) : digitsValue (List.replicate k '0') = 0 := by
  rw [digitsValue_eq, Nat.ofDigitChars_replicate_zero, Nat.mul_zero]

private theorem digitsValue_toDigits (n : Nat) : digitsValue (Nat.toDigits 10 n) = n := by
  rw [digitsValue_eq, Nat.ofDigitChars_ten_toDigits]

theorem isDigit_of_mem_toDigits {n : Nat} {c : Char} (h : c ∈ Nat.toDigits 10 n) : c.isDigit = true :=
  Nat.isDigit_of_mem_toDigits (by decide) (by decide) h

/-- Digits are read up to the first character that is none. -/
private theorem takeWhile_digits {ds : List Char} (tail : List Char) (hds : ∀ c ∈ ds, c.isDigit = true)
    (htail : ∀ c rest, tail = c :: rest → c.isDigit = false) : (ds ++ tail).takeWhile Char.isDigit = ds := by
  rw [List.takeWhile_append_of_pos hds]
  cases tail with
  | nil => exact List.append_nil ds
  | cons c rest => rw [List.takeWhile_cons_of_neg (by simp [htail c rest rfl]), List.append_nil]

private theorem whole?_append {ds tail : List Char} (hds : ∀ c ∈ ds, c.isDigit = true)
    (hlead : ds = ['0'] ∨ ∃ c rest, ds = c :: rest ∧ c ≠ '0')
    (htail : ∀ c rest, tail = c :: rest → c.isDigit = false) : whole? (ds ++ tail) = some (ds, tail) := by
  rcases hlead with rfl | ⟨c, rest, rfl, hc⟩
  · rfl
  · unfold whole?
    split
    · rename_i h
      exact absurd (List.cons.inj h).1 hc
    · rw [takeWhile_digits tail hds htail]
      exact congrArg (fun rest => some (_, rest)) List.drop_left

private theorem pairedDigits_digits {n : Nat} : ∀ c ∈ pairedDigits n, c.isDigit = true := by
  intro c hc
  rcases List.mem_append.1 hc with hc | hc
  · rw [List.eq_of_mem_replicate hc]
    rfl
  · exact isDigit_of_mem_toDigits hc

private theorem digitsValue_pairedDigits (n : Nat) : digitsValue (pairedDigits n) = n := by
  rw [pairedDigits, digitsValue_append, digitsValue_replicate, digitsValue_toDigits, Nat.zero_mul, Nat.zero_add]

private theorem pairedDigits_ne_nil (n : Nat) : pairedDigits n ≠ [] :=
  List.append_ne_nil_of_right_ne_nil _ Nat.toDigits_ne_nil

private theorem exponential_exponentChars (e : Option Int) : exponential (exponentChars e) = (e, []) := by
  cases e with
  | none => rfl
  | some e =>
    have htake := takeWhile_digits [] (pairedDigits_digits (n := e.natAbs)) nofun
    rw [List.append_nil] at htake
    have hne : (pairedDigits e.natAbs).isEmpty = false := by simp [pairedDigits_ne_nil]
    by_cases hsign : e < 0
    · simp only [exponentChars, hsign, if_true, exponential, decide_true, Bool.true_or, htake, hne,
        Bool.false_eq_true, if_false, List.drop_length, digitsValue_pairedDigits]
      rw [show -(e.natAbs : Int) = e by omega]
    · simp only [exponentChars, hsign, if_false, exponential, decide_true, Bool.true_or, if_true, htake, hne,
        Bool.false_eq_true, List.drop_length, digitsValue_pairedDigits]
      rw [show (e.natAbs : Int) = e by omega]

private theorem head_exponentChars {e : Option Int} {c : Char} {rest : List Char} (h : exponentChars e = c :: rest) :
    c = 'e' := by
  cases e with
  | none => cases h
  | some e => exact (List.cons.inj h).1.symm

private theorem fractional_append {fs : List Char} (hfs : ∀ c ∈ fs, c.isDigit = true) (e : Option Int) :
    fractional (fractionChars fs ++ exponentChars e) = (fs, exponentChars e) := by
  cases fs with
  | nil =>
    rw [fractionChars, List.isEmpty_nil, if_pos rfl, List.nil_append]
    unfold fractional
    split
    · rename_i h
      exact absurd (head_exponentChars h) (by decide)
    · rfl
  | cons f fs =>
    have htake := takeWhile_digits (exponentChars e) hfs fun c rest h => by
      rw [head_exponentChars h]
      rfl
    simp only [fractionChars, List.isEmpty_cons, Bool.false_eq_true, if_false, List.cons_append, fractional]
    rw [← List.cons_append, htake]
    exact congrArg (fun rest => (_, rest)) List.drop_left

def readParts? (cs : List Char) : Option (List Char × List Char × Option Int) := do
  let (ds, rest) ← whole? cs
  let (fs, rest) := fractional rest
  return (ds, fs, (exponential rest).1)

private theorem readParts?_chars (n : Numeral) : readParts? n.chars = some (n.whole, n.fraction, n.exponent) := by
  have htail : ∀ c rest, fractionChars n.fraction ++ exponentChars n.exponent = c :: rest → c.isDigit = false := by
    intro c rest h
    rw [fractionChars] at h
    split at h
    · rw [head_exponentChars h]
      rfl
    · rw [← (List.cons.inj h).1]
      rfl
  rw [readParts?, chars, whole?_append n.whole_digits n.lead htail]
  simp only [bind, Option.bind, fractional_append n.fraction_digits, exponential_exponentChars]
  rfl

private theorem chars_injective {m n : Numeral} (h : m.chars = n.chars) : m = n := by
  have hm := m.readParts?_chars
  rw [h, n.readParts?_chars] at hm
  obtain ⟨hwhole, hrest⟩ := Prod.mk.inj (Option.some.inj hm)
  obtain ⟨hfraction, hexponent⟩ := Prod.mk.inj hrest
  cases m
  cases n
  simp only at hwhole hfraction hexponent
  subst hwhole hfraction hexponent
  rfl

private theorem exists_head (n : Numeral) : ∃ c rest, n.chars = c :: rest ∧ c.isDigit = true := by
  obtain ⟨c, rest, hwhole⟩ : ∃ c rest, n.whole = c :: rest := by
    rcases n.lead with h | ⟨c, rest, h, -⟩
    · exact ⟨_, _, h⟩
    · exact ⟨_, _, h⟩
  exact ⟨c, _, by rw [chars, hwhole]; rfl, n.whole_digits c (hwhole ▸ List.mem_cons_self)⟩

def isNumeric (c : Char) : Bool := c.isDigit || c ∈ ['.', 'e', '+', '-']

theorem isNumeric_of_isDigit {c : Char} (h : c.isDigit = true) : isNumeric c = true := by
  rw [isNumeric, h]
  rfl

theorem isNumeric_of_mem_chars (n : Numeral) : ∀ c ∈ n.chars, isNumeric c = true := by
  intro c hc
  rcases List.mem_append.1 hc with hc | hc
  · exact isNumeric_of_isDigit (n.whole_digits c hc)
  rcases List.mem_append.1 hc with hc | hc
  · rw [fractionChars] at hc
    split at hc
    · cases hc
    rcases List.mem_cons.1 hc with rfl | hc
    · rfl
    · exact isNumeric_of_isDigit (n.fraction_digits c hc)
  · generalize n.exponent = e at hc
    cases e with
    | none => cases hc
    | some e =>
      rcases List.mem_cons.1 hc with rfl | hc
      · rfl
      rcases List.mem_cons.1 hc with rfl | hc
      · split <;> rfl
      · exact isNumeric_of_isDigit (pairedDigits_digits c hc)

/-- A number with a point or an exponent is told from a whole number. -/
theorem exists_mark (n : Numeral) : ∃ c ∈ n.chars, c = '.' ∨ c = 'e' := by
  rcases n.marked with hfraction | hexponent
  · refine ⟨'.', ?_, .inl rfl⟩
    simp [chars, fractionChars, hfraction]
  · obtain ⟨e, he⟩ := Option.ne_none_iff_exists'.1 hexponent
    refine ⟨'e', ?_, .inr rfl⟩
    simp [chars, exponentChars, he]

end Numeral

namespace Decimal

open Numeral

variable {d : Decimal}

/-- Zeros at the end can be put back. -/
private theorem trimZeros_append (cs : List Char) :
    (trimZeros cs).1 ++ List.replicate (trimZeros cs).2 '0' = cs := by
  have hzeros : cs.reverse.takeWhile (· == '0') = List.replicate (trimZeros cs).2 '0' :=
    List.eq_replicate_iff.2 ⟨rfl, fun c hc => by simpa using List.mem_takeWhile_imp hc⟩
  obtain ⟨front, hfront⟩ : ∃ front, cs = front ++ List.replicate (trimZeros cs).2 '0' := by
    refine ⟨(cs.reverse.dropWhile (· == '0')).reverse, ?_⟩
    rw [← List.reverse_replicate, ← hzeros, ← List.reverse_append, List.takeWhile_append_dropWhile,
      List.reverse_reverse]
  have htrimmed : (trimZeros cs).1 = front := by
    rw [show (trimZeros cs).1 = cs.take (cs.length - (trimZeros cs).2) from rfl]
    generalize (trimZeros cs).2 = zeros at hfront
    subst hfront
    simp
  rw [htrimmed, ← hfront]

/-- The digits of a decimal, without zeros at their end, and how many of these there were. -/
private theorem exists_trimmed (hd : 0 < d.digits) : ∃ c more zeros,
    trimZeros (Nat.toDigits 10 d.digits) = (c :: more, zeros) ∧ c ≠ '0' ∧ (∀ e ∈ c :: more, e.isDigit = true) ∧
      digitsValue (c :: more) * 10 ^ zeros = d.digits := by
  have happend := trimZeros_append (Nat.toDigits 10 d.digits)
  have hlead := Pointer.head?_toDigits hd
  generalize trimZeros (Nat.toDigits 10 d.digits) = trimmed at happend ⊢
  obtain ⟨ds, zeros⟩ := trimmed
  dsimp only at happend
  cases ds with
  | nil =>
    rw [List.nil_append] at happend
    cases zeros with
    | zero => exact absurd happend.symm Nat.toDigits_ne_nil
    | succ k =>
      rw [← happend] at hlead
      exact absurd rfl hlead
  | cons c more =>
    refine ⟨c, more, zeros, rfl, ?_, fun e he => ?_, ?_⟩
    · rintro rfl
      rw [← happend] at hlead
      exact hlead rfl
    · exact isDigit_of_mem_toDigits (happend ▸ List.mem_append_left _ he)
    · rw [← digitsValue_toDigits d.digits, ← happend, digitsValue_append, digitsValue_replicate,
        List.length_replicate, Nat.add_zero]

/-- A decimal of one digit or more before its point, and the rest behind it. -/
private theorem exists_scientific {c : Char} {more : List Char} (hc : c ≠ '0')
    (hdigits : ∀ e ∈ c :: more, e.isDigit = true) (exponent : Int) : ∃ n : Numeral,
    n.chars = c :: (fractionChars more ++ exponentChars (some exponent)) ∧
      n.value = digitsValue (c :: more) * 10 ^ (exponent - more.length) :=
  ⟨{ whole := [c], fraction := more, exponent := some exponent
     whole_digits := fun e he => hdigits e (List.mem_singleton.1 he ▸ List.mem_cons_self)
     fraction_digits := fun e he => hdigits e (List.mem_cons_of_mem c he)
     lead := .inr ⟨c, [], rfl, hc⟩
     marked := .inr (Option.some_ne_none exponent) }, rfl, rfl⟩

private theorem exists_small {ds : List Char} (hne : ds ≠ []) (hdigits : ∀ e ∈ ds, e.isDigit = true) (zeros : Nat) :
    ∃ n : Numeral, n.chars = ['0', '.'] ++ List.replicate zeros '0' ++ ds ∧
      n.value = digitsValue ds * 10 ^ (-(zeros + ds.length : Nat) : Int) := by
  have hfraction : List.replicate zeros '0' ++ ds ≠ [] := List.append_ne_nil_of_right_ne_nil _ hne
  refine ⟨{ whole := ['0'], fraction := List.replicate zeros '0' ++ ds, exponent := none
            whole_digits := fun e he => ?_, fraction_digits := fun e he => ?_
            lead := .inl rfl, marked := .inl hfraction }, ?_, ?_⟩
  · rw [List.mem_singleton.1 he]
    rfl
  · rcases List.mem_append.1 he with he | he
    · rw [List.eq_of_mem_replicate he]
      rfl
    · exact hdigits e he
  · simp [chars, fractionChars, exponentChars, hne]
  · have hvalue : digitsValue ('0' :: (List.replicate zeros '0' ++ ds)) = digitsValue ds := by
      rw [show '0' :: (List.replicate zeros '0' ++ ds) = List.replicate (zeros + 1) '0' ++ ds from rfl,
        digitsValue_append, digitsValue_replicate, Nat.zero_mul, Nat.zero_add]
    simp only [Numeral.value, List.singleton_append, hvalue, Option.getD_none, List.length_append,
      List.length_replicate]
    rw [Int.zero_sub]

private theorem exists_pointed {c : Char} (front back : List Char) (hc : c ≠ '0') (hback : back ≠ [])
    (hdigits : ∀ e ∈ c :: front ++ back, e.isDigit = true) : ∃ n : Numeral,
    n.chars = c :: front ++ '.' :: back ∧
      n.value = digitsValue (c :: front ++ back) * 10 ^ (-(back.length : Int)) := by
  refine ⟨{ whole := c :: front, fraction := back, exponent := none
            whole_digits := fun e he => hdigits e (List.mem_append_left _ he)
            fraction_digits := fun e he => hdigits e (List.mem_append_right _ he)
            lead := .inr ⟨c, front, rfl, hc⟩, marked := .inl hback }, ?_, ?_⟩
  · simp [chars, fractionChars, exponentChars, hback]
  · simp only [Numeral.value, Option.getD_none, Int.zero_sub]

/-- Zeros in front of the point, and one behind it. -/
private theorem exists_padded {c : Char} {more : List Char} (hc : c ≠ '0')
    (hdigits : ∀ e ∈ c :: more, e.isDigit = true) (zeros : Nat) : ∃ n : Numeral,
    n.chars = c :: more ++ List.replicate zeros '0' ++ ['.', '0'] ∧
      n.value = digitsValue (c :: more) * 10 ^ (zeros : Int) := by
  obtain ⟨n, hchars, hn⟩ := exists_pointed (more ++ List.replicate zeros '0') ['0'] hc (List.cons_ne_nil _ _)
    fun e he => by
      simp only [List.cons_append, List.mem_cons, List.mem_append, List.not_mem_nil, or_false] at he
      rcases he with rfl | (he | he) | rfl
      · exact hdigits _ List.mem_cons_self
      · exact hdigits e (List.mem_cons_of_mem c he)
      · rw [List.eq_of_mem_replicate he]
        rfl
      · rfl
  have hzeros : c :: (more ++ List.replicate zeros '0') ++ ['0'] = c :: more ++ List.replicate (zeros + 1) '0' := by
    rw [List.replicate_succ']
    simp
  refine ⟨n, by simp [hchars], ?_⟩
  rw [hn, hzeros, digitsValue_append, digitsValue_replicate, Nat.add_zero, List.length_replicate, Nat.cast_mul,
    mul_assoc, Nat.cast_pow, ← zpow_natCast, Nat.cast_ofNat, ← zpow_add₀ (by norm_num)]
  congr 2
  simp

/-- A decimal is written as a number that has its value. -/
theorem exists_numeral (hd : 0 < d.digits) : ∃ n : Numeral, d.text = String.ofList n.chars ∧ n.value = d.value := by
  obtain ⟨c, more, zeros, htrimmed, hc, hdigits, htotal⟩ := exists_trimmed hd
  set point := d.exponent + zeros + (c :: more).length with hpoint
  have hvalue : d.value = digitsValue (c :: more) * 10 ^ (point - (c :: more).length) := by
    rw [value, ← htotal, Nat.cast_mul, mul_assoc, Nat.cast_pow, ← zpow_natCast, Nat.cast_ofNat,
      ← zpow_add₀ (by norm_num)]
    congr 2
    omega
  rw [text, htrimmed, hvalue]
  simp only [← hpoint, String.ofList_inj]
  split
  · obtain ⟨n, hchars, hn⟩ := exists_scientific hc hdigits (point - 1)
    refine ⟨n, ?_, ?_⟩
    · have hsign : (if point ≤ 0 then '-' else '+') = if point - 1 < 0 then '-' else '+' :=
        if_congr (by omega) rfl rfl
      rw [hchars, hsign]
      cases more <;> simp [fractionChars, exponentChars, pairedDigits]
    · rw [hn, List.length_cons]
      congr 2
      omega
  split
  · obtain ⟨n, hchars, hn⟩ := exists_small (List.cons_ne_nil c more) hdigits (-point).toNat
    refine ⟨n, hchars.symm, ?_⟩
    rw [hn]
    congr 2
    omega
  split
  · obtain ⟨k, hk⟩ : ∃ k : Nat, point.toNat = k + 1 := ⟨point.toNat - 1, by omega⟩
    have hsplit : c :: more.take k ++ more.drop k = c :: more := by
      rw [List.cons_append, List.take_append_drop]
    obtain ⟨n, hchars, hn⟩ := exists_pointed (more.take k) (more.drop k) hc
      (by simp only [ne_eq, List.drop_eq_nil_iff]; simp only [List.length_cons] at *; omega) (by rwa [hsplit])
    refine ⟨n, ?_, ?_⟩
    · rw [hchars, hk]
      rfl
    · rw [hn, hsplit, List.length_drop]
      congr 2
      simp only [List.length_cons] at *
      omega
  · obtain ⟨n, hchars, hn⟩ := exists_padded hc hdigits (point.toNat - (c :: more).length)
    refine ⟨n, hchars.symm, ?_⟩
    rw [hn]
    congr 2
    omega

end Decimal

namespace Binary64

variable {x y : Binary64}

/-- A finite number other than zero is written as its sign and a number that is rounded to it. -/
theorem exists_text (hfinite : x.isFinite = true) (hpos : 0 < x.significand) : ∃ n : Numeral,
    x.text.toList = (if x.negative then ['-'] else []) ++ n.chars ∧ x.Rounds n.value := by
  have hrounds := rounds_shortest hpos
  have hdigits : 0 < (Decimal.shortest x).digits := by
    refine Nat.pos_of_ne_zero fun hzero => ?_
    have hone : (1 : ℚ) ≤ x.significand := by exact_mod_cast hpos
    have hlow : 0 < x.lowEnd := lt_of_lt_of_le (mul_pos (by linarith) x.spacing_pos) x.half_le_lowEnd
    have hle := hrounds.low
    rw [Decimal.value, hzero, Nat.cast_zero, zero_mul] at hle
    exact absurd hlow (not_lt.2 hle)
  obtain ⟨n, htext, hvalue⟩ := Decimal.exists_numeral hdigits
  refine ⟨n, ?_, hvalue ▸ hrounds⟩
  have hbiased : x.biased ≠ 0x7ff := by simpa [isFinite] using hfinite
  simp only [text, isNaN, isInfinite, beq_false_of_ne hbiased, Bool.false_and, Bool.false_eq_true, if_false,
    hpos.ne', htext]
  cases x.negative <;> simp

/-- Finite numbers other than zero that are written alike are the same. -/
theorem eq_of_text_eq (hx : x.isFinite = true) (hxpos : 0 < x.significand) (hy : y.isFinite = true)
    (hypos : 0 < y.significand) (h : x.text = y.text) : x = y := by
  obtain ⟨m, hm, hxrounds⟩ := exists_text hx hxpos
  obtain ⟨n, hn, hyrounds⟩ := exists_text hy hypos
  rw [h, hn] at hm
  -- the first character is a digit unless it is the sign
  obtain ⟨c, cs, hc, hcdigit⟩ := m.exists_head
  obtain ⟨d, ds, hd, hddigit⟩ := n.exists_head
  have hminus : '-'.isDigit = false := rfl
  cases hxsign : x.negative <;> cases hysign : y.negative <;>
    simp only [hxsign, hysign, Bool.false_eq_true, if_true, if_false, List.nil_append, List.cons_append] at hm
  · obtain rfl := Numeral.chars_injective hm
    exact eq_of_rounds (hxsign.trans hysign.symm) hxrounds hyrounds
  · rw [hc, List.cons.injEq] at hm
    rw [← hm.1, hminus] at hcdigit
    cases hcdigit
  · rw [hd, List.cons.injEq] at hm
    rw [hm.1, hminus] at hddigit
    cases hddigit
  · obtain rfl := Numeral.chars_injective (List.cons.inj hm).2
    exact eq_of_rounds (hxsign.trans hysign.symm) hxrounds hyrounds

end Binary64

end EditLens
