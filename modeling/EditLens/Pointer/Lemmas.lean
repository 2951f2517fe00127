import EditLens.Pointer

/-!
Paths and their texts. Main statements: a path is read back from its text, and a text that can be
read is the text of its path.
-/
namespace EditLens.Pointer

attribute [local simp] escape tokens?

private theorem tokens?_of_ne {c : Char} (ht : c ≠ '~') (hs : c ≠ '/') (rest : List Char) :
    tokens? (c :: rest) = (tokens? rest).map fun (t, ts) => (c :: t, ts) := by
  rw [tokens?]
  · simp [hs]
  · intro r
    simp [ht]
  · intro r
    simp [ht]
  · simp [ht]

private theorem escape_of_ne {c : Char} (ht : c ≠ '~') (hs : c ≠ '/') (rest : List Char) :
    escape (c :: rest) = c :: escape rest := by
  rw [escape]
  · simp [ht]
  · simp [hs]

private theorem tokens?_escape_append {rest u : List Char} {us : List (List Char)}
    (h : tokens? rest = some (u, us)) (t : List Char) :
    tokens? (escape t ++ rest) = some (t ++ u, us) := by
  induction t with
  | nil => simpa [escape] using h
  | cons c t ih =>
    by_cases ht : c = '~'
    · subst ht
      simp [escape, tokens?, ih]
    · by_cases hs : c = '/'
      · subst hs
        simp [escape, tokens?, ih]
      · simp [escape_of_ne ht hs, tokens?_of_ne ht hs, ih]

private theorem tokens?_joinChars (path : Path) :
    tokens? (joinChars path) = some ([], path.map String.toList) := by
  induction path with
  | nil => rfl
  | cons t ts ih => simp [joinChars, tokens?, tokens?_escape_append ih]

/-- A path is read back from its text. -/
@[simp] theorem split?_join (path : Path) : split? (join path) = some path := by
  cases path with
  | nil => simp [split?, join, joinChars]
  | cons t ts =>
    simp [split?, join, joinChars, tokens?_escape_append (tokens?_joinChars ts), Function.comp_def]

private theorem escape_of_tokens? {cs t : List Char} {ts : List (List Char)}
    (h : tokens? cs = some (t, ts)) : escape t ++ joinChars (ts.map String.ofList) = cs := by
  fun_induction tokens? cs generalizing t ts with
  | case1 =>
    obtain ⟨rfl, rfl⟩ := Prod.mk.inj (Option.some.inj h)
    rfl
  | case2 rest ih =>
    obtain ⟨⟨u, us⟩, hu, he⟩ := Option.map_eq_some_iff.1 h
    obtain ⟨rfl, rfl⟩ := Prod.mk.inj he
    simp [escape, joinChars, ih hu]
  | case3 rest ih =>
    obtain ⟨⟨u, us⟩, hu, he⟩ := Option.map_eq_some_iff.1 h
    obtain ⟨rfl, rfl⟩ := Prod.mk.inj he
    simp [escape, ih hu]
  | case4 rest ih =>
    obtain ⟨⟨u, us⟩, hu, he⟩ := Option.map_eq_some_iff.1 h
    obtain ⟨rfl, rfl⟩ := Prod.mk.inj he
    simp [escape, ih hu]
  | case5 => simp at h
  | case6 c rest hs ht0 ht1 ht ih =>
    obtain ⟨⟨u, us⟩, hu, he⟩ := Option.map_eq_some_iff.1 h
    obtain ⟨rfl, rfl⟩ := Prod.mk.inj he
    rw [escape_of_ne ht hs, List.cons_append, ih hu]

/-- A text that can be read is the text of its path. -/
theorem join_of_split? {text : String} {path : Path} (h : split? text = some path) :
    join path = text := by
  rw [split?] at h
  split at h
  · rename_i hc
    obtain rfl := Option.some.inj h
    rw [join, joinChars, ← hc, String.ofList_toList]
  · rename_i rest hc
    obtain ⟨⟨t, ts⟩, ht, rfl⟩ := Option.map_eq_some_iff.1 h
    have hchars : joinChars ((t :: ts).map String.ofList) = '/' :: rest := by
      simp [joinChars, escape_of_tokens? ht]
    rw [join, hchars, ← hc, String.ofList_toList]
  · simp at h

theorem split?_eq_some_iff {text : String} {path : Path} :
    split? text = some path ↔ text = join path :=
  ⟨fun h => (join_of_split? h).symm, fun h => by rw [h, split?_join]⟩

@[simp] theorem ofJson_join (path : Path) : ofJson (.str (join path)) = .ok path := by
  simp [ofJson]

end EditLens.Pointer
