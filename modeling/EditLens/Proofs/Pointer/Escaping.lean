import EditLens.Pointer.Lemmas

/-! The texts of paths, told by replacements. A token is written by replacing first its tildes and then its slashes,
and it is read by undoing the second replacement before the first. Main statement: this is how paths are joined and
split, the two are inverse to each other, and the texts that can be split are those of pointers. -/
namespace EditLens.Pointer

/-- Puts other characters in the place of given ones, at least one, wherever these follow one another, from the front
on. -/
def substitute (old new : List Char) : List Char → List Char
  | [] => []
  | c :: rest =>
    if old.isPrefixOf (c :: rest) then new ++ substitute old new (rest.drop (old.length - 1))
    else c :: substitute old new rest
termination_by cs => cs.length
decreasing_by all_goals simp only [List.length_drop, List.length_cons] <;> omega

/-- A token as it is written. A tilde that is put in for a slash must not be replaced again. -/
def escaped (token : String) : List Char :=
  substitute ['/'] ['~', '1'] (substitute ['~'] ['~', '0'] token.toList)

/-- The token that is written so. A tilde that is put in for its escape must not become part of another one. -/
def unescaped (cs : List Char) : String :=
  .ofList (substitute ['~', '0'] ['~'] (substitute ['~', '1'] ['/'] cs))

def pieces (text : String) : Path := (text.toList.splitOn '/').tail.map unescaped

def TildesEscape (cs : List Char) : Prop := ∀ i, cs[i]? = some '~' → cs[i + 1]? = some '0' ∨ cs[i + 1]? = some '1'

structure IsPointer (text : String) : Prop where
  start : text = "" ∨ text.toList.head? = some '/'
  tildes : TildesEscape text.toList

section Substituting

variable {o p c : Char} {old new rest : List Char}

@[simp] theorem substitute_nil (old new : List Char) : substitute old new [] = [] := by
  rw [substitute]

private theorem substitute_of_prefix (o : Char) (old new rest : List Char) :
    substitute (o :: old) new (o :: old ++ rest) = new ++ substitute (o :: old) new rest := by
  rw [List.cons_append, substitute, if_pos (by simp)]
  simp

private theorem substitute_of_ne (h : c ≠ o) :
    substitute (o :: old) new (c :: rest) = c :: substitute (o :: old) new rest := by
  rw [substitute, if_neg (by simp [h.symm])]

private theorem substitute_singleton (o : Char) (new rest : List Char) :
    substitute [o] new (o :: rest) = new ++ substitute [o] new rest := substitute_of_prefix o [] new rest

/-- Where the second of two characters does not follow, nothing is replaced. -/
private theorem substitute_of_head_ne (h : rest.head? ≠ some p) :
    substitute [o, p] new (c :: rest) = c :: substitute [o, p] new rest := by
  rw [substitute, if_neg]
  cases rest with
  | nil => simp
  | cons d rest => simpa using fun _ hp => h (congrArg some hp.symm)

end Substituting

/-- What replaces the tildes of a token is not touched when its slashes are replaced. -/
theorem escape_eq_escaped (token : String) : escape token.toList = escaped token := by
  rw [escaped]
  induction token.toList with
  | nil => simp [escape]
  | cons c rest ih =>
    by_cases htilde : c = '~'
    · subst htilde
      rw [substitute_singleton, List.cons_append, List.cons_append, List.nil_append,
        substitute_of_ne (by decide), substitute_of_ne (by decide), ← ih]
      rfl
    · rw [substitute_of_ne htilde]
      by_cases hslash : c = '/'
      · subst hslash
        rw [substitute_singleton, ← ih]
        rfl
      · rw [substitute_of_ne hslash, ← ih, escape]
        · exact htilde
        · exact hslash

private theorem joinChars_eq (path : Path) : joinChars path = path.flatMap fun token => '/' :: escaped token := by
  induction path with
  | nil => rfl
  | cons token rest ih => rw [joinChars, ih, escape_eq_escaped, List.flatMap_cons]

section Unescaping

variable {c : Char} {rest : List Char}

private theorem unescaped_tilde (rest : List Char) :
    (unescaped ('~' :: '0' :: rest)).toList = '~' :: (unescaped rest).toList := by
  have hfirst : substitute ['~', '1'] ['/'] ('~' :: '0' :: rest) =
      '~' :: '0' :: substitute ['~', '1'] ['/'] rest := by
    rw [substitute_of_head_ne (by simp), substitute_of_ne (by decide)]
  simp only [unescaped, String.toList_ofList, hfirst]
  exact substitute_of_prefix '~' ['0'] ['~'] _

private theorem unescaped_slash (rest : List Char) :
    (unescaped ('~' :: '1' :: rest)).toList = '/' :: (unescaped rest).toList := by
  have hfirst : substitute ['~', '1'] ['/'] ('~' :: '1' :: rest) = '/' :: substitute ['~', '1'] ['/'] rest :=
    substitute_of_prefix '~' ['1'] ['/'] rest
  simp only [unescaped, String.toList_ofList, hfirst]
  exact substitute_of_ne (by decide)

private theorem unescaped_of_ne (h : c ≠ '~') : (unescaped (c :: rest)).toList = c :: (unescaped rest).toList := by
  simp only [unescaped, String.toList_ofList, substitute_of_ne h]

end Unescaping

/-- Characters without a slash belong to the piece behind them. -/
private theorem splitOn_append {front : List Char} (hfront : '/' ∉ front) (cs : List Char) :
    ∃ piece others, cs.splitOn '/' = piece :: others ∧ (front ++ cs).splitOn '/' = (front ++ piece) :: others := by
  induction front with
  | nil =>
    obtain ⟨piece, others, hcs⟩ := List.exists_cons_of_ne_nil (List.splitOn_ne_nil '/' cs)
    exact ⟨piece, others, hcs, hcs⟩
  | cons c front ih =>
    rw [List.mem_cons, not_or] at hfront
    obtain ⟨piece, others, hcs, hfrontcs⟩ := ih hfront.2
    refine ⟨piece, others, hcs, ?_⟩
    rw [List.cons_append, List.splitOn_cons_eq_if_modifyHead, if_neg (by simpa using Ne.symm hfront.1), hfrontcs]
    rfl

/-- A token grows at its front by what the characters in front of its piece stand for. -/
private theorem map_splitOn_append (front : List Char) {cs t : List Char} {ts : List (List Char)} {c : Char}
    (hfront : '/' ∉ front) (hread : ∀ piece, (unescaped (front ++ piece)).toList = c :: (unescaped piece).toList)
    (h : (cs.splitOn '/').map (fun piece => (unescaped piece).toList) = t :: ts) :
    ((front ++ cs).splitOn '/').map (fun piece => (unescaped piece).toList) = (c :: t) :: ts := by
  obtain ⟨piece, others, hpieces, hall⟩ := splitOn_append hfront cs
  rw [hpieces, List.map_cons] at h
  obtain ⟨rfl, rfl⟩ := List.cons.inj h
  rw [hall, List.map_cons, hread]

/-- Tokens that are read in one go are those between the slashes, with the escapes in each of them replaced. -/
theorem splitOn_of_tokens? {cs t : List Char} {ts : List (List Char)} (h : tokens? cs = some (t, ts)) :
    (cs.splitOn '/').map (fun piece => (unescaped piece).toList) = t :: ts := by
  -- A slash starts a new piece; every other step puts one character in front of the first token.
  fun_induction tokens? cs generalizing t ts with
  | case1 =>
    obtain ⟨rfl, rfl⟩ := Prod.mk.inj (Option.some.inj h)
    simp [unescaped]
  | case2 rest ih =>
    obtain ⟨⟨u, us⟩, hu, he⟩ := Option.map_eq_some_iff.1 h
    obtain ⟨rfl, rfl⟩ := Prod.mk.inj he
    rw [List.splitOn_cons_eq_if_modifyHead, if_pos (by rfl), List.map_cons, ih hu]
    simp [unescaped]
  | case3 rest ih =>
    obtain ⟨⟨u, us⟩, hu, he⟩ := Option.map_eq_some_iff.1 h
    obtain ⟨rfl, rfl⟩ := Prod.mk.inj he
    exact map_splitOn_append ['~', '0'] (by decide) unescaped_tilde (ih hu)
  | case4 rest ih =>
    obtain ⟨⟨u, us⟩, hu, he⟩ := Option.map_eq_some_iff.1 h
    obtain ⟨rfl, rfl⟩ := Prod.mk.inj he
    exact map_splitOn_append ['~', '1'] (by decide) unescaped_slash (ih hu)
  | case5 => simp at h
  | case6 c rest hs ht0 ht1 ht ih =>
    obtain ⟨⟨u, us⟩, hu, he⟩ := Option.map_eq_some_iff.1 h
    obtain ⟨rfl, rfl⟩ := Prod.mk.inj he
    exact map_splitOn_append [c] (by simpa using Ne.symm hs) (fun _ => unescaped_of_ne ht) (ih hu)

section Tildes

variable {c : Char} {rest : List Char}

private theorem tildesEscape_cons_of_ne (h : c ≠ '~') : TildesEscape (c :: rest) ↔ TildesEscape rest :=
  ⟨fun hall i => by simpa using hall (i + 1), fun hall i => by
    cases i with
    | zero => simp [h]
    | succ i => simpa using hall i⟩

private theorem tildesEscape_tilde_cons :
    TildesEscape ('~' :: rest) ↔ (rest.head? = some '0' ∨ rest.head? = some '1') ∧ TildesEscape rest := by
  constructor
  · refine fun hall => ⟨by simpa [List.head?_eq_getElem?] using hall 0, fun i => by simpa using hall (i + 1)⟩
  · rintro ⟨hhead, hall⟩ i
    cases i with
    | zero => simpa [List.head?_eq_getElem?] using hhead
    | succ i => simpa using hall i

end Tildes

/-- The tokens behind a slash can be read exactly if each tilde is part of an escape. -/
theorem isSome_tokens?_iff (cs : List Char) : (tokens? cs).isSome = true ↔ TildesEscape cs := by
  fun_induction tokens? cs with
  | case1 => simp [TildesEscape]
  | case2 rest ih => rw [Option.isSome_map, ih, tildesEscape_cons_of_ne (by decide)]
  | case3 rest ih =>
    rw [Option.isSome_map, ih, tildesEscape_tilde_cons, tildesEscape_cons_of_ne (by decide)]
    simp
  | case4 rest ih =>
    rw [Option.isSome_map, ih, tildesEscape_tilde_cons, tildesEscape_cons_of_ne (by decide)]
    simp
  | case5 rest h0 h1 =>
    rw [tildesEscape_tilde_cons]
    cases rest with
    | nil => simp
    | cons d rest =>
      have hzero : d ≠ '0' := fun hd => h0 rest (by rw [hd])
      have hone : d ≠ '1' := fun hd => h1 rest (by rw [hd])
      simp [hzero, hone]
  | case6 c rest hs ht0 ht1 ht ih => rw [Option.isSome_map, ih, tildesEscape_cons_of_ne ht]

section Texts

variable {text : String} {path : Path}

/-- A text that can be split is split at its slashes. -/
theorem eq_pieces_of_split? (h : split? text = some path) : path = pieces text := by
  rw [split?] at h
  split at h
  · rename_i hempty
    obtain rfl := Option.some.inj h
    simp [pieces, hempty]
  · rename_i rest hslash
    obtain ⟨⟨t, ts⟩, ht, rfl⟩ := Option.map_eq_some_iff.1 h
    rw [pieces, hslash, List.splitOn_cons_eq_if_modifyHead, if_pos (by rfl), List.tail_cons]
    show (t :: ts).map String.ofList = (rest.splitOn '/').map unescaped
    rw [← splitOn_of_tokens? ht, List.map_map]
    simp [Function.comp_def]
  · cases h

/-- The texts that can be split are those of pointers. -/
theorem isSome_split?_iff (text : String) : (split? text).isSome = true ↔ IsPointer text := by
  rw [split?]
  split
  · rename_i hempty
    refine ⟨fun _ => ⟨.inl (String.toList_eq_nil_iff.1 hempty), ?_⟩, fun _ => rfl⟩
    simp [hempty, TildesEscape]
  · rename_i rest hslash
    have htildes : TildesEscape text.toList ↔ TildesEscape rest := by
      rw [hslash, tildesEscape_cons_of_ne (by decide)]
    rw [Option.isSome_map, isSome_tokens?_iff, ← htildes]
    exact ⟨fun h => ⟨.inr (by rw [hslash]; rfl), h⟩, IsPointer.tildes⟩
  · rename_i hne hns
    refine ⟨by simp, fun h => ?_⟩
    rcases h.start with rfl | hhead
    · exact absurd rfl hne
    · obtain ⟨rest, hrest⟩ := List.head?_eq_some_iff.1 hhead
      exact absurd hrest (hns rest)

private theorem ofJson_eq_ok_iff : ofJson (.str text) = .ok path ↔ split? text = some path := by
  rw [ofJson]
  cases split? text <;> simp

private theorem ofJson_eq_error_iff : ofJson (.str text) = .error .badPointer ↔ split? text = none := by
  rw [ofJson]
  cases split? text <;> simp

/-- Joining and splitting paths are inverse to each other. The texts that are empty or start with a slash, and in which
each tilde is followed by 0 or 1, can be split, and all others are refused. A text is split at its slashes, and the
escapes in each piece are replaced, those of slashes before those of tildes; joining writes each token behind a slash,
with its tildes replaced before its slashes. -/
theorem ofJson_join_inverse (path : Path) (text : String) :
    ofJson (.str (join path)) = .ok path ∧
      (ofJson (.str text) = .ok path ↔ join path = text) ∧
      ((∃ read, ofJson (.str text) = .ok read) ↔ IsPointer text) ∧
      (ofJson (.str text) = .error .badPointer ↔ ¬ IsPointer text) ∧
      (ofJson (.str text) = .ok path ↔ IsPointer text ∧ path = pieces text) ∧
      (join path).toList = path.flatMap fun token => '/' :: escaped token := by
  have haccepts : (∃ read, split? text = some read) ↔ IsPointer text := by
    rw [← Option.isSome_iff_exists, isSome_split?_iff]
  simp only [ofJson_eq_ok_iff, ofJson_eq_error_iff]
  refine ⟨split?_join path, ?_, haccepts, ?_, ?_, ?_⟩
  · rw [split?_eq_some_iff, eq_comm]
  · rw [← isSome_split?_iff, Bool.not_eq_true, Option.isSome_eq_false_iff, Option.isNone_iff_eq_none]
  · refine ⟨fun h => ⟨haccepts.1 ⟨path, h⟩, eq_pieces_of_split? h⟩, ?_⟩
    rintro ⟨hpointer, rfl⟩
    obtain ⟨read, hread⟩ := haccepts.2 hpointer
    rw [hread, eq_pieces_of_split? hread]
  · rw [join, String.toList_ofList, joinChars_eq]

/-- The escape of a tilde in front of a digit. -/
example : ofJson (.str "/~01//~1~0") = .ok ["~1", "", "/~"] := by cbv

end Texts

end EditLens.Pointer
