import EditLens.Proofs.Lens.Taking

/-! Where lenses carry additions: the place depends on nothing but the path. Main statements: an addition of
a value that is not null comes out as the same addition at the place to which its path is routed, and no path
loses its place but by a removal. -/
namespace EditLens

mutual

/-- Where an operation carries the additions at a path, if it does not drop them. Nothing is told about the
heads of arrays. -/
def LensOp.route (path : Path) : LensOp → Option Path
  | .rename source destination =>
    some (if path.startsWith source then destination.plain :: path.tail else path)
  | .hoist host name =>
    match path with
    | outer :: inner :: rest => some (if host.isText outer && name.isText inner then inner :: rest else path)
    | _ => some path
  | .plunge host name => some (if path.startsWith name then host.plain :: path else path)
  | .wrap name => some (if path.startsWith name then name.plain :: "0" :: path.tail else path)
  | .remove property => if path.startsWith property.name then none else some path
  | .inside name lens =>
    if path.startsWith name then (Lens.route path.tail lens).map fun below => name.plain :: below
    else some path
  | .each lens =>
    match path.cutAtIndex? with
    | none => some path
    | some (above, below) => (Lens.route below lens).map fun below => above ++ below
  | _ => some path

def Lens.route (path : Path) : Lens → Option Path
  | [] => some path
  | op :: rest => (op.route path).bind fun next => Lens.route next rest

end

section Route

attribute [local simp] LensOp.route

variable {token source destination host name : String} {path rest : Path} {lens : Lens}

@[simp] theorem LensOp.route_root (op : LensOp) : op.route [] = some [] := by
  cases op <;> rfl

@[simp] theorem Lens.route_root (lens : Lens) : Lens.route [] lens = some [] := by
  induction lens with
  | nil => rfl
  | cons op rest ih => rw [Lens.route, LensOp.route_root, Option.bind_some, ih]

theorem LensOp.route_rename : (LensOp.rename (.str source) (.str destination)).route (token :: rest) =
    some (if source = token then destination :: rest else token :: rest) := by
  simp only [LensOp.route, Path.startsWith_cons, decide_eq_true_eq, Json.plain_str, List.tail_cons]

theorem LensOp.route_hoist : (LensOp.hoist (.str host) (.str name)).route (token :: rest) =
    some (if host = token ∧ rest.head? = some name then rest else token :: rest) := by
  cases rest with
  | nil => simp only [LensOp.route, List.head?_nil, reduceCtorEq, and_false, if_false]
  | cons inner below =>
    simp only [LensOp.route, Json.isText_str, Bool.and_eq_true, decide_eq_true_eq, List.head?_cons,
      Option.some.injEq, @eq_comm _ inner name]

theorem LensOp.route_plunge : (LensOp.plunge (.str host) (.str name)).route (token :: rest) =
    some (if name = token then host :: token :: rest else token :: rest) := by
  simp only [LensOp.route, Path.startsWith_cons, decide_eq_true_eq, Json.plain_str]

theorem LensOp.route_wrap : (LensOp.wrap (.str name)).route (token :: rest) =
    some (if name = token then name :: "0" :: rest else token :: rest) := by
  simp only [LensOp.route, Path.startsWith_cons, decide_eq_true_eq, Json.plain_str, List.tail_cons]

theorem LensOp.route_remove {property : Property} (hname : property.name = .str name) :
    (LensOp.remove property).route (token :: rest) =
      if name = token then none else some (token :: rest) := by
  simp only [LensOp.route, hname, Path.startsWith_cons, decide_eq_true_eq]

theorem LensOp.route_inside : (LensOp.inside (.str name) lens).route (token :: rest) =
    if name = token then (Lens.route rest lens).map fun below => name :: below
    else some (token :: rest) := by
  simp only [LensOp.route, Path.startsWith_cons, decide_eq_true_eq, Json.plain_str, List.tail_cons]

/-- In an array, an index comes first; the element itself stays at its index. -/
theorem LensOp.route_each (hindex : Pointer.isIndex token = true) :
    (LensOp.each lens).route (token :: rest) =
      (Lens.route rest lens).map fun below => token :: below := by
  cases rest with
  | nil => simp only [LensOp.route, Path.cutAtIndex?_singleton, Lens.route_root, Option.map_some]
  | cons next below =>
    simp only [LensOp.route, Path.cutAtIndex?, hindex, if_true, List.singleton_append]

theorem LensOp.route_each_nil : (LensOp.each []).route path = some path := by
  rw [LensOp.route]
  split
  · rfl
  · rename_i hcut
    rw [Lens.route, Option.map_some, (Path.cutAtIndex?_eq_some hcut).1]

end Route

mutual

/-- Operations that move or remove members, whose names are text. -/
def LensOp.isStructural : LensOp → Bool
  | .rename (.str _) (.str _) => true
  | .hoist (.str _) (.str _) => true
  | .plunge (.str _) (.str _) => true
  | .wrap (.str _) => true
  | .remove ⟨.str _, _, _, _, _⟩ => true
  | .inside (.str _) lens => Lens.isStructural lens
  | .each lens => Lens.isStructural lens
  | _ => false

def Lens.isStructural : Lens → Bool
  | [] => true
  | op :: rest => op.isStructural && Lens.isStructural rest

end

mutual

/-- Operations that give members other places and do nothing to what they hold, whose names are text. -/
def LensOp.isMoving : LensOp → Bool
  | .rename (.str _) (.str _) => true
  | .hoist (.str _) (.str _) => true
  | .plunge (.str _) (.str _) => true
  | .inside (.str _) lens => Lens.isMoving lens
  | .each lens => Lens.isMoving lens
  | _ => false

def Lens.isMoving : Lens → Bool
  | [] => true
  | op :: rest => op.isMoving && Lens.isMoving rest

end

mutual

theorem LensOp.isStructural_of_isMoving (op : LensOp) (h : op.isMoving = true) : op.isStructural = true := by
  match op with
  | .rename (.str _) (.str _) | .hoist (.str _) (.str _) | .plunge (.str _) (.str _) => rfl
  | .inside (.str _) lens => exact Lens.isStructural_of_isMoving lens h
  | .each lens => exact Lens.isStructural_of_isMoving lens h

theorem Lens.isStructural_of_isMoving (lens : Lens) (h : lens.isMoving = true) : lens.isStructural = true := by
  match lens with
  | [] => rfl
  | op :: rest =>
    rw [Lens.isMoving, Bool.and_eq_true] at h
    rw [Lens.isStructural, LensOp.isStructural_of_isMoving op h.1, Lens.isStructural_of_isMoving rest h.2]
    rfl

end

mutual

inductive LensOp.Removes : LensOp → Path → Prop
  | remove {property : Property} {name : String} {rest : Path} (hname : property.name = .str name) :
    LensOp.Removes (.remove property) (name :: rest)
  | inside {name : String} {lens : Lens} {rest : Path} (below : Lens.Removes lens rest) :
    LensOp.Removes (.inside (.str name) lens) (name :: rest)
  | each {lens : Lens} {path above rest : Path} (cut : path.cutAtIndex? = some (above, rest))
    (below : Lens.Removes lens rest) : LensOp.Removes (.each lens) path

/-- Whether some operation of a lens removes a member on the way of a path, as the path is by then. -/
inductive Lens.Removes : Lens → Path → Prop
  | here {op : LensOp} {lens : Lens} {path : Path} (h : op.Removes path) : Lens.Removes (op :: lens) path
  | later {op : LensOp} {lens : Lens} {path next : Path} (moved : op.route path = some next)
    (h : Lens.Removes lens next) : Lens.Removes (op :: lens) path

end

private theorem LensOp.not_removes_root (op : LensOp) : ¬ op.Removes [] := by
  intro h
  cases h with
  | each cut => cases cut

private theorem Lens.removes_cons {op : LensOp} {lens : Lens} {path : Path} : Lens.Removes (op :: lens) path ↔
    op.Removes path ∨ ∃ next, op.route path = some next ∧ Lens.Removes lens next := by
  constructor
  · intro h
    cases h with
    | here h => exact .inl h
    | later moved h => exact .inr ⟨_, moved, h⟩
  · rintro (h | ⟨next, moved, h⟩)
    · exact .here h
    · exact .later moved h

mutual

theorem LensOp.route_eq_none_iff (op : LensOp) (hop : op.isStructural = true) (path : Path) :
    op.route path = none ↔ op.Removes path := by
  match path with
  | [] => simp [LensOp.not_removes_root]
  | token :: rest =>
  match op with
  | .rename (.str _) (.str _) => exact ⟨fun h => by simp [LensOp.route_rename] at h, fun h => by cases h⟩
  | .hoist (.str _) (.str _) => exact ⟨fun h => by simp [LensOp.route_hoist] at h, fun h => by cases h⟩
  | .plunge (.str _) (.str _) => exact ⟨fun h => by simp [LensOp.route_plunge] at h, fun h => by cases h⟩
  | .wrap (.str _) => exact ⟨fun h => by simp [LensOp.route_wrap] at h, fun h => by cases h⟩
  | .remove ⟨.str name, _, _, _, _⟩ =>
    rw [LensOp.route_remove rfl]
    constructor
    · intro h
      split at h
      · rename_i hname
        exact hname ▸ .remove rfl
      · cases h
    · intro h
      cases h with
      | remove hname => rw [if_pos (by simpa using hname)]
  | .inside (.str name) lens =>
    rw [LensOp.route_inside]
    constructor
    · intro h
      split at h
      · rename_i hname
        subst hname
        rw [Option.map_eq_none_iff, Lens.route_eq_none_iff lens hop] at h
        exact .inside h
      · cases h
    · intro h
      cases h with
      | inside below => rw [if_pos rfl, Option.map_eq_none_iff, Lens.route_eq_none_iff lens hop]; exact below
  | .each lens =>
    rw [LensOp.route]
    constructor
    · intro h
      split at h
      · cases h
      · rename_i above below hcut
        rw [Option.map_eq_none_iff, Lens.route_eq_none_iff lens hop] at h
        exact .each hcut h
    · intro h
      cases h with
      | each cut below => rw [cut]; simpa [Lens.route_eq_none_iff lens hop] using below

/-- A path loses its place in a lens exactly if a member on its way is removed. -/
theorem Lens.route_eq_none_iff (lens : Lens) (hlens : Lens.isStructural lens = true) (path : Path) :
    Lens.route path lens = none ↔ Lens.Removes lens path := by
  match lens with
  | [] =>
    constructor
    · intro h
      cases h
    · intro h
      cases h
  | op :: rest =>
    rw [Lens.isStructural, Bool.and_eq_true] at hlens
    rw [Lens.route, Option.bind_eq_none_iff, Lens.removes_cons, ← LensOp.route_eq_none_iff op hlens.1]
    cases hnext : op.route path with
    | none => simp
    | some next => simp [Lens.route_eq_none_iff rest hlens.2 next]

end

mutual

/-- Operations that move or remove members, whatever their names are. -/
def LensOp.isPlacing : LensOp → Bool
  | .rename _ _ => true
  | .hoist _ _ => true
  | .plunge _ _ => true
  | .wrap _ => true
  | .remove _ => true
  | .inside _ lens => Lens.isPlacing lens
  | .each lens => Lens.isPlacing lens
  | _ => false

def Lens.isPlacing : Lens → Bool
  | [] => true
  | op :: rest => op.isPlacing && Lens.isPlacing rest

end

mutual

theorem LensOp.isPlacing_of_isStructural (op : LensOp) (h : op.isStructural = true) : op.isPlacing = true := by
  match op with
  | .rename (.str _) (.str _) | .hoist (.str _) (.str _) | .plunge (.str _) (.str _) => rfl
  | .wrap (.str _) | .remove ⟨.str _, _, _, _, _⟩ => rfl
  | .inside (.str _) lens => exact Lens.isPlacing_of_isStructural lens h
  | .each lens => exact Lens.isPlacing_of_isStructural lens h

theorem Lens.isPlacing_of_isStructural (lens : Lens) (h : lens.isStructural = true) : lens.isPlacing = true := by
  match lens with
  | [] => rfl
  | op :: rest =>
    rw [Lens.isStructural, Bool.and_eq_true] at h
    rw [Lens.isPlacing, LensOp.isPlacing_of_isStructural op h.1, Lens.isPlacing_of_isStructural rest h.2]
    rfl

end

def LensOp.Renaming : LensOp → Path → Prop
  | .rename source _, path => path.startsWith source = true
  | _, _ => False

/-- Whether an operation makes the very value at a path the element of an array, which has none for null. -/
def LensOp.Wrapping : LensOp → Path → Prop
  | .wrap name, path => path.startsWith name = true ∧ path.tail = []
  | _, _ => False

mutual

inductive LensOp.Meets (sort : LensOp → Path → Prop) : LensOp → Path → Prop
  | here {op : LensOp} {path : Path} (h : sort op path) : LensOp.Meets sort op path
  | inside {name : Json} {lens : Lens} {path : Path} (starts : path.startsWith name = true)
    (below : Lens.Meets sort lens path.tail) : LensOp.Meets sort (.inside name lens) path
  | each {lens : Lens} {path above rest : Path} (cut : path.cutAtIndex? = some (above, rest))
    (below : Lens.Meets sort lens rest) : LensOp.Meets sort (.each lens) path

/-- Whether an operation of some sort in a lens meets a path, as the path is by then. -/
inductive Lens.Meets (sort : LensOp → Path → Prop) : Lens → Path → Prop
  | here {op : LensOp} {lens : Lens} {path : Path} (h : op.Meets sort path) : Lens.Meets sort (op :: lens) path
  | later {op : LensOp} {lens : Lens} {path next : Path} (moved : op.route path = some next)
    (h : Lens.Meets sort lens next) : Lens.Meets sort (op :: lens) path

end

mutual

theorem LensOp.not_wrapping_of_isMoving (op : LensOp) (h : op.isMoving = true) (path : Path) :
    ¬ op.Meets LensOp.Wrapping path := by
  intro hmeets
  match op with
  | .rename (.str _) (.str _) | .hoist (.str _) (.str _) | .plunge (.str _) (.str _) =>
    cases hmeets with
    | here h => exact h
  | .inside (.str _) lens =>
    cases hmeets with
    | here h => exact h
    | inside _ below => exact Lens.not_wrapping_of_isMoving lens h _ below
  | .each lens =>
    cases hmeets with
    | here h => exact h
    | each _ below => exact Lens.not_wrapping_of_isMoving lens h _ below

theorem Lens.not_wrapping_of_isMoving (lens : Lens) (h : lens.isMoving = true) (path : Path) :
    ¬ lens.Meets LensOp.Wrapping path := by
  intro hmeets
  match lens with
  | [] => cases hmeets
  | op :: rest =>
    rw [Lens.isMoving, Bool.and_eq_true] at h
    cases hmeets with
    | here hop => exact LensOp.not_wrapping_of_isMoving op h.1 path hop
    | later _ hrest => exact Lens.not_wrapping_of_isMoving rest h.2 _ hrest

end

mutual

theorem LensOp.take_eq_route (op : LensOp) (hop : op.isPlacing = true) {e : Edit} {path : Path}
    (hrenaming : e.written?.isSome = true ∨ ¬ op.Meets LensOp.Renaming path)
    (hwrapping : e.written? ≠ some .null ∨ ¬ op.Meets LensOp.Wrapping path) :
    op.take e path = .ok ((op.route path).map (e, ·)) := by
  match op with
  | .rename source destination =>
    rw [LensOp.take, LensOp.route, Option.map_some]
    by_cases hstarts : path.startsWith source = true
    · rw [hrenaming.resolve_right (not_not_intro (.here hstarts)), Bool.true_and]
    · rw [Bool.eq_false_iff.2 hstarts, Bool.and_false]
  | .hoist host name =>
    match path with
    | [] | [_] => rfl
    | outer :: inner :: rest => rfl
  | .plunge host name => rfl
  | .wrap name =>
    rw [LensOp.take, LensOp.route, Option.map_some]
    by_cases hstarts : path.startsWith name = true
    · have hkept : ¬ (e.written? = some .null ∧ path.tail = []) := fun ⟨hnull, htail⟩ =>
        hwrapping.elim (fun h => h hnull) fun h => h (.here ⟨hstarts, htail⟩)
      rw [if_pos hstarts, if_pos hstarts, if_neg hkept]
    · rw [if_neg hstarts, if_neg hstarts]
  | .remove property =>
    rw [LensOp.take, LensOp.route]
    split <;> rfl
  | .inside name lens =>
    rw [LensOp.take, LensOp.route]
    by_cases hstarts : path.startsWith name = true
    · rw [if_pos hstarts, if_pos hstarts, Lens.take_eq_route lens hop
        (hrenaming.imp_right fun h hmeets => h (.inside hstarts hmeets))
        (hwrapping.imp_right fun h hmeets => h (.inside hstarts hmeets)), behind_map]
      rfl
    · rw [if_neg hstarts, if_neg hstarts]
      rfl
  | .each lens =>
    rw [LensOp.take, LensOp.route]
    cases hcut : path.cutAtIndex? with
    | none => rfl
    | some cut =>
      obtain ⟨above, below⟩ := cut
      show behind above (Lens.take e below lens) = _
      rw [Lens.take_eq_route lens hop (hrenaming.imp_right fun h hmeets => h (.each hcut hmeets))
        (hwrapping.imp_right fun h hmeets => h (.each hcut hmeets)), behind_map]

/-- What a lens that moves and removes members makes of an edit is told by its path alone, so long as no
removal meets a renaming and no written null meets a wrapping. -/
theorem Lens.take_eq_route (lens : Lens) (hlens : lens.isPlacing = true) {e : Edit} {path : Path}
    (hrenaming : e.written?.isSome = true ∨ ¬ lens.Meets LensOp.Renaming path)
    (hwrapping : e.written? ≠ some .null ∨ ¬ lens.Meets LensOp.Wrapping path) :
    Lens.take e path lens = .ok ((Lens.route path lens).map (e, ·)) := by
  match lens with
  | [] => rfl
  | op :: rest =>
    rw [Lens.isPlacing, Bool.and_eq_true] at hlens
    rw [Lens.take, Lens.route, LensOp.take_eq_route op hlens.1
      (hrenaming.imp_right fun h hmeets => h (.here hmeets))
      (hwrapping.imp_right fun h hmeets => h (.here hmeets))]
    cases hnext : op.route path with
    | none => rfl
    | some next =>
      exact Lens.take_eq_route rest hlens.2 (hrenaming.imp_right fun h hmeets => h (.later hnext hmeets))
        (hwrapping.imp_right fun h hmeets => h (.later hnext hmeets))

end

def Routes (v : Json) (place : Option Path) (carried : Except Fault (Option PatchOp)) : Prop :=
  match place with
  | none => carried = .ok none
  | some path => ∃ q, carried = .ok (some q) ∧ q.Edits (.add v) path

/-- What a lens that moves and removes members makes of an addition is told by its path alone, unless null is
wrapped. -/
theorem Lens.routes (lens : Lens) (hlens : Lens.isStructural lens = true) {p : PatchOp} {v : Json}
    {path : Path} (hp : p.Edits (.add v) path) (hv : v.isNull = false ∨ lens.isMoving = true) :
    Routes v (Lens.route path lens) (Lens.carry p lens).outcome := by
  have hcomes := Lens.comes lens hp
  have hwrapping : (Edit.add v).written? ≠ some .null ∨ ¬ lens.Meets LensOp.Wrapping path := by
    refine hv.imp (fun hnull h => ?_) fun hmoving => Lens.not_wrapping_of_isMoving lens hmoving path
    rw [Json.isNull_iff.2 (Option.some.inj h)] at hnull
    cases hnull
  rw [Lens.take_eq_route lens (Lens.isPlacing_of_isStructural lens hlens) (.inl rfl) hwrapping] at hcomes
  generalize (Lens.carry p lens).outcome = carried at hcomes
  cases hplace : Lens.route path lens with
  | none =>
    rw [hplace] at hcomes
    cases hcomes
    rfl
  | some place =>
    rw [hplace] at hcomes
    cases hcomes with
    | carried hq => exact ⟨_, rfl, hq⟩

end EditLens
