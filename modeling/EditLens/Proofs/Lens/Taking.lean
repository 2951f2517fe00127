import EditLens.Proofs.Lens.Convert

/-! Lenses on edits, apart from how operations are written. Main statement: what comes out of a lens for an
operation is an operation for what the lens makes of its edit, and there is no failure but that a table does
not cover a value. -/
namespace EditLens

def behind (above : Path) (taken : Except Fault (Option (Edit × Path))) :
    Except Fault (Option (Edit × Path)) :=
  taken.map fun left => left.map fun change => (change.1, above ++ change.2)

theorem left_inj {e e' : Edit} {path path' : Path}
    (h : (Except.ok (some (e, path)) : Except Fault (Option (Edit × Path))) = .ok (some (e', path'))) :
    e = e' ∧ path = path' :=
  Prod.mk.inj (Option.some.inj (Except.ok.inj h))

namespace LensOp

def takeHead (name : Json) (e : Edit) (path : Path) : Option (Edit × Path) :=
  match path with
  | token :: "0" :: below =>
    if name.isText token then
      some (if e = .remove ∧ below = [] then .replace .null else e, name.plain :: below)
    else some (e, path)
  | token :: _ => if name.isText token then none else some (e, path)
  | [] => some (e, path)

def takeConvert (name : Json) (mapping : Mapping) (e : Edit) (path : Path) :
    Except Fault (Option (Edit × Path)) :=
  match e.written?, path with
  | some v, [token] =>
    if name.isText token then
      match mapping.recode? v with
      | some w => .ok (some (e.withValue w, path))
      | none => .error (.unmapped v.entry)
    else .ok (some (e, path))
  | _, _ => .ok (some (e, path))

end LensOp

mutual

/-- What an operation makes of an edit at a path. -/
def LensOp.take (e : Edit) (path : Path) : LensOp → Except Fault (Option (Edit × Path))
  | .rename source destination =>
    .ok (some (e, if e.written?.isSome && path.startsWith source then destination.plain :: path.tail
      else path))
  | .hoist host name =>
    match path with
    | outer :: inner :: rest =>
      .ok (some (e, if host.isText outer && name.isText inner then inner :: rest else path))
    | _ => .ok (some (e, path))
  | .plunge host name => .ok (some (e, if path.startsWith name then host.plain :: path else path))
  | .wrap name =>
    .ok (some (if path.startsWith name then
      (if e.written? = some .null ∧ path.tail = [] then .remove else e, name.plain :: "0" :: path.tail)
      else (e, path)))
  | .head name => .ok (LensOp.takeHead name e path)
  | .add _ => .ok (some (e, path))
  | .remove property => .ok (if path.startsWith property.name then none else some (e, path))
  | .convert name mapping _ _ => LensOp.takeConvert name mapping e path
  | .inside name lens =>
    if path.startsWith name then behind [name.plain] (Lens.take e path.tail lens)
    else .ok (some (e, path))
  | .each lens =>
    match path.cutAtIndex? with
    | none => .ok (some (e, path))
    | some (above, below) => behind above (Lens.take e below lens)

def Lens.take (e : Edit) (path : Path) : Lens → Except Fault (Option (Edit × Path))
  | [] => .ok (some (e, path))
  | op :: rest => do
    match ← op.take e path with
    | none => return none
    | some (e, path) => Lens.take e path rest

end

section Take

attribute [local simp] LensOp.take

variable {e : Edit} {token source destination host name : String} {path rest : Path} {lens : Lens}

@[simp] theorem behind_nil (taken : Except Fault (Option (Edit × Path))) : behind [] taken = taken := by
  rcases taken with fault | _ | ⟨e, path⟩ <;> rfl

theorem behind_map (above : Path) (place : Option Path) : behind above (.ok (place.map (e, ·))) =
    .ok ((place.map (above ++ ·)).map (e, ·)) := by
  cases place <;> rfl

theorem behind_append (above below : Path) (taken : Except Fault (Option (Edit × Path))) :
    behind (above ++ below) taken = behind above (behind below taken) := by
  rcases taken with fault | _ | ⟨e, path⟩
  · rfl
  · rfl
  · simp [behind, Except.map]

@[simp] theorem LensOp.take_root (op : LensOp) : op.take e [] = .ok (some (e, [])) := by
  cases op with
  | rename => simp [LensOp.take, Path.startsWith]
  | convert =>
    rw [LensOp.take, LensOp.takeConvert]
    simp
  | _ => rfl

@[simp] theorem Lens.take_root (lens : Lens) : Lens.take e [] lens = .ok (some (e, [])) := by
  induction lens with
  | nil => rfl
  | cons op rest ih =>
    rw [Lens.take, LensOp.take_root]
    exact ih

theorem LensOp.take_rename : (LensOp.rename (.str source) (.str destination)).take e (token :: rest) =
    .ok (some (e, if e.written?.isSome ∧ source = token then destination :: rest else token :: rest)) := by
  simp only [LensOp.take, Path.startsWith_cons, Bool.and_eq_true, decide_eq_true_eq, Json.plain_str,
    List.tail_cons]

theorem LensOp.take_hoist : (LensOp.hoist (.str host) (.str name)).take e (token :: rest) =
    .ok (some (e, if host = token ∧ rest.head? = some name then rest else token :: rest)) := by
  cases rest with
  | nil => simp only [LensOp.take, List.head?_nil, reduceCtorEq, and_false, if_false]
  | cons inner below =>
    simp only [LensOp.take, Json.isText_str, Bool.and_eq_true, decide_eq_true_eq, List.head?_cons,
      Option.some.injEq, @eq_comm _ inner name]

theorem LensOp.take_plunge : (LensOp.plunge (.str host) (.str name)).take e (token :: rest) =
    .ok (some (e, if name = token then host :: token :: rest else token :: rest)) := by
  simp only [LensOp.take, Path.startsWith_cons, decide_eq_true_eq, Json.plain_str]

theorem LensOp.take_wrap : (LensOp.wrap (.str name)).take e (token :: rest) =
    .ok (some (if name = token then
      (if e.written? = some .null ∧ rest = [] then .remove else e, name :: "0" :: rest)
      else (e, token :: rest))) := by
  simp only [LensOp.take, Path.startsWith_cons, decide_eq_true_eq, Json.plain_str, List.tail_cons]
  rfl

theorem LensOp.take_remove {property : Property} (hname : property.name = .str name) :
    (LensOp.remove property).take e (token :: rest) =
      .ok (if name = token then none else some (e, token :: rest)) := by
  simp only [LensOp.take, hname, Path.startsWith_cons, decide_eq_true_eq]

theorem LensOp.take_convert_of_ne (hne : name ≠ token) (mapping : Mapping) (s d : Json) :
    (LensOp.convert (.str name) mapping s d).take e (token :: rest) = .ok (some (e, token :: rest)) := by
  cases hw : e.written? <;> cases rest <;> simp [LensOp.take, LensOp.takeConvert, hw, hne]

theorem LensOp.take_convert_self {v : Json} (hv : e.written? = some v) (mapping : Mapping) (s d : Json) :
    (LensOp.convert (.str name) mapping s d).take e [name] =
      match mapping.recode? v with
      | some w => .ok (some (e.withValue w, [name]))
      | none => .error (.unmapped v.entry) := by
  simp only [LensOp.take, LensOp.takeConvert, hv, Json.isText_str, decide_true, if_true]

theorem LensOp.take_inside : (LensOp.inside (.str name) lens).take e (token :: rest) =
    if name = token then behind [name] (Lens.take e rest lens) else .ok (some (e, token :: rest)) := by
  simp only [LensOp.take, Path.startsWith_cons, decide_eq_true_eq, Json.plain_str, List.tail_cons]

/-- In an array, an index comes first; the element itself stays at its index. -/
theorem LensOp.take_each (i : Nat) : (LensOp.each lens).take e (i.repr :: rest) =
    behind [i.repr] (Lens.take e rest lens) := by
  cases rest with
  | nil =>
    rw [Lens.take_root]
    rfl
  | cons next below => simp only [LensOp.take, Path.cutAtIndex?_repr]

theorem Lens.take_append (first second : Lens) : Lens.take e path (first ++ second) = (do
    match ← Lens.take e path first with
    | none => return none
    | some (e, path) => Lens.take e path second) := by
  induction first generalizing e path with
  | nil => rfl
  | cons op rest ih =>
    rw [List.cons_append, Lens.take, Lens.take]
    rcases op.take e path with fault | _ | ⟨e', path'⟩
    · rfl
    · rfl
    · exact ih

@[simp] theorem Lens.take_singleton (op : LensOp) : Lens.take e path [op] = op.take e path := by
  rw [Lens.take]
  rcases op.take e path with fault | _ | ⟨e', path'⟩ <;> rfl

/-- Behind a place that is not the root, no edit is at the root. -/
private theorem ne_nil_of_behind {e' : Edit} {above path' : Path}
    {taken : Except Fault (Option (Edit × Path))} (h : behind above taken = .ok (some (e', path')))
    (habove : above ≠ []) : path' ≠ [] := by
  rcases taken with fault | _ | ⟨e'', below⟩
  · cases h
  · cases h
  · obtain ⟨-, rfl⟩ := left_inj h
    simp [habove]

/-- Below the root, what is left of an edit is below the root. -/
private theorem LensOp.ne_nil_of_take {op : LensOp} {e' : Edit} {path' : Path} (hpath : path ≠ [])
    (h : op.take e path = .ok (some (e', path'))) : path' ≠ [] := by
  obtain ⟨token, rest, rfl⟩ := List.exists_cons_of_ne_nil hpath
  have hpure : ∀ {change : Edit × Path}, Except.ok (ε := Fault) (some change) = .ok (some (e', path')) →
      change.2 = path' := fun h => congrArg Prod.snd (Option.some.inj (Except.ok.inj h))
  cases op with
  | rename source destination =>
    rw [← hpure h]
    split <;> simp
  | hoist host name =>
    cases rest with
    | nil => simp [← hpure h]
    | cons inner below =>
      rw [← hpure h]
      split <;> simp
  | plunge host name =>
    rw [← hpure h]
    split <;> simp
  | wrap name =>
    rw [← hpure h]
    split <;> simp
  | head name =>
    have hhead := Except.ok.inj h
    unfold takeHead at hhead
    repeat' split at hhead
    all_goals simp_all
    all_goals simp [← hhead.2]
  | add property => simp [← hpure h]
  | remove property =>
    rw [LensOp.take] at h
    split at h
    · cases h
    · simp [← hpure h]
  | convert name mapping s d =>
    rw [LensOp.take, takeConvert.eq_def] at h
    repeat' split at h
    all_goals cases h
    all_goals simp_all
  | inside name lens =>
    rw [LensOp.take] at h
    split at h
    · exact ne_nil_of_behind h (by simp)
    · simp [← hpure h]
  | each lens =>
    rw [LensOp.take] at h
    cases hcut : Path.cutAtIndex? (token :: rest) with
    | none =>
      rw [hcut] at h
      simp [← hpure h]
    | some cut =>
      rw [hcut] at h
      exact ne_nil_of_behind h (Path.cutAtIndex?_ne_nil hcut)

theorem Lens.ne_nil_of_take {e' : Edit} {path' : Path} (hpath : path ≠ [])
    (h : Lens.take e path lens = .ok (some (e', path'))) : path' ≠ [] := by
  induction lens generalizing e path with
  | nil =>
    obtain ⟨-, rfl⟩ := left_inj h
    exact hpath
  | cons op rest ih =>
    rw [Lens.take] at h
    cases htake : op.take e path with
    | error fault => rw [htake] at h; cases h
    | ok left =>
      rw [htake] at h
      cases left with
      | none => cases h
      | some change => exact ih (LensOp.ne_nil_of_take hpath htake) h

end Take

/-- An operation comes out as one for the edit that is left. -/
inductive Comes : Except Fault (Option (Edit × Path)) → Except Fault (Option PatchOp) → Prop
  | dropped : Comes (.ok none) (.ok none)
  | carried {q : PatchOp} {e : Edit} {path : Path} (edits : q.Edits e path) :
    Comes (.ok (some (e, path))) (.ok (some q))
  | unmapped (key : String) : Comes (.error (.unmapped key)) (.error (.unmapped key))

theorem PatchOp.edits_remove (path : Path) : (PatchOp.remove path).Edits .remove path :=
  ⟨edit_remove, by simp [PatchOp.path, remove, Members.demand, Members.get?_cons]⟩

section Carrying

variable {p : PatchOp} {e : Edit} {path : Path}

private theorem comes_wrap (hp : p.Edits e path) (name : Json) :
    Comes ((LensOp.wrap name).take e path) (LensOp.carryWrap name p path) := by
  cases path with
  | nil => exact .carried hp
  | cons token below =>
    simp only [LensOp.carryWrap, LensOp.take, Path.startsWith, PatchOp.verb_of_edit hp.edit, Except.bind_ok]
    by_cases hname : name.isText token = true
    · simp only [hname, Bool.not_true, Bool.false_eq_true, if_false, if_true, Edit.writes_verb]
      have hnull : (e.written?.isSome && p.value.isNull && below.isEmpty) = true ↔
          e.written? = some .null ∧ below = [] := by
        cases hw : e.written? with
        | none => simp
        | some v =>
          rw [PatchOp.value_of_edit hp.edit hw, Option.isSome_some, Bool.true_and, Bool.and_eq_true,
            List.isEmpty_iff, Option.some.injEq, Json.isNull_iff]
      by_cases hremoves : e.written? = some .null ∧ below = []
      · rw [if_pos (hnull.2 hremoves), List.tail_cons, if_pos hremoves]
        exact .carried (PatchOp.edits_remove _)
      · rw [if_neg (hnull.not.2 hremoves), List.tail_cons, if_neg hremoves]
        exact .carried (hp.withPath _)
    · simp only [hname, Bool.not_false, if_true]
      exact .carried hp

private theorem comes_head (hp : p.Edits e path) (name : Json) :
    Comes ((LensOp.head name).take e path) (LensOp.carryHead name p path) := by
  rw [LensOp.take]
  unfold LensOp.carryHead
  split
  · rename_i token below
    rw [LensOp.takeHead]
    by_cases hname : name.isText token = true
    · simp only [hname, Bool.not_true, Bool.false_eq_true, if_false, if_true, PatchOp.verb_of_edit hp.edit,
        Except.bind_ok]
      cases e with
      | add v =>
        rw [PatchOp.value_of_edit hp.edit rfl]
        exact .carried (PatchOp.Writes.anew .add _ _).edits
      | replace v =>
        rw [PatchOp.value_of_edit hp.edit rfl]
        exact .carried (PatchOp.Writes.anew .replace _ _).edits
      | remove =>
        cases below with
        | nil => exact .carried (PatchOp.Writes.anew .replace _ _).edits
        | cons next below => exact .carried (hp.withPath _)
    · simp only [hname, Bool.not_false, if_true]
      exact .carried hp
  · rename_i token rest hfirst
    rw [LensOp.takeHead.eq_2 _ _ _ _ hfirst]
    split
    · exact .dropped
    · exact .carried hp
  · exact .carried hp

private theorem comes_convert (hp : p.Edits e path) (name : Json) (mapping : Mapping) :
    Comes (LensOp.takeConvert name mapping e path) (LensOp.carryConvert name mapping p path) := by
  simp only [LensOp.carryConvert, LensOp.takeConvert, PatchOp.verb_of_edit hp.edit, Except.bind_ok,
    Edit.writes_verb]
  cases hwritten : e.written? with
  | none => exact .carried hp
  | some v =>
    simp only [Option.isSome_some, Bool.not_true, Bool.false_eq_true, if_false, PatchOp.value_of_edit hp.edit hwritten]
    rcases path with _ | ⟨token, _ | ⟨next, rest⟩⟩
    · exact .carried hp
    · by_cases hname : name.isText token = true
      · simp only [hname, Bool.not_true, Bool.false_eq_true, if_false, if_true]
        cases mapping.recode? v with
        | none => exact .unmapped _
        | some w => exact .carried (hp.withValue (by simp [hwritten]) _)
      · simp only [hname, Bool.not_false, if_true]
        exact .carried hp
    · exact .carried hp

/-- An operation without a lens of its own fails on a value that its table does not cover alone. -/
private theorem comes_flat (hp : p.Edits e path) (op : LensOp)
    (hflat : ∀ lens, op ≠ .each lens ∧ ∀ name, op ≠ .inside name lens) :
    Comes (op.take e path) (op.carryFlat p path) := by
  have hverb := PatchOp.verb_of_edit hp.edit
  cases op with
  | rename source destination =>
    simp only [LensOp.carryFlat, LensOp.take, hverb, Except.bind_ok, Edit.writes_verb]
    split
    · exact .carried (hp.withPath _)
    · exact .carried hp
  | hoist host name =>
    match path with
    | [] => exact .carried hp
    | [_] => exact .carried hp
    | outer :: inner :: rest =>
      simp only [LensOp.carryFlat, LensOp.take]
      by_cases hmoves : (host.isText outer && name.isText inner) = true
      · rw [if_pos hmoves, if_pos hmoves]
        exact .carried (hp.withPath _)
      · rw [if_neg hmoves, if_neg hmoves]
        exact .carried hp
  | plunge host name =>
    simp only [LensOp.carryFlat, LensOp.take]
    split
    · exact .carried (hp.withPath _)
    · exact .carried hp
  | wrap name => exact comes_wrap hp name
  | head name => exact comes_head hp name
  | remove property =>
    simp only [LensOp.carryFlat, LensOp.take, hverb, Except.bind_ok]
    cases e with
    | _ =>
      simp only [Edit.verb]
      split
      · exact .dropped
      · exact .carried hp
  | convert name mapping source destination => exact comes_convert hp name mapping
  | add property => exact .carried hp
  | inside name lens => exact absurd rfl ((hflat lens).2 name)
  | each lens => exact absurd rfl (hflat lens).1

/-- What comes out below a place is put back behind the place. -/
private theorem Comes.behind {taken : Except Fault (Option (Edit × Path))}
    {carried : Except Fault (Option PatchOp)} (h : Comes taken carried) (above : Path) :
    Comes (behind above taken) (do
      match ← carried with
      | none => return none
      | some q => return some (q.withPath (above ++ (← q.path)))) := by
  cases h with
  | dropped => exact .dropped
  | unmapped key => exact .unmapped key
  | carried hq =>
    simp only [Except.bind_ok, hq.path]
    exact .carried (hq.withPath _)

end Carrying

mutual

theorem LensOp.comes (op : LensOp) {p : PatchOp} {e : Edit} {path : Path} (hp : p.Edits e path) :
    Comes (op.take e path) (LensOp.carry p path op).outcome := by
  match op with
  | .inside name lens =>
    rw [LensOp.take]
    by_cases hname : path.startsWith name = true
    · rw [if_pos hname, LensOp.outcome_carry_within lens hname]
      exact (Lens.comes lens (hp.withPath path.tail)).behind [name.plain]
    · rw [if_neg hname, LensOp.outcome_carry_inside_of_not lens hname]
      exact .carried hp
  | .each lens =>
    rw [LensOp.outcome_carry_each, LensOp.take]
    cases hcut : path.cutAtIndex? with
    | none => exact .carried hp
    | some cut => exact (Lens.comes lens (hp.withPath cut.2)).behind cut.1
  | .rename _ _ | .hoist _ _ | .plunge _ _ | .wrap _ | .head _ | .add _ | .remove _ |
      .convert _ _ _ _ =>
    simp only [LensOp.carry, Noted.outcome_liftM]
    exact comes_flat hp _ (by simp)

/-- What comes out of a lens is what it makes of the edit. -/
theorem Lens.comes (lens : Lens) {p : PatchOp} {e : Edit} {path : Path} (hp : p.Edits e path) :
    Comes (Lens.take e path lens) (Lens.carry p lens).outcome := by
  match lens with
  | [] => exact .carried hp
  | op :: rest =>
    rw [Lens.outcome_carry_cons hp.path, Lens.take]
    have h := LensOp.comes op hp
    generalize op.take e path = taken, (LensOp.carry p path op).outcome = carried at h
    cases h with
    | dropped => exact .dropped
    | carried hq => exact Lens.comes rest hq
    | unmapped key => exact .unmapped key

end

end EditLens
