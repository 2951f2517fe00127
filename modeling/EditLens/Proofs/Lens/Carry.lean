import EditLens.Proofs.Patch.Written

/-! What one lens operation makes of an edit, by the tokens of its path. Main statements: one
equation for each operation, and an edit of the whole document comes through every lens as it is. -/
namespace EditLens

variable {p : PatchOp} {e : Edit} {path : Path}

@[simp] theorem Path.startsWith_nil (name : Json) : Path.startsWith [] name = false := rfl

@[simp] theorem Path.startsWith_cons (token : String) (rest : Path) (name : String) :
    Path.startsWith (token :: rest) (.str name) = decide (name = token) := rfl

@[simp] theorem Path.cutAtIndex?_singleton (token : String) : Path.cutAtIndex? [token] = none := rfl

@[simp] theorem Path.cutAtIndex?_repr (i : Nat) (next : String) (below : Path) :
    Path.cutAtIndex? (i.repr :: next :: below) = some ([i.repr], next :: below) := by
  rw [Path.cutAtIndex?, if_pos (Pointer.isIndex_repr i)]

theorem Path.cutAtIndex?_ne_nil {path above below : Path} (h : path.cutAtIndex? = some (above, below)) :
    above ≠ [] := by
  cases path with
  | nil => cases h
  | cons token rest =>
  cases rest with
  | nil => cases h
  | cons next rest =>
  rw [Path.cutAtIndex?] at h
  split at h
  · obtain ⟨rfl, -⟩ := Prod.mk.inj (Option.some.inj h)
    simp
  · obtain ⟨cut, -, hpair⟩ := Option.map_eq_some_iff.1 h
    obtain ⟨rfl, -⟩ := Prod.mk.inj hpair
    simp

/-- A path is cut into what is above an index, the index included, and something below it. -/
theorem Path.cutAtIndex?_eq_some {path above below : Path}
    (h : path.cutAtIndex? = some (above, below)) : path = above ++ below ∧ below ≠ [] ∧
      ∀ {other : Path}, other ≠ [] → Path.cutAtIndex? (above ++ other) = some (above, other) := by
  induction path generalizing above with
  | nil => cases h
  | cons token rest ih =>
  cases rest with
  | nil => cases h
  | cons next rest =>
  rw [Path.cutAtIndex?] at h
  split at h
  · rename_i hindex
    obtain ⟨rfl, rfl⟩ := Prod.mk.inj (Option.some.inj h)
    refine ⟨rfl, by simp, fun {other} hother => ?_⟩
    obtain ⟨first, others, rfl⟩ := List.exists_cons_of_ne_nil hother
    rw [List.singleton_append, Path.cutAtIndex?, if_pos hindex]
  · rename_i hindex
    obtain ⟨⟨front, back⟩, hcut, hpair⟩ := Option.map_eq_some_iff.1 h
    obtain ⟨rfl, rfl⟩ := Prod.mk.inj hpair
    obtain ⟨hpath, hback, hfront⟩ := ih hcut
    refine ⟨by rw [hpath]; rfl, hback, fun {other} hother => ?_⟩
    obtain ⟨first, others, hcons⟩ := List.exists_cons_of_ne_nil (l := front ++ other)
      (List.append_ne_nil_of_right_ne_nil front hother)
    rw [List.cons_append, hcons, Path.cutAtIndex?, if_neg hindex, ← hcons, hfront hother]
    rfl

/-- A table gives no values but those of its rows. -/
theorem Mapping.exists_of_recode {mapping : Mapping} {v w : Json} (h : mapping.recode? v = some w) :
    ∃ m ∈ mapping.forward, m.2 = w := by
  rcases Members.exists_of_putAll h with ⟨entry, hentry, rfl⟩ | hnone
  · obtain ⟨m, hm, rfl⟩ := List.mem_map.1 hentry
    exact ⟨m, hm, rfl⟩
  · cases hnone

namespace LensOp

attribute [local simp] LensOp.carry carryFlat

/-- What an operation without a lens of its own does. -/
theorem outcome_carry_flat (op : LensOp) (hinside : ∀ name lens, op ≠ .inside name lens)
    (heach : ∀ lens, op ≠ .each lens) : (LensOp.carry p path op).outcome = op.carryFlat p path := by
  cases op with
  | inside name lens => exact absurd rfl (hinside name lens)
  | each lens => exact absurd rfl (heach lens)
  | _ => exact Noted.outcome_liftM _

theorem outcome_carry_rename (h : p.edit = .ok e) (source destination token : String)
    (rest : Path) :
    (LensOp.carry p (token :: rest) (.rename (.str source) (.str destination))).outcome =
      .ok (some (if e.written?.isSome && decide (source = token) then p.withPath (destination :: rest)
        else p)) := by
  rw [outcome_carry_flat (.rename _ _) nofun nofun]
  simp only [carryFlat, PatchOp.verb_of_edit h, bind, Except.bind, Edit.writes_verb,
    Path.startsWith_cons, List.tail_cons, Json.plain_str]
  split <;> rfl

theorem outcome_carry_hoist (host name token : String) (rest : Path) :
    (LensOp.carry p (token :: rest) (.hoist (.str host) (.str name))).outcome =
      .ok (some (if host = token ∧ rest.head? = some name then p.withPath rest else p)) := by
  rw [outcome_carry_flat (.hoist _ _) nofun nofun]
  cases rest with
  | nil =>
    simp [carryFlat]
    rfl
  | cons inner below =>
    simp only [carryFlat, Json.isText_str, List.tail_cons, List.head?_cons, Option.some.injEq]
    by_cases hhost : host = token
    · by_cases hname : name = inner
      · simp [hhost, hname]; rfl
      · simp [hhost, hname, Ne.symm hname]; rfl
    · simp [hhost]; rfl

theorem outcome_carry_plunge (host name token : String) (rest : Path) :
    (LensOp.carry p (token :: rest) (.plunge (.str host) (.str name))).outcome =
      .ok (some (if name = token then p.withPath (host :: token :: rest) else p)) := by
  rw [outcome_carry_flat (.plunge _ _) nofun nofun]
  simp only [carryFlat, Path.startsWith_cons, Json.plain_str, decide_eq_true_eq]
  rfl

/-- Writing null empties the array; all else goes on below the one element. -/
theorem outcome_carry_wrap (h : p.edit = .ok e) (name token : String) (rest : Path) :
    (LensOp.carry p (token :: rest) (.wrap (.str name))).outcome =
      .ok (some (if name = token then
        if e.written?.isSome && p.value.isNull && rest.isEmpty then .remove (name :: "0" :: rest)
        else p.withPath (name :: "0" :: rest)
      else p)) := by
  rw [outcome_carry_flat (.wrap _) nofun nofun]
  simp only [carryFlat, carryWrap, PatchOp.verb_of_edit h, Json.isText_str, Json.plain_str,
    Edit.writes_verb, bind, Except.bind]
  by_cases hname : name = token
  · simp only [hname, decide_true, Bool.not_true, Bool.false_eq_true, if_false, if_true]
    split <;> rfl
  · simp [hname]
    rfl

theorem outcome_carry_head_of_ne {name token : String} (hne : name ≠ token) (rest : Path) :
    (LensOp.carry p (token :: rest) (.head (.str name))).outcome = .ok (some p) := by
  rw [outcome_carry_flat (.head _) nofun nofun]
  simp only [carryFlat]
  unfold carryHead
  split
  · rename_i heq
    obtain ⟨rfl, rfl⟩ := List.cons.inj heq
    simp [hne]
    rfl
  · rename_i heq
    obtain ⟨rfl, rfl⟩ := List.cons.inj heq
    simp [hne]
    rfl
  · rfl

/-- Nothing is seen of the array but what is below its first element. -/
theorem outcome_carry_head_beside {next : String} (hne : next ≠ "0") (name : String) (rest : Path) :
    (LensOp.carry p (name :: next :: rest) (.head (.str name))).outcome = .ok none := by
  rw [outcome_carry_flat (.head _) nofun nofun]
  simp only [carryFlat]
  unfold carryHead
  split
  · rename_i heq
    simp only [List.cons.injEq] at heq
    exact absurd heq.2.1 hne
  · rename_i heq
    obtain ⟨rfl, -⟩ := List.cons.inj heq
    simp
    rfl
  · rename_i heq
    cases heq

/-- A write below the first element is made anew below the scalar. -/
theorem outcome_carry_head_first {w : Write} {v : Json} (h : p.edit = .ok (w.edit v))
    (name : String) (rest : Path) :
    (LensOp.carry p (name :: "0" :: rest) (.head (.str name))).outcome =
      .ok (some (.anew w.name v (name :: rest))) := by
  rw [outcome_carry_flat (.head _) nofun nofun]
  simp only [carryFlat, carryHead, PatchOp.verb_of_edit h,
    PatchOp.value_of_edit h (w.written?_edit v), Json.isText_str, Json.plain_str, bind, Except.bind]
  cases w <;> simp [Write.edit, Edit.verb, Write.name] <;> rfl

theorem outcome_carry_remove (h : p.edit = .ok e) (property : Property) (name token : String)
    (rest : Path) (hname : property.name = .str name) :
    (LensOp.carry p (token :: rest) (.remove property)).outcome =
      .ok (if name = token then none else some p) := by
  rw [outcome_carry_flat (.remove _) nofun nofun]
  simp only [carryFlat, PatchOp.verb_of_edit h, bind, Except.bind, hname, Path.startsWith_cons,
    decide_eq_true_eq]
  cases e <;> rfl

theorem outcome_carry_add (property : Property) :
    (LensOp.carry p path (.add property)).outcome = .ok (some p) := by
  rw [outcome_carry_flat (.add _) nofun nofun]
  simp only [carryFlat]
  rfl

/-- A conversion is about writes at its member alone. -/
theorem outcome_carry_convert_of_ne (h : p.edit = .ok e) {name : String} (mapping : Mapping)
    (source destination : Json) (hne : e.written?.isSome = true → path ≠ [name]) :
    (LensOp.carry p path (.convert (.str name) mapping source destination)).outcome =
      .ok (some p) := by
  rw [outcome_carry_flat (.convert _ _ _ _) nofun nofun]
  simp only [carryFlat, carryConvert, PatchOp.verb_of_edit h, bind, Except.bind, Edit.writes_verb]
  cases hw : e.written?.isSome with
  | false => rfl
  | true =>
    rcases path with _ | ⟨token, _ | ⟨next, below⟩⟩
    · rfl
    · have hname : name ≠ token := fun he => hne hw (by rw [he])
      simp [hname]
      rfl
    · rfl

theorem outcome_carry_convert_self (h : p.edit = .ok e) (name : String) (mapping : Mapping)
    (source destination : Json) {v : Json} (hv : e.written? = some v) :
    (LensOp.carry p [name] (.convert (.str name) mapping source destination)).outcome =
      match mapping.recode? v with
      | some w => .ok (some (p.withValue w))
      | none => .error (.unmapped v.entry) := by
  rw [outcome_carry_flat (.convert _ _ _ _) nofun nofun]
  simp only [carryFlat, carryConvert, PatchOp.verb_of_edit h,
    bind, Except.bind, Edit.writes_verb, hv, PatchOp.value_of_edit h hv]
  cases mapping.recode? v <;> simp <;> rfl

/-- A lens for a member sees what is below the member, and the member is put back on what comes out. -/
theorem outcome_carry_within {name : Json} (lens : Lens) (hname : path.startsWith name = true) :
    (LensOp.carry p path (.inside name lens)).outcome = (do
      match ← (Lens.carry (p.withPath path.tail) lens).outcome with
      | none => return none
      | some q => return some (q.withPath (name.plain :: (← q.path)))) := by
  simp only [LensOp.carry, hname, Bool.not_true, Bool.false_eq_true, if_false, Noted.outcome_bind]
  congr 1
  funext found
  cases found with
  | none => rfl
  | some q => simp only [Noted.outcome_bind, Noted.outcome_liftM, Noted.outcome_pure]; rfl

theorem outcome_carry_inside_of_not {name : Json} (lens : Lens) (hname : ¬ path.startsWith name = true) :
    (LensOp.carry p path (.inside name lens)).outcome = .ok (some p) := by
  rw [LensOp.carry, if_pos (by simpa using hname)]
  rfl

theorem outcome_carry_inside (name token : String) (rest : Path) (lens : Lens) :
    (LensOp.carry p (token :: rest) (.inside (.str name) lens)).outcome =
      if name = token then do
        match ← (Lens.carry (p.withPath rest) lens).outcome with
        | none => return none
        | some q => return some (q.withPath (name :: (← q.path)))
      else .ok (some p) := by
  split
  · exact outcome_carry_within lens (by simpa)
  · exact outcome_carry_inside_of_not lens (by simpa)

theorem outcome_carry_each (lens : Lens) :
    (LensOp.carry p path (.each lens)).outcome =
      match path.cutAtIndex? with
      | none => .ok (some p)
      | some (above, below) => do
        match ← (Lens.carry (p.withPath below) lens).outcome with
        | none => return none
        | some q => return some (q.withPath (above ++ (← q.path))) := by
  simp only [LensOp.carry]
  cases path.cutAtIndex? with
  | none => rfl
  | some cut =>
    obtain ⟨above, below⟩ := cut
    simp only [Noted.outcome_bind]
    congr 1
    funext found
    cases found with
    | none => rfl
    | some q => simp only [Noted.outcome_bind, Noted.outcome_liftM, Noted.outcome_pure]; rfl

/-- No operation is about the whole document. -/
theorem outcome_carry_root (h : p.edit = .ok e) (op : LensOp) :
    (LensOp.carry p [] op).outcome = .ok (some p) := by
  have hverb := PatchOp.verb_of_edit h
  cases op with
  | rename s d =>
    rw [outcome_carry_flat (.rename s d) nofun nofun]
    simp [carryFlat, hverb, bind, Except.bind, pure, Except.pure]
  | remove property =>
    rw [outcome_carry_flat (.remove property) nofun nofun]
    simp only [carryFlat, hverb, bind, Except.bind]
    cases e <;> rfl
  | convert name mapping source destination =>
    rw [outcome_carry_flat (.convert name mapping source destination) nofun nofun]
    simp only [carryFlat, carryConvert, hverb, bind, Except.bind]
    cases e <;> rfl
  | inside name lens => simp [LensOp.carry]
  | _ => rfl

end LensOp

namespace Lens

@[simp] theorem outcome_carry_nil : (Lens.carry p []).outcome = .ok (some p) := rfl

theorem outcome_carry_cons (hpath : p.path = .ok path) (op : LensOp) (rest : Lens) :
    (Lens.carry p (op :: rest)).outcome = (do
      match ← (LensOp.carry p path op).outcome with
      | none => return none
      | some q => (Lens.carry q rest).outcome) := by
  simp only [Lens.carry, Noted.outcome_bind, Noted.outcome_liftM, hpath]
  show ((LensOp.carry p path op).outcome >>= _) = _
  congr 1
  funext found
  cases found with
  | none => simp [bind, pure, Except.pure]
  | some q => rfl

theorem outcome_carry_append (first second : Lens) :
    (Lens.carry p (first ++ second)).outcome = (do
      match ← (Lens.carry p first).outcome with
      | none => return none
      | some q => (Lens.carry q second).outcome) := by
  induction first generalizing p with
  | nil => rfl
  | cons op rest ih =>
    cases hpath : p.path with
    | error fault =>
      simp [Lens.carry, hpath, bind, Except.bind]
    | ok path =>
      rw [List.cons_append, outcome_carry_cons hpath, outcome_carry_cons hpath]
      cases (LensOp.carry p path op).outcome with
      | error fault => rfl
      | ok found =>
        cases found with
        | none => rfl
        | some q => exact ih

theorem outcome_carry_root (h : p.edit = .ok e) (hpath : p.path = .ok []) (lens : Lens) :
    (Lens.carry p lens).outcome = .ok (some p) := by
  induction lens with
  | nil => rfl
  | cons op rest ih =>
    rw [outcome_carry_cons hpath, LensOp.outcome_carry_root h]
    exact ih

/-- A conversion alone gives the write of what its table gives. -/
theorem outcome_carry_convert {name : String} {mapping : Mapping} {v w : Json} (h : p.Edits e [name])
    (hv : e.written? = some v) (hrecode : mapping.recode? v = some w) (source destination : Json) :
    (Lens.carry p [.convert (.str name) mapping source destination]).outcome = .ok (some (p.withValue w)) := by
  rw [outcome_carry_cons h.path, LensOp.outcome_carry_convert_self h.edit name mapping _ _ hv, hrecode]
  rfl

end Lens

end EditLens
