import EditLens.Proofs.Lens.Following
import EditLens.Proofs.Schema.Revising

/-! Lenses inside lenses. Main statement: a lens for a member, or for the elements of an array, that is made of two
parts does what a lens for the first part does and after it one for the second. -/
namespace EditLens

/-- The names that an operation is about. A lens for the elements of an array is about none. -/
def LensOp.names : LensOp → List Json
  | .rename source destination => [source, destination]
  | .hoist host name | .plunge host name => [host, name]
  | .wrap name | .head name | .inside name _ | .convert name _ _ _ => [name]
  | .add property | .remove property => [property.name]
  | .each _ => []

/-- What can come out of an operation without a lens of its own. Whatever is moved stands below one of the names
of the operation. -/
inductive LensOp.Yields (op : LensOp) (p : PatchOp) : PatchOp → Prop
  | kept : Yields op p p
  | recoded (v : Json) : Yields op p (p.withValue v)
  | moved {name : Json} (hname : name ∈ op.names) (below : Path) : Yields op p (p.withPath (name.plain :: below))
  | written {name : Json} (hname : name ∈ op.names) (w : Write) (v : Json) (below : Path) :
    Yields op p (.anew w.name v (name.plain :: below))
  | removed {name : Json} (hname : name ∈ op.names) (below : Path) : Yields op p (.remove (name.plain :: below))

variable {p q : PatchOp} {path : Path} {name : Json}

private theorem Json.plain_of_isText {token : String} (h : name.isText token = true) : name.plain = token := by
  unfold Json.isText at h
  split at h
  · simpa using h
  · cases h

theorem Path.exists_eq_of_startsWith (h : path.startsWith name = true) :
    ∃ below, path = name.plain :: below ∧ ∀ other : Path, Path.startsWith (name.plain :: other) name = true := by
  cases path with
  | nil => cases h
  | cons token below =>
    have hplain := Json.plain_of_isText h
    exact ⟨below, by rw [hplain], fun _ => by rw [hplain]; exact h⟩

namespace LensOp

private theorem yields_carryHead (h : carryHead name p path = .ok (some q)) : (LensOp.head name).Yields p q := by
  unfold carryHead at h
  split at h
  · split at h
    · exact Option.some.inj (Except.ok.inj h) ▸ .kept
    · obtain ⟨verb, -, h⟩ := Except.exists_of_bind h
      cases verb with
      | add => exact Option.some.inj (Except.ok.inj h) ▸ .written List.mem_cons_self .add _ _
      | replace => exact Option.some.inj (Except.ok.inj h) ▸ .written List.mem_cons_self .replace _ _
      | remove =>
        obtain rfl := Option.some.inj (Except.ok.inj h)
        split
        · exact .written List.mem_cons_self .replace _ _
        · exact .moved List.mem_cons_self _
      | other => exact Option.some.inj (Except.ok.inj h) ▸ .kept
  · split at h
    · cases h
    · exact Option.some.inj (Except.ok.inj h) ▸ .kept
  · exact Option.some.inj (Except.ok.inj h) ▸ .kept

private theorem yields_carryWrap (h : carryWrap name p path = .ok (some q)) : (LensOp.wrap name).Yields p q := by
  unfold carryWrap at h
  split at h
  · split at h
    · exact Option.some.inj (Except.ok.inj h) ▸ .kept
    · obtain ⟨verb, -, h⟩ := Except.exists_of_bind h
      split at h
      · exact Option.some.inj (Except.ok.inj h) ▸ .removed List.mem_cons_self _
      · exact Option.some.inj (Except.ok.inj h) ▸ .moved List.mem_cons_self _
  · exact Option.some.inj (Except.ok.inj h) ▸ .kept

private theorem yields_carryConvert {mapping : Mapping} {source destination : Json}
    (h : carryConvert name mapping p path = .ok (some q)) :
    (LensOp.convert name mapping source destination).Yields p q := by
  unfold carryConvert at h
  obtain ⟨verb, -, h⟩ := Except.exists_of_bind h
  split at h
  · exact Option.some.inj (Except.ok.inj h) ▸ .kept
  split at h
  · split at h
    · exact Option.some.inj (Except.ok.inj h) ▸ .kept
    split at h
    · exact Option.some.inj (Except.ok.inj h) ▸ .recoded _
    · cases h
  · exact Option.some.inj (Except.ok.inj h) ▸ .kept

theorem yields_of_carryFlat {op : LensOp} (h : op.carryFlat p path = .ok (some q)) : op.Yields p q := by
  cases op with
  | rename source destination =>
    obtain ⟨verb, -, h⟩ := Except.exists_of_bind h
    split at h
    · exact Option.some.inj (Except.ok.inj h) ▸ .moved (by simp [names]) _
    · exact Option.some.inj (Except.ok.inj h) ▸ .kept
  | hoist host name =>
    simp only [carryFlat] at h
    split at h
    · obtain rfl := Option.some.inj (Except.ok.inj h)
      split
      · rename_i hnames
        rw [Bool.and_eq_true] at hnames
        rw [List.tail_cons, ← Json.plain_of_isText hnames.2]
        exact .moved (by simp [names]) _
      · exact .kept
    · exact Option.some.inj (Except.ok.inj h) ▸ .kept
  | plunge host name =>
    obtain rfl := Option.some.inj (Except.ok.inj h)
    split
    · exact .moved (by simp [names]) _
    · exact .kept
  | wrap name => exact yields_carryWrap h
  | head name => exact yields_carryHead h
  | remove property =>
    obtain ⟨verb, -, h⟩ := Except.exists_of_bind h
    split at h
    · exact Option.some.inj (Except.ok.inj h) ▸ .kept
    split at h
    · cases h
    · exact Option.some.inj (Except.ok.inj h) ▸ .kept
  | convert name mapping source destination => exact yields_carryConvert h
  | add property | inside name lens | each lens => exact Option.some.inj (Except.ok.inj h) ▸ .kept

private theorem Yields.path_eq {op : LensOp} (h : op.Yields p q) :
    q.path = p.path ∨ ∃ name ∈ op.names, ∃ below, q.path = .ok (name.plain :: below) := by
  cases h with
  | kept => exact .inl rfl
  | recoded v => exact .inl (PatchOp.path_withValue v)
  | moved hname below => exact .inr ⟨_, hname, below, PatchOp.path_withPath⟩
  | written hname w v below => exact .inr ⟨_, hname, below, PatchOp.path_withPath⟩
  | removed hname below =>
    refine .inr ⟨_, hname, below, ?_⟩
    simp [PatchOp.remove, PatchOp.path, Members.demand, Members.get?_cons]

/-- What comes out of an operation is where it was before, or below one of the names of the operation. -/
theorem path_of_carry {op : LensOp} (heach : ∀ lens, op ≠ .each lens)
    (h : (LensOp.carry p path op).outcome = .ok (some q)) :
    q.path = p.path ∨ ∃ name ∈ op.names, ∃ below, q.path = .ok (name.plain :: below) := by
  by_cases hinside : ∃ name lens, op = .inside name lens
  · obtain ⟨name, lens, rfl⟩ := hinside
    by_cases hname : path.startsWith name = true
    · rw [outcome_carry_within lens hname] at h
      obtain ⟨found, -, h⟩ := Except.exists_of_bind h
      cases found with
      | none => cases h
      | some found =>
        obtain ⟨below, -, h⟩ := Except.exists_of_bind h
        obtain rfl := Option.some.inj (Except.ok.inj h)
        exact .inr ⟨name, List.mem_cons_self, below, PatchOp.path_withPath⟩
    · rw [outcome_carry_inside_of_not lens hname] at h
      exact Option.some.inj (Except.ok.inj h) ▸ .inl rfl
  · rw [outcome_carry_flat op (fun name lens hop => hinside ⟨name, lens, hop⟩) heach] at h
    exact (yields_of_carryFlat h).path_eq

/-- No operation moves anything to the whole document. -/
private theorem exists_path {op : LensOp} (hpath : p.path = .ok path)
    (h : (LensOp.carry p path op).outcome = .ok (some q)) :
    ∃ path', q.path = .ok path' ∧ (path ≠ [] → path' ≠ []) := by
  by_cases heach : ∃ lens, op = .each lens
  · obtain ⟨lens, rfl⟩ := heach
    rw [outcome_carry_each] at h
    cases hcut : path.cutAtIndex? with
    | none =>
      rw [hcut] at h
      obtain rfl := Option.some.inj (Except.ok.inj h)
      exact ⟨path, hpath, id⟩
    | some cut =>
      obtain ⟨above, below⟩ := cut
      rw [hcut] at h
      obtain ⟨found, -, h⟩ := Except.exists_of_bind h
      cases found with
      | none => cases h
      | some found =>
        obtain ⟨below', -, h⟩ := Except.exists_of_bind h
        obtain rfl := Option.some.inj (Except.ok.inj h)
        exact ⟨_, PatchOp.path_withPath, fun _ =>
          List.append_ne_nil_of_left_ne_nil (Path.cutAtIndex?_ne_nil hcut) below'⟩
  · obtain heq | ⟨name, -, below, hbelow⟩ := path_of_carry (fun lens hop => heach ⟨lens, hop⟩) h
    · exact ⟨path, heq.trans hpath, id⟩
    · exact ⟨_, hbelow, fun _ => List.cons_ne_nil _ _⟩

end LensOp

namespace Lens

private theorem exists_path {lens : Lens} (hpath : p.path = .ok path) (h : (Lens.carry p lens).outcome = .ok (some q)) :
    ∃ path', q.path = .ok path' ∧ (path ≠ [] → path' ≠ []) := by
  induction lens generalizing p path with
  | nil =>
    obtain rfl := Option.some.inj (Except.ok.inj h)
    exact ⟨path, hpath, id⟩
  | cons op rest ih =>
    rw [outcome_carry_cons hpath] at h
    obtain ⟨found, hfound, h⟩ := Except.exists_of_bind h
    cases found with
    | none => cases h
    | some found =>
      obtain ⟨mid, hmid, hne⟩ := LensOp.exists_path hpath hfound
      obtain ⟨path', hpath', hne'⟩ := ih hmid h
      exact ⟨path', hpath', fun hroot => hne' (hne hroot)⟩

private theorem outcome_carry_two (hpath : p.path = .ok path) (op op' : LensOp) :
    (Lens.carry p [op, op']).outcome = (do
      match ← (LensOp.carry p path op).outcome with
      | none => return none
      | some q => (Lens.carry q [op']).outcome) := outcome_carry_cons hpath op [op']

private theorem outcome_carry_one (hpath : p.path = .ok path) (op : LensOp) :
    (Lens.carry p [op]).outcome = (LensOp.carry p path op).outcome := by
  rw [outcome_carry_cons hpath]
  rcases (LensOp.carry p path op).outcome with fault | _ | q <;> rfl

/-- An operation without a path goes through no lens that has operations. -/
theorem outcome_carry_pathless {fault : Fault} (hpath : p.path = .error fault) (op : LensOp) (rest : Lens) :
    (Lens.carry p (op :: rest)).outcome = .error fault := by
  rw [Lens.carry, Noted.outcome_bind, Noted.outcome_liftM, hpath]
  rfl

private theorem carry_inside_append (first second : Lens) (name : Json) (p : PatchOp) :
    (Lens.carry p [.inside name (first ++ second)]).outcome =
      (Lens.carry p [.inside name first, .inside name second]).outcome := by
  cases hpath : p.path with
  | error fault => rw [outcome_carry_pathless hpath, outcome_carry_pathless hpath]
  | ok path =>
  rw [outcome_carry_one hpath, outcome_carry_two hpath]
  by_cases hname : path.startsWith name = true
  · rw [LensOp.outcome_carry_within _ hname, LensOp.outcome_carry_within _ hname, outcome_carry_append]
    cases hfirst : (Lens.carry (p.withPath path.tail) first).outcome with
    | error fault => rfl
    | ok found =>
    cases found with
    | none => rfl
    | some q =>
    obtain ⟨below, hbelow, -⟩ := exists_path PatchOp.path_withPath hfirst
    obtain ⟨-, -, hstarts⟩ := Path.exists_eq_of_startsWith hname
    simp only [Except.bind_ok, hbelow, pure, Except.pure, outcome_carry_one PatchOp.path_withPath,
      LensOp.outcome_carry_within second (hstarts below), PatchOp.withPath_withPath, List.tail_cons,
      PatchOp.withPath_of_path hbelow]
  · rw [LensOp.outcome_carry_inside_of_not _ hname, LensOp.outcome_carry_inside_of_not _ hname]
    exact ((outcome_carry_one hpath _).trans (LensOp.outcome_carry_inside_of_not _ hname)).symm

private theorem carry_each_append (first second : Lens) (p : PatchOp) :
    (Lens.carry p [.each (first ++ second)]).outcome = (Lens.carry p [.each first, .each second]).outcome := by
  cases hpath : p.path with
  | error fault => rw [outcome_carry_pathless hpath, outcome_carry_pathless hpath]
  | ok path =>
  rw [outcome_carry_one hpath, outcome_carry_two hpath, LensOp.outcome_carry_each, LensOp.outcome_carry_each]
  cases hcut : path.cutAtIndex? with
  | none =>
    refine ((outcome_carry_one hpath _).trans ?_).symm
    rw [LensOp.outcome_carry_each, hcut]
  | some cut =>
    obtain ⟨above, below⟩ := cut
    simp only [outcome_carry_append]
    cases hfirst : (Lens.carry (p.withPath below) first).outcome with
    | error fault => rfl
    | ok found =>
    cases found with
    | none => rfl
    | some q =>
    -- What the first lens leaves is not the element itself, so the second one is cut at the same index.
    obtain ⟨-, hne, hcuts⟩ := Path.cutAtIndex?_eq_some hcut
    obtain ⟨below', hbelow, hne'⟩ := exists_path PatchOp.path_withPath hfirst
    simp only [Except.bind_ok, hbelow, pure, Except.pure, outcome_carry_one PatchOp.path_withPath,
      LensOp.outcome_carry_each second, hcuts (hne' hne), PatchOp.withPath_withPath,
      PatchOp.withPath_of_path hbelow]

private theorem outcome_follow_one (schema : Json) (op : LensOp) :
    (Lens.follow schema [op]).outcome = (LensOp.follow schema op).outcome := by
  simp only [Lens.follow, Noted.outcome_bind, Noted.outcome_pure]
  cases (LensOp.follow schema op).outcome <;> rfl

private theorem outcome_follow_two (schema : Json) (op op' : LensOp) :
    (Lens.follow schema [op, op']).outcome =
      (LensOp.follow schema op).outcome >>= fun next => (Lens.follow next [op']).outcome := by
  rw [Lens.follow, Noted.outcome_bind]

private theorem outcome_follow_inside (schema : Json) (lens : Lens) :
    (LensOp.follow schema (.inside name lens)).outcome = (do
      let ms ← schema.asObject
      let part ← Schema.described ms name .inside
      let next ← (Lens.follow part lens).outcome
      return .obj (← Schema.describe ms name next)) := by
  simp only [LensOp.follow, Noted.outcome_bind, Noted.outcome_liftM, Noted.outcome_pure]
  rfl

private theorem follow_inside_append (first second : Lens) (name schema : Json) :
    (Lens.follow schema [.inside name (first ++ second)]).outcome =
      (Lens.follow schema [.inside name first, .inside name second]).outcome := by
  rw [outcome_follow_two, outcome_follow_one, outcome_follow_inside, outcome_follow_inside]
  cases schema.asObject with
  | error fault => rfl
  | ok ms =>
  simp only [Except.bind_ok]
  cases hpart : Schema.described ms name .inside with
  | error fault => rfl
  | ok part =>
  simp only [Except.bind_ok, outcome_follow_append]
  cases (Lens.follow part first).outcome with
  | error fault => rfl
  | ok mid =>
  obtain ⟨ns, hns⟩ := Schema.exists_describe hpart mid
  obtain ⟨hdescribed, hdescribe⟩ := Schema.described_of_describe hns
  simp only [Except.bind_ok, hns, pure, Except.pure, outcome_follow_one, outcome_follow_inside, Json.asObject,
    hdescribed, hdescribe]

private theorem outcome_follow_each (schema : Json) (lens : Lens) :
    (LensOp.follow schema (.each lens)).outcome = (do
      if ← schema.mentions "items" then
        match schema with
        | .obj ms => do
          return .obj (Members.put ms "items" (← (Lens.follow (Members.valueOf ms "items") lens).outcome))
        | _ => .error .wrongKind
      else if (← schema.lookup "type").isText "array" then return schema
      else .error .noElements) := by
  simp only [LensOp.follow, Noted.outcome_bind, Noted.outcome_liftM]
  congr 1
  funext mentions
  cases mentions with
  | false =>
    simp only [Bool.false_eq_true, if_false, Noted.outcome_bind, Noted.outcome_liftM]
    congr 1
    funext type
    split <;> simp
    rfl
  | true =>
    cases schema with
    | obj ms =>
      simp only [if_true, Noted.outcome_bind, Noted.outcome_pure]
      rfl
    | _ => simp

private theorem follow_each_append (first second : Lens) (schema : Json) :
    (Lens.follow schema [.each (first ++ second)]).outcome =
      (Lens.follow schema [.each first, .each second]).outcome := by
  rw [outcome_follow_two, outcome_follow_one, outcome_follow_each, outcome_follow_each]
  cases hmentions : schema.mentions "items" with
  | error fault => rfl
  | ok mentions =>
  cases mentions with
  | false =>
    simp only [Except.bind_ok, Bool.false_eq_true, if_false]
    cases htype : schema.lookup "type" with
    | error fault => rfl
    | ok type =>
    cases harray : type.isText "array" with
    | false => simp [harray]; rfl
    | true =>
      simp only [Except.bind_ok, harray, if_true, pure, Except.pure, outcome_follow_one, outcome_follow_each,
        hmentions,
        Bool.false_eq_true, if_false, htype]
  | true =>
    cases schema with
    | scalar s => rfl
    | arr es => rfl
    | obj ms =>
    simp only [Except.bind_ok, if_true, outcome_follow_append]
    cases (Lens.follow (Members.valueOf ms "items") first).outcome with
    | error fault => rfl
    | ok mid =>
    have hitems : (Json.obj (Members.put ms "items" mid)).mentions "items" = .ok true := by
      simp [Json.mentions, Members.has]
    simp only [Except.bind_ok, pure, Except.pure, outcome_follow_one, outcome_follow_each, hitems, if_true,
      Members.valueOf, Members.get?_put_self, Option.getD_some, Members.put_put]

/-- Whatever two lenses do one after the other in one place, they do as one lens there: to operations of patches and
to schemas alike, with what is dropped and all faults. -/
theorem scope_append (first second : Lens) (name : Json) :
    (∀ p : PatchOp, (Lens.carry p [.inside name (first ++ second)]).outcome =
        (Lens.carry p [.inside name first, .inside name second]).outcome ∧
      (Lens.carry p [.each (first ++ second)]).outcome = (Lens.carry p [.each first, .each second]).outcome) ∧
    ∀ schema : Json, (Lens.follow schema [.inside name (first ++ second)]).outcome =
        (Lens.follow schema [.inside name first, .inside name second]).outcome ∧
      (Lens.follow schema [.each (first ++ second)]).outcome =
        (Lens.follow schema [.each first, .each second]).outcome :=
  ⟨fun p => ⟨carry_inside_append first second name p, carry_each_append first second p⟩,
    fun schema => ⟨follow_inside_append first second name schema, follow_each_append first second schema⟩⟩

end Lens

end EditLens
