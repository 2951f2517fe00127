import EditLens.Proofs.Lens.Route

/-! Where lenses that move and remove members carry writes of scalars. Main statement: the place does not
depend on the scalar, unless a wrapping has made a written null a removal and a renaming passes it by. -/
namespace EditLens

mutual

inductive LensOp.Strays : LensOp → Path → Prop
  | inside {name : Json} {lens : Lens} {path : Path} (starts : path.startsWith name = true)
    (below : Lens.Strays lens path.tail) : LensOp.Strays (.inside name lens) path
  | each {lens : Lens} {path above rest : Path} (cut : path.cutAtIndex? = some (above, rest))
    (below : Lens.Strays lens rest) : LensOp.Strays (.each lens) path

/-- Whether a null written at a path becomes a removal, by a wrapping, and then meets a renaming, which passes
removals by. -/
inductive Lens.Strays : Lens → Path → Prop
  | within {op : LensOp} {lens : Lens} {path : Path} (h : op.Strays path) : Lens.Strays (op :: lens) path
  | across {op : LensOp} {lens : Lens} {path next : Path} (wrapped : op.Meets LensOp.Wrapping path)
    (moved : op.route path = some next) (renamed : lens.Meets LensOp.Renaming next) :
    Lens.Strays (op :: lens) path
  | later {op : LensOp} {lens : Lens} {path next : Path} (moved : op.route path = some next)
    (h : Lens.Strays lens next) : Lens.Strays (op :: lens) path

end

/-- Outcomes of a lens for two operations: both are dropped, or both come out with one path. -/
def SamePlace (first second : Except Fault (Option PatchOp)) : Prop :=
  (first = .ok none ∧ second = .ok none) ∨
    ∃ p q place, first = .ok (some p) ∧ second = .ok (some q) ∧ p.path = .ok place ∧ q.path = .ok place

section Take

variable {e : Edit} {path : Path}

mutual

/-- Moving and removing does not fail. -/
private theorem LensOp.exists_take (op : LensOp) (hop : op.isPlacing = true) (e : Edit) (path : Path) :
    ∃ left, op.take e path = .ok left := by
  match op with
  | .rename _ _ | .plunge _ _ | .wrap _ | .remove _ => exact ⟨_, rfl⟩
  | .hoist _ _ =>
    match path with
    | [] | [_] | _ :: _ :: _ => exact ⟨_, rfl⟩
  | .inside name lens =>
    obtain ⟨left, hleft⟩ := Lens.exists_take lens hop e path.tail
    rw [LensOp.take, hleft]
    split <;> exact ⟨_, rfl⟩
  | .each lens =>
    rw [LensOp.take]
    cases path.cutAtIndex? with
    | none => exact ⟨_, rfl⟩
    | some cut =>
      obtain ⟨left, hleft⟩ := Lens.exists_take lens hop e cut.2
      exact ⟨_, congrArg (behind cut.1) hleft⟩

private theorem Lens.exists_take (lens : Lens) (hlens : lens.isPlacing = true) (e : Edit) (path : Path) :
    ∃ left, Lens.take e path lens = .ok left := by
  match lens with
  | [] => exact ⟨_, rfl⟩
  | op :: rest =>
    rw [Lens.isPlacing, Bool.and_eq_true] at hlens
    obtain ⟨left, hleft⟩ := LensOp.exists_take op hlens.1 e path
    rw [Lens.take, hleft]
    cases left with
    | none => exact ⟨_, rfl⟩
    | some change => exact Lens.exists_take rest hlens.2 change.1 change.2

end

mutual

/-- A written null that is wrapped goes on as a removal, on the way of all other writes. -/
private theorem LensOp.take_wrapped (op : LensOp) (hop : op.isPlacing = true) (hnull : e.written? = some .null)
    {path : Path} (hmeets : op.Meets LensOp.Wrapping path) (hstrays : ¬ op.Strays path) :
    op.take e path = .ok ((op.route path).map (Edit.remove, ·)) := by
  match op with
  | .rename _ _ | .hoist _ _ | .plunge _ _ | .remove _ =>
    cases hmeets with
    | here h => exact h.elim
  | .wrap name =>
    cases hmeets with
    | here h => rw [LensOp.take, LensOp.route, if_pos h.1, if_pos h.1, if_pos ⟨hnull, h.2⟩, Option.map_some]
  | .inside name lens =>
    cases hmeets with
    | here h => exact h.elim
    | inside starts below =>
      rw [LensOp.take, LensOp.route, if_pos starts, if_pos starts, Lens.take_wrapped lens hop hnull below
        fun h => hstrays (.inside starts h), behind_map]
      rfl
  | .each lens =>
    cases hmeets with
    | here h => exact h.elim
    | each cut below =>
      rw [LensOp.take, LensOp.route, cut]
      simp only
      rw [Lens.take_wrapped lens hop hnull below fun h => hstrays (.each cut h), behind_map]

private theorem Lens.take_wrapped (lens : Lens) (hlens : lens.isPlacing = true) (hnull : e.written? = some .null)
    {path : Path} (hmeets : lens.Meets LensOp.Wrapping path) (hstrays : ¬ lens.Strays path) :
    Lens.take e path lens = .ok ((Lens.route path lens).map (Edit.remove, ·)) := by
  match lens with
  | [] => cases hmeets
  | op :: rest =>
    rw [Lens.isPlacing, Bool.and_eq_true] at hlens
    have hwrites : e.written?.isSome = true := by rw [hnull]; rfl
    by_cases hop : op.Meets LensOp.Wrapping path
    · rw [Lens.take, Lens.route, LensOp.take_wrapped op hlens.1 hnull hop fun h => hstrays (.within h)]
      cases hnext : op.route path with
      | none => rfl
      | some next =>
        -- From here on it is a removal, which nothing but a renaming treats in another way.
        exact Lens.take_eq_route rest hlens.2 (.inr fun h => hstrays (.across hop hnext h)) (.inl nofun)
    · rw [Lens.take, Lens.route, LensOp.take_eq_route op hlens.1 (.inl hwrites) (.inr hop)]
      cases hmeets with
      | here h => exact absurd h hop
      | later moved h =>
        rw [moved]
        exact Lens.take_wrapped rest hlens.2 hnull h fun h => hstrays (.later moved h)

end

/-- Where a write is left is told by its path alone. -/
private theorem Lens.exists_take_eq_route (lens : Lens) (hlens : lens.isPlacing = true) (path : Path)
    (hwrites : e.written?.isSome = true) (h : e.written? = some .null → ¬ lens.Strays path) :
    ∃ left : Edit, Lens.take e path lens = .ok ((Lens.route path lens).map (left, ·)) := by
  by_cases hnull : e.written? = some .null ∧ lens.Meets LensOp.Wrapping path
  · exact ⟨.remove, Lens.take_wrapped lens hlens hnull.1 hnull.2 (h hnull.1)⟩
  · exact ⟨e, Lens.take_eq_route lens hlens (.inl hwrites) (not_and_or.1 hnull)⟩

end Take

/-- What is left comes out with one path exactly if it is left at one place. -/
private theorem Comes.samePlace_iff {left left' : Option (Edit × Path)} {first second : Except Fault (Option PatchOp)}
    (hfirst : Comes (.ok left) first) (hsecond : Comes (.ok left') second) :
    SamePlace first second ↔ left.map Prod.snd = left'.map Prod.snd := by
  cases hfirst with
  | dropped =>
    cases hsecond with
    | dropped => simp [SamePlace]
    | carried hq => simp [SamePlace]
  | carried hp =>
    cases hsecond with
    | dropped => simp [SamePlace]
    | carried hq => simp [SamePlace, hp.path, hq.path, eq_comm]

namespace Lens

/-- Of two scalars written at one path, a lens that moves and removes members drops both or carries both to
one place. This asks only that, if one of them alone is null, its write does not stray. -/
theorem carry_place_eq {lens : Lens} (hlens : lens.isPlacing = true) (w : Write) (path : Path) {s t : Scalar}
    (h : (s = .null ↔ t = .null) ∨ ¬ lens.Strays path) :
    SamePlace (Lens.carry (w.toOp path (.scalar s)) lens).outcome
      (Lens.carry (w.toOp path (.scalar t)) lens).outcome := by
  have hs := Lens.comes lens (PatchOp.Writes.toOp w path (.scalar s)).edits
  have ht := Lens.comes lens (PatchOp.Writes.toOp w path (.scalar t)).edits
  by_cases hboth : s = .null ∧ t = .null
  · obtain ⟨rfl, rfl⟩ := hboth
    obtain ⟨left, hleft⟩ := Lens.exists_take lens hlens (w.edit .null) path
    rw [hleft] at hs
    exact (hs.samePlace_iff hs).2 rfl
  · have hstrays : s = .null ∨ t = .null → ¬ lens.Strays path := by
      intro hone
      refine h.resolve_left fun hiff => hboth ?_
      rcases hone with hone | hone
      · exact ⟨hone, hiff.1 hone⟩
      · exact ⟨hiff.2 hone, hone⟩
    have hleft : ∀ r : Scalar, (r = .null → ¬ lens.Strays path) → ∃ left : Edit,
        Lens.take (w.edit (.scalar r)) path lens = .ok ((Lens.route path lens).map (left, ·)) := by
      intro r hr
      refine Lens.exists_take_eq_route lens hlens path (by simp) fun hnull => hr ?_
      rw [Write.written?_edit] at hnull
      exact Json.scalar.inj (Option.some.inj hnull)
    obtain ⟨e, he⟩ := hleft s fun hnull => hstrays (.inl hnull)
    obtain ⟨f, hf⟩ := hleft t fun hnull => hstrays (.inr hnull)
    rw [he] at hs
    rw [hf] at ht
    exact (hs.samePlace_iff ht).2 (by simp [Function.comp_def])

/-- Null and a number, in a member that is renamed, wrapped there and moved out. -/
theorem carry_place_eq_items :
    let lens : Lens := [.rename (.str "a") (.str "b"), .inside (.str "b") [.wrap (.str "x")],
      .hoist (.str "b") (.str "x")]
    SamePlace (Lens.carry (.add ["a", "x"] .null) lens).outcome
      (Lens.carry (.add ["a", "x"] (.int 1)) lens).outcome := by
  intro lens
  refine @carry_place_eq lens rfl .add ["a", "x"] .null (.int 1) (.inr fun h => ?_)
  simp only [lens] at h
  cases h with
  | within h => cases h
  | across wrapped =>
    cases wrapped with
    | here h => exact h
  | later moved h =>
  rw [LensOp.route_rename, if_pos rfl] at moved
  obtain rfl := Option.some.inj moved
  cases h with
  | within h =>
    cases h with
    | inside _ below =>
    cases below with
    | within h => cases h
    | across _ _ renamed => cases renamed
    | later _ h => cases h
  | across _ moved renamed =>
    cases renamed with
    | here renamed =>
      cases renamed with
      | here h => exact h
    | later _ renamed => cases renamed
  | later _ h =>
    cases h with
    | within h => cases h
    | across _ _ renamed => cases renamed
    | later _ h => cases h

/-- A null that has been wrapped is removed, and a renaming leaves it behind. -/
theorem carry_place_of_wrapped_null :
    let lens : Lens := [.wrap (.str "x"), .rename (.str "x") (.str "y")]
    lens.isPlacing = true ∧
      ¬ SamePlace (Lens.carry (.add ["x"] .null) lens).outcome (Lens.carry (.add ["x"] (.int 1)) lens).outcome := by
  intro lens
  have hnull : Lens.take (.add .null) ["x"] lens = .ok (some (.remove, ["x", "0"])) := by
    simp [lens, Lens.take, LensOp.take_wrap, LensOp.take_rename, Edit.written?]
  have hone : Lens.take (.add (.int 1)) ["x"] lens = .ok (some (.add (.int 1), ["y", "0"])) := by
    simp [lens, Lens.take, LensOp.take_wrap, LensOp.take_rename, Edit.written?]
  have hfirst := Lens.comes lens (PatchOp.Writes.toOp .add ["x"] .null).edits
  have hsecond := Lens.comes lens (PatchOp.Writes.toOp .add ["x"] (.int 1)).edits
  rw [Write.edit, hnull] at hfirst
  rw [Write.edit, hone] at hsecond
  exact ⟨rfl, fun h => absurd ((hfirst.samePlace_iff hsecond).1 h) (by simp)⟩

end Lens

end EditLens
