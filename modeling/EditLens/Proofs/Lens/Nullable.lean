import EditLens.Proofs.Lens.Route
import EditLens.Proofs.Schema.Regular
import EditLens.Proofs.Schema.Unmixed
import EditLens.Schema.Follow

/-! Renaming below a member that may be null. The description of such a member is a union, and only the look-up
of descriptions sees through it. Main statement: where a renamed member goes, the schema that comes out says
what it said before. -/
namespace EditLens

namespace Schema

variable {schema inner : Json} {ms props : Members} {name : String} {lens : Lens}

/-- A schema does not change if what comes out for the description of a member is that description. -/
theorem follow_inside_self (hprops : ms.get? "properties" = some (.obj props))
    (hpart : props.get? name = some inner) (hlens : (Lens.follow inner lens).outcome = .ok inner) :
    (LensOp.follow (.obj ms) (.inside (.str name) lens)).outcome = .ok (.obj ms) := by
  have hproperties : properties ms = .ok props := properties_of_get? (.inr hprops)
  simp [LensOp.follow, Json.asObject, described, describe, hproperties, Json.asKey, hpart, hlens,
    Members.put_of_get? hpart, withProperties, Members.put_of_get? hprops]

/-- Below a member, what stands at a path is told by what is found for the member. -/
private theorem locate_below (h : locate schema [name] = .ok inner) (token : String) (rest : Path) :
    locate schema (name :: token :: rest) = (do locate (← step inner token) rest) := by
  rw [locate] at h ⊢
  obtain ⟨whole, hwhole, h⟩ := Except.exists_of_bind h
  obtain ⟨part, hpart, hinner⟩ := Except.exists_of_bind h
  rw [hwhole, Except.bind_ok, hpart, Except.bind_ok, locate, show container part = .ok inner from hinner]
  rfl

/-- What is found for a member of an object is what describes it, or nothing is known. -/
private theorem Unmixed.locate_member {other : String} {part : Json} (h : Unmixed inner)
    (hother : part? inner other = some part) (name : String) :
    locate inner [name] = .ok ((part? inner name).getD .emptyObject) := by
  obtain ⟨ms, rfl⟩ := h.exists_obj
  rcases h.locate_eq [name] with ⟨found, hfound, hreach⟩ | ⟨hempty, hnone⟩
  · cases hreach with
    | member described below =>
      cases below
      rw [hfound, described]
      rfl
    | element described =>
      rw [h.items_eq_none hother] at described
      cases described
  · cases hpart : part? (.obj ms) name with
    | none => exact hempty
    | some part => exact absurd (.member hpart (.here part)) (hnone part)

end Schema

namespace Lens

open Schema

variable {ms props : Members} {inner leaf : Json} {lens : Lens} {name field type : String} {p : PatchOp} {v : Json}

def OnlyRenames (lens : Lens) : Prop := ∀ op ∈ lens, ∃ s d : String, op = .rename (.str s) (.str d)

private theorem OnlyRenames.isMoving (h : OnlyRenames lens) : lens.isMoving = true := by
  induction lens with
  | nil => rfl
  | cons op rest ih =>
    obtain ⟨⟨s, d, rfl⟩, hrest⟩ := List.forall_mem_cons.1 h
    rw [Lens.isMoving, ih hrest]
    rfl

/-- A member is still a member after it was renamed. -/
private theorem OnlyRenames.exists_route (h : OnlyRenames lens) (name : String) :
    ∃ last, Lens.route [name] lens = some [last] := by
  induction lens generalizing name with
  | nil => exact ⟨name, rfl⟩
  | cons op rest ih =>
    obtain ⟨⟨s, d, rfl⟩, hrest⟩ := List.forall_mem_cons.1 h
    obtain ⟨last, hlast⟩ := ih hrest (if s = name then d else name)
    refine ⟨last, ?_⟩
    rw [Lens.route, LensOp.route_rename, Option.bind_some, ← hlast]
    split <;> rfl

/-- Renaming reads the members that a schema describes itself, and a union describes none. -/
theorem OnlyRenames.follow_nullable (h : OnlyRenames lens) :
    (Lens.follow (nullable inner) lens).outcome = .ok (nullable inner) := by
  induction lens with
  | nil => rfl
  | cons op rest ih =>
    obtain ⟨⟨s, d, rfl⟩, hrest⟩ := List.forall_mem_cons.1 h
    have hrename : (LensOp.follow (nullable inner) (.rename (.str s) (.str d))).outcome = .ok (nullable inner) := rfl
    rw [Lens.follow, Noted.outcome_bind, hrename, Except.bind_ok]
    exact ih hrest

/-- An addition to a member that may be null comes out at the new name of its field, while the schema comes out
as it was: it says of the new name what it said of the field exactly if both were described alike. -/
theorem carry_locates_nullable_iff (hprops : ms.get? "properties" = some (.obj props))
    (hunion : props.get? name = some (nullable inner)) (hseen : locate (.obj ms) [name] = .ok inner)
    (hinner : Unmixed inner) (hfield : part? inner field = some leaf) (htype : leaf.lookup "type" = .ok (.str type))
    (hlens : OnlyRenames lens) (hp : p.Edits (.add v) [name, field]) :
    ∃ next q last, (Lens.follow (.obj ms) [.inside (.str name) lens]).outcome = .ok next ∧
      (Lens.carry p [.inside (.str name) lens]).outcome = .ok (some q) ∧ q.Edits (.add v) [name, last] ∧
      Lens.route [field] lens = some [last] ∧
      (locate next [name, last] = locate (.obj ms) [name, field] ↔ part? inner last = some leaf) := by
  obtain ⟨last, hlast⟩ := hlens.exists_route field
  have hfollow : (Lens.follow (.obj ms) [.inside (.str name) lens]).outcome = .ok (.obj ms) := by
    simp [Lens.follow, follow_inside_self hprops hunion hlens.follow_nullable]
  have hmoving : Lens.isMoving [.inside (.str name) lens] = true := by
    rw [Lens.isMoving, LensOp.isMoving, hlens.isMoving]
    rfl
  have hroutes := Lens.routes _ (Lens.isStructural_of_isMoving _ hmoving) hp (.inr hmoving)
  have hroute : Lens.route [name, field] [.inside (.str name) lens] = some [name, last] := by
    rw [Lens.route, LensOp.route_inside, if_pos rfl, hlast]
    rfl
  rw [hroute] at hroutes
  obtain ⟨q, hq, hqe⟩ := hroutes
  have hfound (other : String) :
      locate (.obj ms) [name, other] = .ok ((part? inner other).getD .emptyObject) := by
    rw [locate_below hseen, ← hinner.locate_member hfield, locate, hinner.container_eq]
    rfl
  refine ⟨.obj ms, q, last, hfollow, hq, hqe, hlast, ?_⟩
  rw [hfound, hfound, hfield, Except.ok.injEq, Option.getD_some]
  constructor
  · intro h
    cases hpart : part? inner last with
    | some part => rw [hpart] at h; exact congrArg some h
    | none =>
      rw [hpart] at h
      obtain rfl : leaf = .emptyObject := h.symm
      cases htype
  · intro h
    rw [h]
    rfl

/-- A number takes the name of a text that gave it up, and is then taken for a text. -/
theorem carry_locates_nullable_iff_items :
    let inner : Json := .obj [("properties", .obj [("a", .obj [("type", .str "integer")]),
      ("b", .obj [("type", .str "string")])])]
    let schema : Members := [("properties", .obj [("n", nullable inner)])]
    let lens : Lens := [.rename (.str "b") (.str "c"), .rename (.str "a") (.str "b")]
    ∃ next q, (Lens.follow (.obj schema) [.inside (.str "n") lens]).outcome = .ok next ∧
      (Lens.carry (.add ["n", "a"] (.int 1)) [.inside (.str "n") lens]).outcome = .ok (some q) ∧
      q.Edits (.add (.int 1)) ["n", "b"] ∧
      locate next ["n", "b"] ≠ locate (.obj schema) ["n", "a"] := by
  intro inner schema lens
  have hleaf (type : String) : Unmixed (.obj [("type", .str type)]) :=
    .mk rfl rfl ⟨[], rfl⟩ (.inl ⟨rfl, rfl⟩) (.inl rfl) .nil (by simp) (by simp)
      (by intro part hpart; cases hpart)
  have hinner : Unmixed inner :=
    .mk rfl rfl ⟨[], rfl⟩ (.inr rfl) (.inr rfl) (by simp [Members.Distinct]) (by simp) (by simp [hleaf])
      (by intro part hpart; cases hpart)
  obtain ⟨next, q, last, hnext, hq, hqe, hlast, hiff⟩ := @carry_locates_nullable_iff schema _ inner
    (.obj [("type", .str "integer")]) lens "n" "a" "integer" _ _ rfl rfl rfl hinner rfl rfl
    (by simp [OnlyRenames, lens]) (PatchOp.edits_add ["n", "a"] (.int 1))
  obtain rfl : last = "b" := by simpa [lens, Lens.route, LensOp.route_rename] using hlast.symm
  exact ⟨next, q, hnext, hq, hqe, fun h => absurd (hiff.1 h) (by decide)⟩

end Lens

end EditLens
