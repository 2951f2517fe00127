import EditLens.Proofs.Schema.Blank
import EditLens.Proofs.Schema.Depth

/-! What is filled in for a schema of any kind. Main statements: all of it is added below the object that it
fills, and the smallest document, if there is one, has distinct names. -/
namespace EditLens

namespace Schema

variable {schema : Json} {path : Path} {ps qs : Patch} {p : PatchOp}

def AddsBelow (path : Path) (ps : Patch) : Prop :=
  ∀ p ∈ ps, ∃ rest v, rest ≠ [] ∧ p.Edits (.add v) (path ++ rest)

private theorem AddsBelow.nil (path : Path) : AddsBelow path [] := fun _ hp => by cases hp

/-- Additions of which each is below a place, though not by more than so many steps. -/
def AddsWithin (limit : Nat) (path : Path) (ps : Patch) : Prop :=
  ∀ p ∈ ps, ∃ rest v, p = .add (path ++ rest) v ∧ 0 < rest.length ∧ rest.length ≤ limit

namespace AddsWithin

variable {limit : Nat}

private theorem nil (limit : Nat) (path : Path) : AddsWithin limit path [] := fun _ hp => by cases hp

private theorem append (hps : AddsWithin limit path ps) (hqs : AddsWithin limit path qs) :
    AddsWithin limit path (ps ++ qs) :=
  List.forall_mem_append.2 ⟨hps, hqs⟩

/-- An addition one step below a place, and others below that. -/
private theorem cons {less : Nat} {token : String} (v : Json) (hless : less < limit)
    (h : AddsWithin less (path ++ [token]) ps) : AddsWithin limit path (.add (path ++ [token]) v :: ps) := by
  refine List.forall_mem_cons.2 ⟨⟨[token], v, rfl, Nat.one_pos, Nat.one_le_of_lt hless⟩, fun p hp => ?_⟩
  obtain ⟨rest, w, rfl, -, hle⟩ := h p hp
  exact ⟨token :: rest, w, by rw [List.append_assoc, List.singleton_append], Nat.succ_pos _, by
    rw [List.length_cons]
    omega⟩

private theorem addsBelow (h : AddsWithin limit path ps) : AddsBelow path ps := by
  intro p hp
  obtain ⟨rest, v, rfl, hpos, -⟩ := h p hp
  exact ⟨rest, v, List.ne_nil_of_length_pos hpos, PatchOp.edits_add _ _⟩

end AddsWithin

private theorem addsWithin_fillMember {props : Members} {m : Scalar × Json}
    (hprops : memberSchemas schema = .ok props) (hm : m ∈ props)
    (ih : ∀ part ps path, below schema m.1.plain = .ok part → (fill path part).outcome = .ok ps →
      AddsWithin (depth part) path ps)
    (h : (fillMember path schema m).outcome = .ok ps) : AddsWithin (depth schema) path ps := by
  rw [fillMember, Noted.outcome_bind] at h
  obtain ⟨default, -, h⟩ := Except.exists_of_bind h
  cases default with
  | none =>
    obtain rfl := Except.ok.inj h
    exact .nil _ path
  | some v =>
    dsimp only at h
    split at h
    · simp only [Noted.outcome_bind, Noted.outcome_liftM, outcome_noteFilled] at h
      obtain ⟨part, hpart, h⟩ := Except.exists_of_bind h
      obtain ⟨defaults, hdefaults, h⟩ := Except.exists_of_bind h
      obtain rfl := Except.ok.inj h
      exact .cons v (depth_below_lt hprops hm hpart) (ih part defaults _ hpart hdefaults)
    · obtain rfl := Except.ok.inj h
      exact .cons v (depth_pos hprops hm) (.nil 0 _)

private theorem addsWithin_gather {limit : Nat} {props : Members}
    (hmember : ∀ m ∈ props, ∀ ps, (fillMember path schema m).outcome = .ok ps → AddsWithin limit path ps)
    (h : (Noted.gather (fillMember path schema) props).outcome = .ok ps) : AddsWithin limit path ps := by
  induction props generalizing ps with
  | nil =>
    obtain rfl := Except.ok.inj h
    exact .nil limit path
  | cons m rest ih =>
    rw [List.forall_mem_cons] at hmember
    simp only [Noted.gather, Noted.outcome_bind] at h
    obtain ⟨first, hfirst, h⟩ := Except.exists_of_bind h
    obtain ⟨others, hothers, h⟩ := Except.exists_of_bind h
    obtain rfl := Except.ok.inj h
    exact (hmember.1 first hfirst).append (ih hmember.2 hothers)

/-- What fills an object is added below it, and no deeper than its schema is. -/
theorem addsWithin_fill (h : (fill path schema).outcome = .ok ps) : AddsWithin (depth schema) path ps := by
  induction hn : schema.weight using Nat.strong_induction_on generalizing schema path ps with
  | _ n ih =>
  subst hn
  rw [fill_eq, Noted.outcome_bind, Noted.outcome_liftM] at h
  obtain ⟨props, hprops, hgather⟩ := Except.exists_of_bind h
  cases props with
  | nil =>
    obtain rfl := Except.ok.inj hgather
    exact .nil _ path
  | cons first rest =>
    exact addsWithin_gather (fun m hm qs hqs => addsWithin_fillMember hprops hm
      (fun part ps path hpart hfill => ih _ (below_weight_lt hprops hpart) hfill rfl) hqs) hgather

/-- What fills an object is added below it. -/
theorem addsBelow_fill (h : (fill path schema).outcome = .ok ps) : AddsBelow path ps :=
  (addsWithin_fill h).addsBelow

/-- After an operation, additions are filled in below its place. -/
theorem exists_filledOp {v : Json} (hp : p.Edits (.add v) path) (h : (filledOp schema p).outcome = .ok ps) :
    ∃ defaults, ps = p :: defaults ∧ AddsBelow path defaults := by
  by_cases hv : (Edit.add v).written? = some .emptyObject
  · simp only [filledOp, makesObject_of_edits hp, hv, decide_true, if_true, hp.path, Noted.outcome_bind,
      Noted.outcome_liftM, outcome_noteFilled, Except.bind_ok] at h
    obtain ⟨part, -, h⟩ := Except.exists_of_bind h
    obtain ⟨defaults, hdefaults, h⟩ := Except.exists_of_bind h
    exact ⟨defaults, (Except.ok.inj h).symm, addsBelow_fill hdefaults⟩
  · rw [outcome_filledOp_of_ne schema hp hv] at h
    exact ⟨[], (Except.ok.inj h).symm, .nil path⟩

/-- Additions below the root leave the names of an object distinct. -/
private theorem areOf_of_addsBelow {ms : Members} {doc : Json} (hps : AddsBelow [] ps)
    (hms : ms.AreOf fun _ => True) (h : Patch.apply ps (.obj ms) = .ok doc) :
    ∃ base : Members, doc = .obj base ∧ base.AreOf fun _ => True := by
  induction ps generalizing ms with
  | nil => exact ⟨ms, (Except.ok.inj h).symm, hms⟩
  | cons p rest ih =>
    obtain ⟨⟨path, v, hpath, hp⟩, hothers⟩ := List.forall_mem_cons.1 hps
    rw [Patch.apply, List.foldlM_cons, hp.apply_eq] at h
    obtain ⟨token, below, rfl⟩ := List.exists_cons_of_ne_nil hpath
    obtain ⟨next, hnext, hlater⟩ := Except.exists_of_bind h
    obtain ⟨result, -, rfl⟩ := Edit.apply_cons_obj_eq_ok.1 hnext
    exact ih hothers (hms.change token fun _ _ => trivial) hlater

/-- The smallest document is an object with distinct names. -/
theorem areOf_minimal {base : Json} (h : (minimal schema).outcome = .ok base) :
    ∃ ms : Members, base = .obj ms ∧ ms.AreOf fun _ => True := by
  simp only [minimal, Noted.outcome_bind, Noted.outcome_liftM, filled, Noted.gather] at h
  obtain ⟨patch, hpatch, happly⟩ := Except.exists_of_bind h
  obtain ⟨first, hfirst, hpatch⟩ := Except.exists_of_bind hpatch
  obtain ⟨defaults, rfl, hbelow⟩ := exists_filledOp (PatchOp.edits_add _ _) hfirst
  obtain rfl := Except.ok.inj hpatch
  rw [List.append_nil, Patch.apply, List.foldlM_cons, (PatchOp.edits_add _ _).apply_eq] at happly
  exact areOf_of_addsBelow hbelow .nil happly

end Schema

end EditLens
