import EditLens.Proofs.Lens.Convert
import EditLens.Proofs.Patch.Expanding

/-! Lenses one after another. Main statement: a patch can be converted through two lenses in turn exactly if it
can be converted through both at once, and then the same operations come out. -/
namespace EditLens

def Json.isScalar : Json → Bool
  | .scalar _ => true
  | _ => false

mutual

def LensOp.recodesToScalars : LensOp → Bool
  | .convert _ mapping _ _ => mapping.forward.all fun m => m.2.isScalar
  | .inside _ lens => Lens.recodesToScalars lens
  | .each lens => Lens.recodesToScalars lens
  | _ => true

def Lens.recodesToScalars : Lens → Bool
  | [] => true
  | op :: rest => op.recodesToScalars && Lens.recodesToScalars rest

end

private theorem Mapping.exists_scalar_of_recode {mapping : Mapping} {v w : Json}
    (h : (mapping.forward.all fun m => m.2.isScalar) = true) (hw : mapping.recode? v = some w) :
    ∃ s, w = .scalar s := by
  obtain ⟨m, hm, rfl⟩ := Mapping.exists_of_recode hw
  have hscalar := List.all_eq_true.1 h m hm
  cases hvalue : m.2 with
  | scalar s => exact ⟨s, rfl⟩
  | arr es => rw [hvalue] at hscalar; cases hscalar
  | obj ms => rw [hvalue] at hscalar; cases hscalar

namespace PatchOp

/-- An operation that is one step: it writes no container, or an empty one without any further fields. -/
inductive IsStep (p : PatchOp) : Prop
  | single {verb : Verb} (hverb : p.verb = .ok verb) (h : verb.write? = none ∨ ∃ s, p.value = .scalar s)
  | hollow {w : Write} {path : Path} {v : Json} (h : p.Writes w path v) (hv : v.isHollow = true)

/-- Operations with the same fields, which may be in another order where their names are distinct. -/
inductive Twins (p : PatchOp) : PatchOp → Prop
  | refl : Twins p p
  | reordered {q : PatchOp} (perm : p.members.Perm q.members) (distinct : q.members.Distinct) : Twins p q

structure SameStep (p q : PatchOp) : Prop where
  step : p.IsStep
  twins : p.Twins q

variable {p q : PatchOp} {verb : Verb} {w : Write} {v : Json}

private theorem value_withValue : (p.withValue v).value = v := by
  simp [value, withValue, Members.valueOf]

theorem verb_withValue : (p.withValue v).verb = p.verb := by
  simp [PatchOp.verb, withValue, Members.demand, Members.get?_put]

namespace IsStep

private theorem exists_verb (h : p.IsStep) : ∃ verb, p.verb = .ok verb := by
  cases h with
  | single hverb => exact ⟨_, hverb⟩
  | hollow h => exact ⟨_, verb_of_edit h.edits.edit⟩

private theorem withPath (h : p.IsStep) (path : Path) : (p.withPath path).IsStep := by
  cases h with
  | single hverb h => exact .single (verb_withPath.trans hverb) (by rwa [value_withPath])
  | hollow h hv => exact .hollow (h.withPath path) hv

private theorem withValue (h : p.IsStep) (s : Scalar) : (p.withValue (.scalar s)).IsStep := by
  obtain ⟨verb, hverb⟩ := h.exists_verb
  exact .single (verb_withValue.trans hverb) (.inr ⟨s, value_withValue⟩)

/-- What a step writes is a scalar or an empty container. -/
private theorem isHollow_value (h : p.IsStep) (hverb : p.verb = .ok verb) (hw : verb.write? = some w) :
    p.value.isHollow = true := by
  cases h with
  | single hverb' h =>
    rw [hverb] at hverb'
    rw [← Except.ok.inj hverb', hw] at h
    obtain ⟨s, hs⟩ := h.resolve_left nofun
    rw [hs]
    rfl
  | hollow h hv =>
    rw [value_of_edit h.edits.edit (Write.written?_edit _ _)]
    exact hv

private theorem remove (path : Path) : (PatchOp.remove path).IsStep :=
  .single (verb_of_edit edit_remove) (.inl rfl)

private theorem expand_single (hverb : p.verb = .ok verb)
    (h : verb.write? = none ∨ ∃ s, p.value = .scalar s) : p.expand = .ok [p] := by
  rw [PatchOp.expand, hverb, Except.bind_ok]
  rcases h with hnone | ⟨s, hs⟩
  · rw [hnone]
    rfl
  · rw [hs]
    split <;> rfl

/-- A step is not taken apart; an empty container is written with its fields in their usual order. -/
private theorem expand (h : p.IsStep) : ∃ q, p.expand = .ok [q] ∧ p.Twins q := by
  cases h with
  | single hverb h => exact ⟨p, expand_single hverb h, .refl⟩
  | @hollow w path v h hv =>
    have hverb := verb_of_edit h.edits.edit
    have hvalue := value_of_edit h.edits.edit (w.written?_edit v)
    have htwins : ∀ {q : PatchOp}, q.Writes w path v → p.Twins q := fun hq =>
      .reordered (h.trans hq.symm) ((w.fields_distinct path v).perm hq.symm fun h => by rwa [Scalar.same_comm])
    cases v with
    | scalar s => exact ⟨p, expand_single hverb (.inr ⟨s, hvalue⟩), .refl⟩
    | arr es =>
      obtain ⟨q, hexpand, hq⟩ := h.expand hv
      exact ⟨q, hexpand, htwins hq⟩
    | obj ms =>
      obtain ⟨q, hexpand, hq⟩ := h.expand hv
      exact ⟨q, hexpand, htwins hq⟩

/-- An operation comes apart in steps. -/
private theorem of_mem_expand {steps : Patch} (h : p.expand = .ok steps) : ∀ q ∈ steps, q.IsStep := by
  obtain ⟨verb, hverb, hsteps⟩ := Except.exists_of_bind h
  have hself : verb.write? = none ∨ (∃ s, p.value = .scalar s) → steps = [p] →
      ∀ q ∈ steps, q.IsStep := by
    rintro hsingle rfl q hq
    rw [List.mem_singleton.1 hq]
    exact .single hverb hsingle
  split at hsteps
  · rename_i s _ hvalue
    exact hself (.inr ⟨s, hvalue⟩) (Except.ok.inj hsteps).symm
  · obtain ⟨path, -, hparts⟩ := Except.exists_of_bind hsteps
    obtain rfl := Except.ok.inj hparts
    intro q hq
    obtain ⟨u, rest, rfl, hu⟩ := Write.toOp_of_mem_steps _ _ _ q hq
    exact .hollow (.toOp _ _ u) hu
  · rename_i hnone
    exact hself (.inl hnone) (Except.ok.inj hsteps).symm

end IsStep

namespace Twins

private theorem get?_eq (h : p.Twins q) (key : Scalar) : p.members.get? key = q.members.get? key := by
  cases h with
  | refl => rfl
  | reordered perm distinct => exact Members.get?_perm perm distinct

private theorem path_eq (h : p.Twins q) : q.path = p.path := by
  rw [PatchOp.path, PatchOp.path, Members.demand, Members.demand, h.get?_eq]

private theorem verb_eq (h : p.Twins q) : q.verb = p.verb := by
  rw [PatchOp.verb, PatchOp.verb, Members.demand, Members.demand, h.get?_eq]

private theorem value_eq (h : p.Twins q) : q.value = p.value := by
  rw [PatchOp.value, PatchOp.value, Members.valueOf, Members.valueOf, h.get?_eq]

private theorem put (h : p.Twins q) (key : Scalar) (v : Json) :
    Twins ⟨p.members.put key v⟩ ⟨q.members.put key v⟩ := by
  cases h with
  | refl => exact .refl
  | reordered perm distinct => exact .reordered (Members.put_perm perm distinct) (distinct.put key v)

end Twins

namespace SameStep

private theorem refl (h : p.IsStep) : p.SameStep p := ⟨h, .refl⟩

private theorem withPath (h : p.SameStep q) (path : Path) : (p.withPath path).SameStep (q.withPath path) :=
  ⟨h.step.withPath path, h.twins.put _ _⟩

private theorem withValue (h : p.SameStep q) (s : Scalar) :
    (p.withValue (.scalar s)).SameStep (q.withValue (.scalar s)) :=
  ⟨h.step.withValue s, h.twins.put _ _⟩

end SameStep

end PatchOp

/-- Alike outcomes of a lens for an operation: the same fault, nothing twice, or the same step. -/
inductive SameOutcome : Except Fault (Option PatchOp) → Except Fault (Option PatchOp) → Prop
  | fault (f : Fault) : SameOutcome (.error f) (.error f)
  | dropped : SameOutcome (.ok none) (.ok none)
  | carried {p q : PatchOp} (h : p.SameStep q) : SameOutcome (.ok (some p)) (.ok (some q))

section Carrying

variable {p q : PatchOp} {path : Path}

private theorem sameOutcome_wrap (h : p.SameStep q) (name : Json) :
    SameOutcome (LensOp.carryWrap name p path) (LensOp.carryWrap name q path) := by
  obtain ⟨verb, hverb⟩ := h.step.exists_verb
  cases path with
  | nil => exact .carried h
  | cons token below =>
    simp only [LensOp.carryWrap, h.twins.verb_eq, h.twins.value_eq, hverb, Except.bind_ok]
    split
    · exact .carried h
    · split
      · exact .carried (.refl (.remove _))
      · exact .carried (h.withPath _)

private theorem sameOutcome_head (h : p.SameStep q) (name : Json) :
    SameOutcome (LensOp.carryHead name p path) (LensOp.carryHead name q path) := by
  obtain ⟨verb, hverb⟩ := h.step.exists_verb
  have hanew : ∀ {w : Write} (target : Path), verb.write? = some w →
      (PatchOp.anew w.name p.value target).SameStep (.anew w.name p.value target) := fun target hw =>
    .refl (.hollow (.anew _ target _) (h.step.isHollow_value hverb hw))
  unfold LensOp.carryHead
  split
  · simp only [h.twins.verb_eq, h.twins.value_eq, hverb, Except.bind_ok]
    split
    · exact .carried h
    · cases verb with
      | add => exact .carried (hanew (w := .add) _ rfl)
      | replace => exact .carried (hanew (w := .replace) _ rfl)
      | remove =>
        dsimp only
        split
        · exact .carried (.refl (.hollow (.anew .replace _ _) rfl))
        · exact .carried (h.withPath _)
      | other => exact .carried h
  · split
    · exact .dropped
    · exact .carried h
  · exact .carried h

private theorem sameOutcome_convert (h : p.SameStep q) (name : Json) {mapping : Mapping}
    (hmapping : (mapping.forward.all fun m => m.2.isScalar) = true) :
    SameOutcome (LensOp.carryConvert name mapping p path) (LensOp.carryConvert name mapping q path) := by
  obtain ⟨verb, hverb⟩ := h.step.exists_verb
  simp only [LensOp.carryConvert, h.twins.verb_eq, h.twins.value_eq, hverb, Except.bind_ok]
  split
  · exact .carried h
  · split
    · split
      · exact .carried h
      · cases hrecode : mapping.recode? p.value with
        | none => exact .fault _
        | some v =>
          obtain ⟨s, rfl⟩ := Mapping.exists_scalar_of_recode hmapping hrecode
          exact .carried (h.withValue s)
    · exact .carried h

private theorem sameOutcome_flat (h : p.SameStep q) (op : LensOp) (hop : op.recodesToScalars = true) :
    SameOutcome (op.carryFlat p path) (op.carryFlat q path) := by
  obtain ⟨verb, hverb⟩ := h.step.exists_verb
  have hverb' := h.twins.verb_eq.trans hverb
  cases op with
  | rename source destination =>
    simp only [LensOp.carryFlat, hverb, hverb', Except.bind_ok]
    split
    · exact .carried (h.withPath _)
    · exact .carried h
  | hoist host name =>
    simp only [LensOp.carryFlat]
    split
    · split
      · exact .carried (h.withPath _)
      · exact .carried h
    · exact .carried h
  | plunge host name =>
    simp only [LensOp.carryFlat]
    split
    · exact .carried (h.withPath _)
    · exact .carried h
  | wrap name => exact sameOutcome_wrap h name
  | head name => exact sameOutcome_head h name
  | remove property =>
    simp only [LensOp.carryFlat, hverb, hverb', Except.bind_ok]
    split
    · exact .carried h
    · split
      · exact .dropped
      · exact .carried h
  | convert name mapping source destination => exact sameOutcome_convert h name hop
  | _ => exact .carried h

private theorem SameOutcome.behind {x y : Except Fault (Option PatchOp)} (h : SameOutcome x y) (above : Path) :
    SameOutcome (do
      match ← x with
      | none => return none
      | some q => return some (q.withPath (above ++ (← q.path)))) (do
      match ← y with
      | none => return none
      | some q => return some (q.withPath (above ++ (← q.path)))) := by
  cases h with
  | fault f => exact .fault f
  | dropped => exact .dropped
  | @carried p q h =>
    simp only [Except.bind_ok, h.twins.path_eq]
    cases p.path with
    | error f => exact .fault f
    | ok path => exact .carried (h.withPath _)

end Carrying

mutual

theorem LensOp.sameOutcome (op : LensOp) (hop : op.recodesToScalars = true) {p q : PatchOp} (h : p.SameStep q)
    (path : Path) : SameOutcome (LensOp.carry p path op).outcome (LensOp.carry q path op).outcome := by
  match op with
  | .inside name lens =>
    by_cases hname : path.startsWith name = true
    · rw [LensOp.outcome_carry_within lens hname, LensOp.outcome_carry_within lens hname]
      exact (Lens.sameOutcome lens hop (h.withPath path.tail)).behind [name.plain]
    · rw [LensOp.outcome_carry_inside_of_not lens hname, LensOp.outcome_carry_inside_of_not lens hname]
      exact .carried h
  | .each lens =>
    rw [LensOp.outcome_carry_each, LensOp.outcome_carry_each]
    cases path.cutAtIndex? with
    | none => exact .carried h
    | some cut => exact (Lens.sameOutcome lens hop (h.withPath cut.2)).behind cut.1
  | .rename _ _ | .hoist _ _ | .plunge _ _ | .wrap _ | .head _ | .add _ | .remove _ |
      .convert _ _ _ _ =>
    simp only [LensOp.carry, Noted.outcome_liftM]
    exact sameOutcome_flat h _ hop

/-- A lens whose tables hold scalars makes the same step of the same step. -/
theorem Lens.sameOutcome (lens : Lens) (hlens : lens.recodesToScalars = true) {p q : PatchOp} (h : p.SameStep q) :
    SameOutcome (Lens.carry p lens).outcome (Lens.carry q lens).outcome := by
  match lens with
  | [] => exact .carried h
  | op :: rest =>
    rw [Lens.recodesToScalars, Bool.and_eq_true] at hlens
    cases hpath : p.path with
    | error fault =>
      simp only [Lens.carry, Noted.outcome_bind, Noted.outcome_liftM, h.twins.path_eq, hpath]
      exact .fault fault
    | ok path =>
      rw [Lens.outcome_carry_cons hpath, Lens.outcome_carry_cons (h.twins.path_eq.trans hpath)]
      have hfirst := LensOp.sameOutcome op hlens.1 h path
      generalize (LensOp.carry p path op).outcome = x, (LensOp.carry q path op).outcome = y at hfirst
      cases hfirst with
      | fault f => exact .fault f
      | dropped => exact .dropped
      | carried hnext => exact Lens.sameOutcome rest hlens.2 hnext

end

inductive Agree {α β : Type} (r : α → β → Prop) : Except Fault α → Except Fault β → Prop
  | fail (f g : Fault) : Agree r (.error f) (.error g)
  | both {a : α} {b : β} (h : r a b) : Agree r (.ok a) (.ok b)

private theorem Agree.exists_of_ok {α β : Type} {r : α → β → Prop} {a : α} {y : Except Fault β}
    (h : Agree r (.ok a) y) : ∃ b, y = .ok b ∧ r a b := by
  cases h with
  | both h => exact ⟨_, rfl, h⟩

namespace Patch

variable {steps : Patch}

private theorem isStep_of_expand {vs : List Json} (h : expand vs = .ok steps) : ∀ p ∈ steps, p.IsStep := by
  induction vs generalizing steps with
  | nil =>
    obtain rfl := Except.ok.inj h
    exact fun p hp => by cases hp
  | cons v rest ih =>
    obtain ⟨p, -, hp⟩ := Except.exists_of_bind h
    obtain ⟨first, hfirst, hrest⟩ := Except.exists_of_bind hp
    obtain ⟨others, hothers, heq⟩ := Except.exists_of_bind hrest
    obtain rfl := Except.ok.inj heq
    exact List.forall_mem_append.2 ⟨PatchOp.IsStep.of_mem_expand hfirst, ih hothers⟩

private theorem expand_steps (h : ∀ p ∈ steps, p.IsStep) :
    ∃ steps', expand (steps.map PatchOp.toJson) = .ok steps' ∧
      List.Forall₂ PatchOp.SameStep steps steps' := by
  induction steps with
  | nil => exact ⟨[], rfl, .nil⟩
  | cons p rest ih =>
    obtain ⟨hp, hrest⟩ := List.forall_mem_cons.1 h
    obtain ⟨q, hq, htwins⟩ := hp.expand
    obtain ⟨others, hothers, hall⟩ := ih hrest
    exact ⟨q :: others, expand_cons hq hothers, .cons ⟨hp, htwins⟩ hall⟩

end Patch

namespace Lens

variable {first second lens : Lens} {steps steps' converted : Patch}

/-- The operations go through the second lens behind the first one all the same, whichever of them fails
before. -/
theorem carryAll_append (first second : Lens) (steps : Patch) :
    Agree Eq ((first ++ second).carryAll steps).outcome (do
      (second.carryAll (← (first.carryAll steps).outcome)).outcome) := by
  induction steps with
  | nil => exact .both rfl
  | cons p rest ih =>
    rw [outcome_carryAll_cons, outcome_carryAll_cons, outcome_carry_append]
    generalize ((first ++ second).carryAll rest).outcome = both at ih ⊢
    cases (Lens.carry p first).outcome with
    | error f => exact .fail f f
    | ok left =>
    cases left with
    | none => exact ih
    | some q =>
    cases hthere : (first.carryAll rest).outcome with
    | error f =>
      rw [hthere] at ih
      cases ih with
      | fail g =>
        simp only [Except.bind_ok]
        rcases (Lens.carry q second).outcome with g' | _ | r
        · exact .fail g' f
        · exact .fail g f
        · exact .fail g f
    | ok there =>
      rw [hthere, Except.bind_ok] at ih
      simp only [Except.bind_ok]
      show Agree Eq _ (second.carryAll (q :: there)).outcome
      rw [outcome_carryAll_cons]
      rcases (Lens.carry q second).outcome with g | _ | r
      · exact .fail g g
      · exact ih
      · simp only [Except.bind_ok]
        generalize (second.carryAll there).outcome = behind at ih ⊢
        cases ih with
        | fail f g => exact .fail f g
        | both heq => exact .both (congrArg (r :: ·) heq)

/-- Out of a lens whose tables hold scalars come steps again. -/
theorem isStep_of_carryAll (hlens : lens.recodesToScalars = true) (hsteps : ∀ p ∈ steps, p.IsStep)
    (h : (lens.carryAll steps).outcome = .ok converted) : ∀ q ∈ converted, q.IsStep := by
  induction steps generalizing converted with
  | nil =>
    obtain rfl := Except.ok.inj h
    exact fun q hq => by cases hq
  | cons p rest ih =>
    obtain ⟨hp, hrest⟩ := List.forall_mem_cons.1 hsteps
    rw [outcome_carryAll_cons] at h
    have hfirst := Lens.sameOutcome lens hlens (.refl hp)
    generalize (Lens.carry p lens).outcome = left at h hfirst
    cases hfirst with
    | fault f => cases h
    | dropped => exact ih hrest h
    | carried hq =>
      rw [Except.bind_ok] at h
      obtain ⟨others, hothers, heq⟩ := Except.exists_of_bind h
      obtain rfl := Except.ok.inj heq
      exact List.forall_mem_cons.2 ⟨hq.step, ih hrest hothers⟩

private theorem carryAll_sameSteps (hlens : lens.recodesToScalars = true)
    (h : List.Forall₂ PatchOp.SameStep steps steps') :
    Agree (List.Forall₂ PatchOp.SameStep) (lens.carryAll steps).outcome (lens.carryAll steps').outcome := by
  induction h with
  | nil => exact .both .nil
  | @cons p q rest rest' hpq _ ih =>
    rw [outcome_carryAll_cons, outcome_carryAll_cons]
    have hfirst := Lens.sameOutcome lens hlens hpq
    generalize (Lens.carry p lens).outcome = left, (Lens.carry q lens).outcome = left' at hfirst
    cases hfirst with
    | fault f => exact .fail f f
    | dropped => exact ih
    | carried hq =>
      simp only [Except.bind_ok]
      generalize (lens.carryAll rest).outcome = others, (lens.carryAll rest').outcome = others' at ih
      cases ih with
      | fail f g => exact .fail f g
      | both hall => exact .both (.cons hq hall)

/-- Through two lenses in turn a patch can be converted if and only if it can be converted through both at
once, and then the same operations come out, but for the order of the fields of an operation. -/
theorem convertPatch_append (hfirst : first.recodesToScalars = true) (hsecond : second.recodesToScalars = true)
    (schema schema₁ schema₂ patch : Json) :
    Agree (List.Forall₂ PatchOp.Twins)
      ((first ++ second).convertPatch false schema patch).outcome (do
        let there ← (first.convertPatch false schema₁ patch).outcome
        (second.convertPatch false schema₂ (.arr (there.map PatchOp.toJson))).outcome) := by
  rw [outcome_convertPatch, outcome_convertPatch]
  cases patch.asList with
  | error f => exact .fail f f
  | ok vs =>
  simp only [Except.bind_ok]
  cases hexpand : Patch.expand vs with
  | error f => exact .fail f f
  | ok steps =>
  have hboth := carryAll_append first second steps
  simp only [Except.bind_ok]
  cases hthere : (first.carryAll steps).outcome with
  | error f =>
    rw [hthere] at hboth
    generalize ((first ++ second).carryAll steps).outcome = both at hboth ⊢
    cases hboth with
    | fail g => exact .fail g f
  | ok there =>
    have hsteps := isStep_of_carryAll hfirst (Patch.isStep_of_expand hexpand) hthere
    obtain ⟨again, hagain, hsame⟩ := Patch.expand_steps hsteps
    have hsecond := carryAll_sameSteps hsecond hsame
    rw [hthere, Except.bind_ok] at hboth
    rw [Except.bind_ok, outcome_convertPatch_plain schema₂ hagain]
    generalize ((first ++ second).carryAll steps).outcome = both, (second.carryAll there).outcome = turn,
      (second.carryAll again).outcome = turn' at hboth hsecond ⊢
    cases hboth with
    | fail f => cases hsecond with | fail _ g => exact .fail f g
    | both heq =>
      cases hsecond with
      | both hall => exact .both (heq ▸ hall.imp fun _ _ h => h.twins)

/-- An object below a member that is recoded by the first lens, wrapped by the second one and renamed. -/
theorem convertPatch_append_items :
    let first : Lens := [.inside (.str "h") [.convert (.str "c") ⟨[(.str "a", .int 1)], []⟩ .null .null]]
    let second : Lens := [.wrap (.str "h"), .rename (.str "h") (.str "k")]
    let patch : Json := .arr [(PatchOp.add ["h"] (.obj [("c", .str "a"), ("d", .arr [])])).toJson]
    ∃ there back, (first.convertPatch false .emptyObject patch).outcome = .ok there ∧
      (second.convertPatch false .emptyObject (.arr (there.map PatchOp.toJson))).outcome = .ok back ∧
      List.Forall₂ PatchOp.Twins
        [.add ["k", "0"] .emptyObject, .add ["k", "0", "c"] (.int 1), .add ["k", "0", "d"] (.arr [])] back := by
  intro first second patch
  have h := @convertPatch_append first second (by decide) (by decide)
    .emptyObject .emptyObject .emptyObject patch
  have hboth : ((first ++ second).convertPatch false .emptyObject patch).outcome = .ok
      [.add ["k", "0"] .emptyObject, .add ["k", "0", "c"] (.int 1), .add ["k", "0", "d"] (.arr [])] := by
    decide +kernel
  rw [hboth] at h
  obtain ⟨back, hturn, hback⟩ := h.exists_of_ok
  obtain ⟨there, hthere, hlater⟩ := Except.exists_of_bind hturn
  exact ⟨there, back, hthere, hlater, hback⟩

end Lens

end EditLens
