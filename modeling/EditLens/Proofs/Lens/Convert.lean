import EditLens.Convert
import EditLens.Proofs.Lens.Carry

/-! Whole patches through a lens. Main statements: small steps and carried operations of a patch are
those of its parts, one behind the other, and what is made of the patch depends on nothing else. -/
namespace EditLens

variable {lens : Lens} {patch steps steps' converted converted' : Patch} {p q : PatchOp}

@[simp] theorem Except.bind_ok {ε α β : Type} (a : α) (f : α → Except ε β) :
    (Except.ok a >>= f) = f a := rfl

theorem Except.exists_of_bind {ε α β : Type} {x : Except ε α} {f : α → Except ε β} {b : β}
    (h : (x >>= f) = .ok b) : ∃ a, x = .ok a ∧ f a = .ok b := by
  cases x with
  | error fault => cases h
  | ok a => exact ⟨a, rfl, h⟩

namespace Patch

theorem expand_cons {vs : List Json} (hp : p.expand = .ok steps) (h : expand vs = .ok steps') :
    expand (p.toJson :: vs) = .ok (steps ++ steps') := by
  simp [expand, PatchOp.toJson, PatchOp.ofJson, hp, h, bind, Except.bind, pure, Except.pure]

end Patch

namespace Lens

theorem outcome_carryAll_cons (rest : Patch) :
    (lens.carryAll (p :: rest)).outcome = (do
      match ← (Lens.carry p lens).outcome with
      | some q => return q :: (← (lens.carryAll rest).outcome)
      | none => (lens.carryAll rest).outcome) := by
  simp only [carryAll, Noted.outcome_bind]
  congr 1
  funext found
  cases found with
  | none => rfl
  | some q =>
    rw [Noted.outcome_bind]
    rfl

theorem outcome_carryAll_append (first second : Patch) :
    (lens.carryAll (first ++ second)).outcome = (do
      return (← (lens.carryAll first).outcome) ++ (← (lens.carryAll second).outcome)) := by
  induction first with
  | nil =>
    cases h : (lens.carryAll second).outcome <;>
      simp [carryAll, h, bind, Except.bind, pure, Except.pure]
  | cons p rest ih =>
    rw [List.cons_append, outcome_carryAll_cons, outcome_carryAll_cons, ih]
    cases (Lens.carry p lens).outcome with
    | error fault => rfl
    | ok found =>
      cases found with
      | none => rfl
      | some q =>
        cases (lens.carryAll rest).outcome <;> cases (lens.carryAll second).outcome <;> rfl

/-- Without defaults, a patch is converted step by step and no schema matters. -/
theorem outcome_convertPatch (schema patch : Json) :
    (lens.convertPatch false schema patch).outcome = (do
      let steps ← Patch.expand (← patch.asList)
      (lens.carryAll steps).outcome) := by
  simp only [convertPatch, Noted.outcome_bind, Noted.outcome_liftM]
  cases patch.asList with
  | error fault => rfl
  | ok vs =>
    simp only [Except.bind_ok]
    cases Patch.expand vs with
    | error fault => rfl
    | ok steps =>
      simp only [Except.bind_ok, Noted.outcome_note]
      cases (lens.carryAll steps).outcome <;> rfl

theorem outcome_convertPatch_plain (schema : Json) {vs : List Json}
    (hexpand : Patch.expand vs = .ok steps) :
    (lens.convertPatch false schema (.arr vs)).outcome = (lens.carryAll steps).outcome := by
  rw [outcome_convertPatch, Json.asList, Except.bind_ok, hexpand, Except.bind_ok]

end Lens

end EditLens
