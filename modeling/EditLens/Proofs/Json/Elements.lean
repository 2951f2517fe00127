import Mathlib.Data.List.Forall2

/-! Lists of elements that are related one by one: an edit at the same place of both keeps them so. -/
namespace EditLens

variable {α β : Type} {R : α → β → Prop} {es : List α} {es' : List β} {a : α} {b : β}

theorem forall₂_insertIdx (h : List.Forall₂ R es es') (hab : R a b) (i : Nat) :
    List.Forall₂ R (es.insertIdx i a) (es'.insertIdx i b) := by
  induction h generalizing i with
  | nil =>
    cases i with
    | zero => exact .cons hab .nil
    | succ i => exact .nil
  | cons hcd hrest ih =>
    cases i with
    | zero => exact .cons hab (.cons hcd hrest)
    | succ i => exact .cons hcd (ih i)

theorem forall₂_set (h : List.Forall₂ R es es') (hab : R a b) (i : Nat) :
    List.Forall₂ R (es.set i a) (es'.set i b) := by
  induction h generalizing i with
  | nil => exact .nil
  | cons hcd hrest ih =>
    cases i with
    | zero => exact .cons hab hrest
    | succ i => exact .cons hcd (ih i)

theorem forall₂_eraseIdx (h : List.Forall₂ R es es') (i : Nat) :
    List.Forall₂ R (es.eraseIdx i) (es'.eraseIdx i) := by
  induction h generalizing i with
  | nil => exact .nil
  | cons hcd hrest ih =>
    cases i with
    | zero => exact hrest
    | succ i => exact .cons hcd (ih i)

theorem forall₂_exists (h : List.Forall₂ R es es') (ha : a ∈ es) : ∃ b, R a b := by
  induction h with
  | nil => cases ha
  | cons hcd hrest ih =>
    rcases List.mem_cons.1 ha with rfl | ha
    · exact ⟨_, hcd⟩
    · exact ih ha

theorem forall₂_exists_left (h : List.Forall₂ R es es') (hb : b ∈ es') : ∃ a ∈ es, R a b := by
  induction h with
  | nil => cases hb
  | cons hcd hrest ih =>
    rcases List.mem_cons.1 hb with rfl | hb
    · exact ⟨_, List.mem_cons_self, hcd⟩
    · obtain ⟨a, ha, hab⟩ := ih hb
      exact ⟨a, List.mem_cons_of_mem _ ha, hab⟩

theorem forall₂_getElem? (h : List.Forall₂ R es es') {i : Nat} (ha : es[i]? = some a) :
    ∃ b, es'[i]? = some b ∧ R a b := by
  induction h generalizing i with
  | nil => cases ha
  | cons hcd hrest ih =>
    cases i with
    | zero =>
      obtain rfl := Option.some.inj ha
      exact ⟨_, rfl, hcd⟩
    | succ i => exact ih ha

theorem forall₂_ne_nil (h : List.Forall₂ R es es') (hne : es ≠ []) : es' ≠ [] := by
  cases h with
  | nil => exact absurd rfl hne
  | cons => exact List.cons_ne_nil _ _

theorem forall₂_comp {γ : Type} {S : β → γ → Prop} {fs : List γ}
    (h : List.Forall₂ (fun a c => ∃ b, R a b ∧ S b c) es fs) :
    ∃ es', List.Forall₂ R es es' ∧ List.Forall₂ S es' fs := by
  induction h with
  | nil => exact ⟨[], .nil, .nil⟩
  | cons hac _ ih =>
    obtain ⟨b, hab, hbc⟩ := hac
    obtain ⟨bs, hR, hS⟩ := ih
    exact ⟨b :: bs, .cons hab hR, .cons hbc hS⟩

section Images

variable {γ δ : Type} {S : γ → δ → Prop}

theorem forall₂_map_eq {f : α → γ} {g : β → γ} (h : List.Forall₂ R es es')
    (hfg : ∀ a b, R a b → g b = f a) : es'.map g = es.map f := by
  induction h with
  | nil => rfl
  | cons hab _ ih => rw [List.map_cons, List.map_cons, ih, hfg _ _ hab]

theorem forall₂_filterMap {f : α → Option γ} {g : β → Option δ} (h : List.Forall₂ R es es')
    (hfg : ∀ a b, R a b → ∃ c d, f a = some c ∧ g b = some d ∧ S c d) :
    List.Forall₂ S (es.filterMap f) (es'.filterMap g) := by
  induction h with
  | nil => exact .nil
  | cons hab _ ih =>
    obtain ⟨c, d, hc, hd, hcd⟩ := hfg _ _ hab
    rw [List.filterMap_cons_some hc, List.filterMap_cons_some hd]
    exact .cons hcd ih

theorem forall₂_flatMap {f : α → List γ} {g : β → List δ} (h : List.Forall₂ R es es')
    (hfg : ∀ a b, R a b → List.Forall₂ S (f a) (g b)) :
    List.Forall₂ S (es.flatMap f) (es'.flatMap g) := by
  induction h with
  | nil => exact .nil
  | cons hab _ ih => exact List.rel_append (hfg _ _ hab) ih

end Images

end EditLens
