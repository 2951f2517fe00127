import EditLens.Proofs.Schema.Form

/-! The small steps that write a value, one by one. Main statements: where a value has a form, each step is at
a place of the form, and the steps at two places are the same but for the place. -/
namespace EditLens

open Form

namespace Form

variable {σ : Form} {v : Json}

/-- A value of a form begins as the form allows. -/
theorem Fits.allows (h : σ.Fits false v.tree) : σ.Allows v.hollow := by
  cases v with
  | scalar s =>
    cases h with
    | any => exact rfl
    | leaf h => exact h
  | arr es =>
    rw [Json.tree_arr] at h
    cases h with
    | any => exact rfl
    | arr => exact rfl
  | obj ms =>
    rw [Json.tree_obj] at h
    cases h with
    | any => exact rfl
    | obj => exact rfl

theorem Allows.isHollow (h : σ.Allows v) : v.isHollow = true := by
  cases σ <;> cases v <;> first | exact h | exact List.isEmpty_iff.2 h | rfl | cases h

end Form

def Permitted (path : Path) (σ : Form) (steps : Patch) : Prop :=
  ∀ p ∈ steps, ∃ v rest, p.Edits (.add v) (path ++ rest) ∧ σ.Permits rest (.add v)

namespace Permitted

variable {path rest : Path} {σ τ : Form} {ps qs : Patch}

private theorem append (h : Permitted path σ ps) (h' : Permitted path σ qs) : Permitted path σ (ps ++ qs) :=
  List.forall_mem_append.2 ⟨h, h'⟩

/-- What is permitted in a part is permitted in the whole. -/
private theorem lift (h : Permitted (path ++ rest) τ ps) (hat : σ.at? rest = some τ) : Permitted path σ ps := by
  intro p hp
  obtain ⟨v, below, hedits, hpermits⟩ := h p hp
  exact ⟨v, rest ++ below, by rwa [← List.append_assoc], hpermits.append hat⟩

end Permitted

mutual

theorem Write.permitted_steps (v : Json) (hv : v.isDocument = true) {σ : Form}
    (hfits : σ.Fits false v.tree) (path : Path) : Permitted path σ (Write.add.steps path v) := by
  rw [Write.steps_eq]
  refine List.forall_mem_cons.2 ⟨⟨v.hollow, [], ?_, .here hfits.allows⟩, ?_⟩
  · rw [List.append_nil]
    exact PatchOp.edits_add path _
  · match v with
    | .scalar s => exact fun p hp => by cases hp
    | .arr es =>
      rw [Json.tree_arr] at hfits
      refine Write.permitted_elementSteps es (Json.isDocument_arr.1 hv) (σ := σ) (fun i e he => ?_) path 0
      cases hfits with
      | any => exact ⟨.any, at?_any, .any _⟩
      | @arr _ τ _ elements => exact ⟨τ, at?_arr i, elements _ (List.mem_map_of_mem he)⟩
    | .obj ms =>
      rw [Json.tree_obj] at hfits
      have hms := Json.isDocument_obj.1 hv
      refine Write.permitted_memberSteps ms hms (σ := σ) (fun name v hv => ?_) path
      have htree : Members.trees ms name = some v.tree := by
        rw [Members.trees, Members.get?_of_mem hms.distinct hv, Option.map_some]
      cases hfits with
      | any => exact ⟨.any, at?_any, .any _⟩
      | @obj f _ known filled parts =>
        cases hτ : f name with
        | none =>
          rw [known name hτ] at htree
          cases htree
        | some τ => exact ⟨τ, by rw [at?_obj, hτ, Option.bind_some, at?_nil], parts name τ _ hτ htree⟩

theorem Write.permitted_elementSteps (es : List Json) (hes : ∀ e ∈ es, e.isDocument = true) {σ : Form}
    (hfits : ∀ (i : Nat), ∀ e ∈ es, ∃ τ, σ.at? [i.repr] = some τ ∧ τ.Fits false e.tree)
    (path : Path) (i : Nat) : Permitted path σ (Write.add.elementSteps path i es) := by
  match es with
  | [] => exact fun p hp => by cases hp
  | e :: rest =>
    rw [List.forall_mem_cons] at hes
    obtain ⟨τ, hτ, he⟩ := hfits i e List.mem_cons_self
    exact ((Write.permitted_steps e hes.1 he (path ++ [i.repr])).lift hτ).append
      (Write.permitted_elementSteps rest hes.2 (fun j e he => hfits j e (List.mem_cons_of_mem _ he)) path (i + 1))

theorem Write.permitted_memberSteps (ms : List (Scalar × Json)) (hms : Members.AreDocument ms) {σ : Form}
    (hfits : ∀ (name : String) (v : Json), (Scalar.str name, v) ∈ ms →
      ∃ τ, σ.at? [name] = some τ ∧ τ.Fits false v.tree)
    (path : Path) : Permitted path σ (Write.add.memberSteps path ms) := by
  match ms with
  | [] => exact fun p hp => by cases hp
  | (k, v) :: rest =>
    obtain ⟨name, rfl, -, hv, hrest⟩ := Members.areOf_cons.1 hms
    obtain ⟨τ, hτ, hfit⟩ := hfits name v List.mem_cons_self
    exact ((Write.permitted_steps v hv hfit (path ++ [name])).lift hτ).append
      (Write.permitted_memberSteps rest hrest (fun name v hv => hfits name v (List.mem_cons_of_mem _ hv)) path)

end

/-- Steps that add the same values, one below one place and the other below another. -/
def Shifted (above place : Path) (p q : PatchOp) : Prop :=
  ∃ v rest, p.Edits (.add v) (above ++ rest) ∧ q.Edits (.add v) (place ++ rest)

mutual

private theorem Write.shifted_steps (v : Json) (above place rest : Path) :
    List.Forall₂ (Shifted above place) (Write.add.steps (above ++ rest) v) (Write.add.steps (place ++ rest) v) := by
  rw [Write.steps_eq, Write.steps_eq]
  refine .cons ⟨v.hollow, rest, PatchOp.edits_add .., PatchOp.edits_add ..⟩ ?_
  match v with
  | .scalar s => exact .nil
  | .arr es => exact Write.shifted_elementSteps es above place rest 0
  | .obj ms => exact Write.shifted_memberSteps ms above place rest

theorem Write.shifted_elementSteps (es : List Json) (above place rest : Path) (i : Nat) :
    List.Forall₂ (Shifted above place) (Write.add.elementSteps (above ++ rest) i es)
      (Write.add.elementSteps (place ++ rest) i es) := by
  match es with
  | [] => exact .nil
  | e :: others =>
    rw [Write.elementSteps, Write.elementSteps, List.append_assoc, List.append_assoc]
    exact List.rel_append (Write.shifted_steps e above place (rest ++ [toString i]))
      (Write.shifted_elementSteps others above place rest (i + 1))

theorem Write.shifted_memberSteps (ms : List (Scalar × Json)) (above place rest : Path) :
    List.Forall₂ (Shifted above place) (Write.add.memberSteps (above ++ rest) ms)
      (Write.add.memberSteps (place ++ rest) ms) := by
  match ms with
  | [] => exact .nil
  | (k, v) :: others =>
    rw [Write.memberSteps, Write.memberSteps, List.append_assoc, List.append_assoc]
    exact List.rel_append (Write.shifted_steps v above place (rest ++ [k.plain]))
      (Write.shifted_memberSteps others above place rest)

end

/-- The steps below a value at two places are the same but for the place. -/
theorem Write.shifted_below (v : Json) (above place : Path) :
    List.Forall₂ (Shifted above place) (Write.add.below above v) (Write.add.below place v) := by
  have h := Write.shifted_steps v above place []
  rw [List.append_nil, List.append_nil, Write.steps_eq, Write.steps_eq] at h
  cases h with
  | cons _ hbelow => exact hbelow

end EditLens
