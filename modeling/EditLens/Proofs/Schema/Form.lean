import EditLens.Proofs.Patch.Filling
import EditLens.Schema.Basic

/-! Forms of documents: which members objects have, and of which types scalars are. Main statements: a
document that has all the members of its form can be written wherever the form has a place, and keeps
its form if what is written has the form of that place. -/
namespace EditLens

def Scalar.hasType (s : Scalar) (type : String) : Bool :=
  (Json.scalar s).typeName = type || (type = "number" && (Json.scalar s).typeName = "integer")

/-- Forms of documents. Of arrays it is told whether they come from scalars that were wrapped. -/
inductive Form where
  | any
  | leaf (type : String)
  | arr (wraps : Bool) (element : Form)
  | obj (members : String → Option Form)

namespace Form

/-- The form of the part that a path leads to. Where anything goes, every path leads somewhere. -/
def at? : Path → Form → Option Form
  | [], σ => some σ
  | _ :: _, .any => some .any
  | _ :: _, .leaf _ => none
  | token :: rest, .arr _ σ => (Pointer.position? token).bind fun _ => at? rest σ
  | token :: rest, .obj f => (f token).bind (at? rest)

/-- Documents of a form, which have all its members if so required. -/
inductive Fits (full : Bool) : Form → Tree → Prop
  | any (t : Tree) : Fits full .any t
  | leaf {type : String} {s : Scalar} (h : s.hasType type = true) : Fits full (.leaf type) (.scalar s)
  | arr {wraps : Bool} {σ : Form} {es : List Tree} (elements : ∀ e ∈ es, Fits full σ e) :
    Fits full (.arr wraps σ) (.arr es)
  | obj {f : String → Option Form} {g : String → Option Tree}
    (known : ∀ name, f name = none → g name = none)
    (filled : full = true → ∀ name, g name = none → f name = none)
    (parts : ∀ name σ t, f name = some σ → g name = some t → Fits full σ t) : Fits full (.obj f) (.obj g)

def Allows : Form → Json → Prop
  | .any, v => v.isHollow = true
  | .leaf type, .scalar s => s.hasType type = true
  | .arr _ _, .arr es => es = []
  | .obj _, .obj ms => ms = []
  | _, _ => False

/-- Edits at the places of a form. Beside additions these are removals from arrays of wrapped nulls. -/
inductive Permits : Form → Path → Edit → Prop
  | here {σ : Form} {v : Json} (h : σ.Allows v) : Permits σ [] (.add v)
  | free {v : Json} (path : Path) (h : v.isHollow = true) : Permits .any path (.add v)
  | null (i : Nat) : Permits (.arr true (.leaf "null")) [i.repr] .remove
  | element {wraps : Bool} {σ : Form} {rest : Path} {e : Edit} (i : Nat) (below : Permits σ rest e) :
    Permits (.arr wraps σ) (i.repr :: rest) e
  | member {f : String → Option Form} {name : String} {σ : Form} {rest : Path} {e : Edit}
    (described : f name = some σ) (below : Permits σ rest e) : Permits (.obj f) (name :: rest) e

inductive Reaches : Form → Path → Form → Prop
  | here (σ : Form) : Reaches σ [] σ
  | member {f : String → Option Form} {name : String} {σ τ : Form} {rest : Path}
    (described : f name = some σ) (below : Reaches σ rest τ) : Reaches (.obj f) (name :: rest) τ

/-- Paths through members, which may end at the first element of an array of scalars. -/
inductive Near : Form → Path → Prop
  | here (σ : Form) : Near σ []
  | first (wraps : Bool) (type : String) : Near (.arr wraps (.leaf type)) ["0"]
  | member {f : String → Option Form} {name : String} {σ : Form} {rest : Path}
    (described : f name = some σ) (below : Near σ rest) : Near (.obj f) (name :: rest)

section Places

variable {σ τ : Form} {f : String → Option Form} {name : String} {path rest : Path} {e : Edit}
  {v : Json} {wraps : Bool}

@[simp] theorem at?_nil : σ.at? [] = some σ := by
  cases σ <;> rfl

@[simp] theorem at?_any : any.at? path = some any := by
  cases path <;> rfl

@[simp] theorem at?_obj : (obj f).at? (name :: rest) = (f name).bind (at? rest) := rfl

@[simp] theorem at?_arr (i : Nat) : (arr wraps σ).at? (i.repr :: rest) = σ.at? rest := by
  rw [at?, Pointer.position?_repr, Option.bind_some]

theorem at?_arr_eq_some {token : String} (h : (arr wraps σ).at? (token :: rest) = some τ) :
    ∃ i : Nat, token = i.repr ∧ σ.at? rest = some τ := by
  obtain ⟨i, hi, hbelow⟩ := Option.bind_eq_some_iff.1 h
  exact ⟨i, Pointer.eq_repr_of_position? hi, hbelow⟩

theorem at?_append (path rest : Path) : σ.at? (path ++ rest) = (σ.at? path).bind (at? rest) := by
  induction path generalizing σ with
  | nil => simp
  | cons token path ih =>
    cases σ with
    | any => simp
    | leaf type => rfl
    | arr wraps σ =>
      simp only [List.cons_append, at?]
      cases Pointer.position? token with
      | none => rfl
      | some i => exact ih
    | obj f =>
      simp only [List.cons_append, at?]
      cases f token with
      | none => rfl
      | some σ => exact ih

/-- Where nothing has to be filled in, a value that begins a document of a form has the form. -/
theorem Allows.fits {full : Bool} (h : σ.Allows v) (hne : v ≠ .emptyObject) : σ.Fits full v.tree := by
  cases σ with
  | any => exact .any _
  | leaf type =>
    cases v with
    | scalar s => exact .leaf h
    | _ => cases h
  | arr wraps σ =>
    cases v with
    | arr es =>
      obtain rfl : es = [] := h
      rw [Json.tree_arr]
      exact .arr (by simp)
    | _ => cases h
  | obj f =>
    cases v with
    | obj ms => exact absurd (congrArg Json.obj h) hne
    | _ => cases h

theorem permits_obj : Permits (.obj f) (name :: rest) e ↔ ∃ τ, f name = some τ ∧ Permits τ rest e := by
  constructor
  · intro h
    cases h with
    | member described below => exact ⟨_, described, below⟩
  · rintro ⟨τ, hτ, h⟩
    exact .member hτ h

theorem Permits.append (hat : σ.at? path = some τ) (h : Permits τ rest e) : Permits σ (path ++ rest) e := by
  induction path generalizing σ with
  | nil =>
    obtain rfl : σ = τ := by simpa using hat
    exact h
  | cons token path ih =>
    cases σ with
    | any =>
      obtain rfl : any = τ := by simpa using hat
      cases h with
      | here h => exact .free _ h
      | free _ h => exact .free _ h
    | leaf type => cases hat
    | arr wraps σ =>
      obtain ⟨i, rfl, hbelow⟩ := at?_arr_eq_some hat
      exact .element i (ih hbelow)
    | obj f =>
      obtain ⟨σ, hσ, hbelow⟩ := Option.bind_eq_some_iff.1 hat
      exact .member hσ (ih hbelow)

theorem Permits.of_append (h : Permits σ (path ++ rest) e) (hat : σ.at? path = some τ) (hrest : rest ≠ []) :
    Permits τ rest e := by
  induction path generalizing σ with
  | nil =>
    obtain rfl : σ = τ := by simpa using hat
    exact h
  | cons token path ih =>
    rw [List.cons_append] at h
    generalize hbelow : path ++ rest = tail at h ih
    cases h with
    | free _ h =>
      obtain rfl : any = τ := by simpa using hat
      exact .free _ h
    | null i => exact absurd (List.append_eq_nil_iff.1 hbelow).2 hrest
    | element i below => exact ih below (by simpa using hat)
    | member described below => exact ih below (by simpa [described] using hat)

theorem Reaches.at? (h : Reaches σ path τ) : σ.at? path = some τ := by
  induction h with
  | here σ => exact at?_nil
  | member described below ih => rw [at?_obj, described, Option.bind_some, ih]

theorem Reaches.append {υ : Form} (h : Reaches σ path τ) (h' : Reaches τ rest υ) :
    Reaches σ (path ++ rest) υ := by
  induction h with
  | here σ => exact h'
  | member described below ih => exact .member described (ih h')

theorem Reaches.near (h : Reaches σ path τ) : Near σ path := by
  induction h with
  | here σ => exact .here σ
  | member described below ih => exact .member described ih

theorem Near.cases (h : Near σ path) : (∃ τ, Reaches σ path τ) ∨
    ∃ above wraps type, path = above ++ ["0"] ∧ Reaches σ above (.arr wraps (.leaf type)) := by
  induction h with
  | here σ => exact .inl ⟨σ, .here σ⟩
  | first wraps type => exact .inr ⟨[], wraps, type, rfl, .here _⟩
  | @member f name σ rest described below ih =>
    rcases ih with ⟨τ, hτ⟩ | ⟨above, wraps, type, rfl, habove⟩
    · exact .inl ⟨τ, .member described hτ⟩
    · exact .inr ⟨name :: above, wraps, type, rfl, .member described habove⟩

end Places

namespace Fits

variable {full : Bool} {σ τ : Form} {f : String → Option Form} {g : String → Option Tree}
  {t u : Tree} {es : List Tree} {name : String} {path : Path} {wraps : Bool}

/-- A member may have any value that has its form. -/
theorem update (h : Fits full (.obj f) (.obj g)) (hσ : f name = some σ) (ht : Fits full σ t) :
    Fits full (.obj f) (.obj (Function.update g name (some t))) := by
  cases h with
  | obj known filled parts =>
  refine .obj (fun other hother => ?_) (fun hfull other hother => ?_) fun other τ u hτ hu => ?_
  · have hne : other ≠ name := by
      rintro rfl
      rw [hother] at hσ
      cases hσ
    rw [Function.update_of_ne hne]
    exact known other hother
  · by_cases hne : other = name
    · subst hne
      simp at hother
    · rw [Function.update_of_ne hne] at hother
      exact filled hfull other hother
  · by_cases hne : other = name
    · subst hne
      obtain rfl := Option.some.inj (hσ.symm.trans hτ)
      obtain rfl : t = u := by simpa using hu
      exact ht
    · rw [Function.update_of_ne hne] at hu
      exact parts other τ u hτ hu

/-- All members that a form has are there. -/
theorem exists_member (h : Fits true (.obj f) t) (hσ : f name = some σ) :
    ∃ g u, t = .obj g ∧ g name = some u ∧ Fits true σ u := by
  cases h with
  | @obj _ g known filled parts =>
  cases hg : g name with
  | none =>
    rw [filled rfl name hg] at hσ
    cases hσ
  | some u => exact ⟨g, u, rfl, hg, parts name σ u hσ hg⟩

/-- No members are there but those that a form has. -/
theorem exists_form (h : Fits full (.obj f) (.obj g)) (ht : g name = some t) :
    ∃ σ, f name = some σ ∧ Fits full σ t := by
  cases h with
  | obj known filled parts =>
  cases hσ : f name with
  | none =>
    rw [known name hσ] at ht
    cases ht
  | some σ => exact ⟨σ, rfl, parts name σ t hσ ht⟩

theorem arr_iff : Fits full (.arr wraps σ) (.arr es) ↔ ∀ e ∈ es, Fits full σ e := by
  constructor
  · intro h
    cases h with
    | arr elements => exact elements
  · exact .arr

/-- Where members lead to there is something, and anything of its form can take its place. -/
theorem exists_context (h : Fits true σ t) (hreach : Reaches σ path τ) : ∃ a C,
    Tree.IsContext path (some t) C ∧ t = C a ∧ Fits true τ a ∧ ∀ b, Fits true τ b → Fits true σ (C b) := by
  induction hreach generalizing t with
  | here σ => exact ⟨t, id, .root _, rfl, h, fun _ hb => hb⟩
  | @member f name σ τ rest described below ih =>
    obtain ⟨g, u, rfl, hu, hfits⟩ := h.exists_member described
    obtain ⟨a, C, hC, rfl, ha, hput⟩ := ih hfits
    refine ⟨a, fun v => .obj (Function.update g name (some (C v))), .of_write fun v => ?_, ?_, ha,
      fun b hb => h.update described (hput b hb)⟩
    · rw [Tree.write_cons_obj, hu, hC.write, Option.map_some]
    · show Tree.obj g = .obj (Function.update g name (some (C a)))
      rw [← hu, Function.update_eq_self]

end Fits

end Form

end EditLens
