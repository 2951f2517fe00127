import EditLens.Proofs.Lens.Reforming
import EditLens.Proofs.Lens.Taking

/-! Where lenses take edits, by the forms of documents. Main statements: an edit at a place of the old form
becomes one at a place of the new form, and edits of or below an array go together to where the array goes. -/
namespace EditLens

open Form

mutual

inductive LensOp.Misses : LensOp → String → Prop
  | convert {name sourceType destinationType v : Json} {mapping : Mapping}
    (missing : mapping.recode? v = none) :
    LensOp.Misses (.convert name mapping sourceType destinationType) v.entry
  | inside {name : Json} {lens : Lens} {key : String} (below : Lens.Misses lens key) :
    LensOp.Misses (.inside name lens) key
  | each {lens : Lens} {key : String} (below : Lens.Misses lens key) : LensOp.Misses (.each lens) key

/-- Keys that some table of a lens does not have. -/
inductive Lens.Misses : Lens → String → Prop
  | here {op : LensOp} {lens : Lens} {key : String} (h : op.Misses key) : Lens.Misses (op :: lens) key
  | later {op : LensOp} {lens : Lens} {key : String} (h : Lens.Misses lens key) :
    Lens.Misses (op :: lens) key

end

def Form.Places (near : Prop) (σ : Form) (path : Path) (e : Edit) : Prop :=
  σ.Permits path e ∧ (near → σ.Near path)

/-- What becomes of an edit: it stays at a place, is dropped, or fails on a key that is missed. -/
inductive Lands (places : Path → Edit → Prop) (misses : String → Prop) :
    Except Fault (Option (Edit × Path)) → Prop
  | unmapped {key : String} (h : misses key) : Lands places misses (.error (.unmapped key))
  | dropped : Lands places misses (.ok none)
  | lands {e : Edit} {path : Path} (h : places path e) : Lands places misses (.ok (some (e, path)))

/-- No operation is about a document without members and elements. -/
theorem Lens.Reforms.eq_of_flat {lens : Lens} {σ σ' : Form} (h : Lens.Reforms lens σ σ')
    (hσ : σ = .any ∨ ∃ type, σ = .leaf type) : lens = [] ∧ σ' = σ := by
  cases h with
  | nil => exact ⟨rfl, rfl⟩
  | cons first others =>
    rcases hσ with rfl | ⟨type, rfl⟩ <;> cases first

namespace Form

variable {near : Prop} {σ τ : Form} {f g : String → Option Form} {name type : String} {path rest : Path} {e : Edit}
  {v : Json}

private theorem near_obj : (Form.obj f).Near (name :: rest) ↔ ∃ τ, f name = some τ ∧ τ.Near rest := by
  constructor
  · intro h
    cases h with
    | member described below => exact ⟨_, described, below⟩
  · rintro ⟨τ, hτ, h⟩
    exact .member hτ h

/-- A place in an object is a place in one of its members. -/
private theorem places_obj : (Form.obj f).Places near (name :: rest) e ↔
    ∃ τ, f name = some τ ∧ τ.Places near rest e := by
  simp only [Places, permits_obj, near_obj]
  constructor
  · rintro ⟨⟨τ, hτ, hpermits⟩, hnear⟩
    refine ⟨τ, hτ, hpermits, fun h => ?_⟩
    obtain ⟨τ', hτ', hbelow⟩ := hnear h
    rwa [Option.some.inj (hτ.symm.trans hτ')]
  · rintro ⟨τ, hτ, hpermits, hnear⟩
    exact ⟨⟨τ, hτ, hpermits⟩, fun h => ⟨τ, hτ, hnear h⟩⟩

/-- An object is made in the same way whatever its members. -/
private theorem Places.root (h : (Form.obj f).Places near [] e) : (Form.obj g).Places near [] e := by
  cases h.1 with
  | @here _ v hallows => exact ⟨.here (by cases v <;> exact hallows), fun _ => .here _⟩

private theorem Places.eq_of_leaf (h : (Form.leaf type).Places near path e) :
    path = [] ∧ ∃ v, e = .add v ∧ (Form.leaf type).Allows v := by
  cases h.1 with
  | here hallows => exact ⟨rfl, _, rfl, hallows⟩

/-- Where no null was wrapped, nothing is removed. -/
private theorem Calm.written (h : σ.Calm) (hpermits : σ.Permits path e) : e.written?.isSome = true := by
  induction hpermits with
  | here => rfl
  | free => rfl
  | null i => exact absurd at?_nil (h [])
  | @element wraps σ rest e i below ih => exact ih fun path hat => h (i.repr :: path) (by rwa [at?_arr])
  | @member f name σ rest e described below ih =>
    exact ih fun path hat => h (name :: path) (by rw [at?_obj, described, Option.bind_some, hat])

end Form

section Lands

variable {places places' : Path → Edit → Prop} {misses more : String → Prop}
  {taken : Except Fault (Option (Edit × Path))}

/-- What becomes of an edit below a place becomes of it behind that place. -/
private theorem Lands.behind {above : Path} (h : Lands places misses taken)
    (hplaces : ∀ path e, places path e → places' (above ++ path) e) :
    Lands places' misses (behind above taken) := by
  cases h with
  | unmapped hkey => exact .unmapped hkey
  | dropped => exact .dropped
  | lands h => exact .lands (hplaces _ _ h)

private theorem Lands.mono (h : Lands places misses taken) (hmore : ∀ key, misses key → more key) :
    Lands places more taken := by
  cases h with
  | unmapped hkey => exact .unmapped (hmore _ hkey)
  | dropped => exact .dropped
  | lands h => exact .lands h

end Lands

def LensOp.Moves (op : LensOp) : Prop :=
  ∀ {near : Prop} {σ σ' : Form} {path : Path} {e : Edit}, op.Reforms σ σ' → σ.Places near path e →
    Lands (σ'.Places near) op.Misses (op.take e path)

def Lens.Moves (lens : Lens) : Prop :=
  ∀ {near : Prop} {σ σ' : Form} {path : Path} {e : Edit}, Lens.Reforms lens σ σ' → σ.Places near path e →
    Lands (σ'.Places near) (Lens.Misses lens) (Lens.take e path lens)

namespace LensOp

/-- No operation is about the whole document. -/
private theorem lands_root {op : LensOp} {near : Prop} {f g : String → Option Form} {e : Edit}
    (h : (Form.obj f).Places near [] e) : Lands ((Form.obj g).Places near) op.Misses (op.take e []) := by
  rw [take_root]
  exact .lands h.root

/-- Edits of a member that an operation leaves alone stay where they are. -/
private theorem lands_kept {near : Prop} {misses : String → Prop} {f g : String → Option Form}
    {token : String} {rest : Path} {e : Edit} (h : (Form.obj f).Places near (token :: rest) e)
    (hkept : g token = f token) : Lands ((Form.obj g).Places near) misses (.ok (some (e, token :: rest))) := by
  obtain ⟨τ, hτ, hbelow⟩ := places_obj.1 h
  exact .lands (places_obj.2 ⟨τ, by rw [hkept, hτ], hbelow⟩)

/-- A member that is there has not the name of one that is new. -/
private theorem ne_of_places {near : Prop} {f : String → Option Form} {token name : String} {rest : Path}
    {e : Edit} (h : (Form.obj f).Places near (token :: rest) e) (hnew : f name = none) : token ≠ name := by
  rintro rfl
  obtain ⟨τ, hτ, -⟩ := places_obj.1 h
  rw [hnew] at hτ
  cases hτ

private theorem moves_rename (s d : Json) : (LensOp.rename s d).Moves := by
  intro near σ σ' path e hreforms hplaces
  cases hreforms with
  | @rename f source destination τ described new calm =>
  cases path with
  | nil => exact lands_root hplaces
  | cons token rest =>
  have hdestination := ne_of_places hplaces new
  rw [take_rename]
  by_cases htoken : source = token
  · subst htoken
    obtain ⟨υ, hυ, hbelow⟩ := places_obj.1 hplaces
    obtain rfl := Option.some.inj (described.symm.trans hυ)
    rw [if_pos ⟨calm.written hbelow.1, rfl⟩]
    exact .lands (places_obj.2 ⟨τ, Function.update_self .., hbelow⟩)
  · rw [if_neg (by simp [htoken])]
    exact lands_kept hplaces
      (by rw [Function.update_of_ne hdestination, Function.update_of_ne (Ne.symm htoken)])

private theorem moves_hoist (h n : Json) : (LensOp.hoist h n).Moves := by
  intro near σ σ' path e hreforms hplaces
  cases hreforms with
  | @hoist f g host name τ hosted described new =>
  cases path with
  | nil => exact lands_root hplaces
  | cons token rest =>
  have hname := ne_of_places hplaces new
  rw [take_hoist]
  by_cases htoken : host = token
  · subst htoken
    obtain ⟨υ, hυ, hbelow⟩ := places_obj.1 hplaces
    obtain rfl := Option.some.inj (hosted.symm.trans hυ)
    have hhost : ∀ o, Function.update (Function.update f host (some o)) name (some τ) host = some o :=
      fun o => by rw [Function.update_of_ne hname, Function.update_self]
    cases rest with
    | nil =>
      rw [if_neg (by simp)]
      exact .lands (places_obj.2 ⟨_, hhost _, hbelow.root⟩)
    | cons inner below =>
      obtain ⟨υ, hυ, hbelow⟩ := places_obj.1 hbelow
      by_cases hinner : inner = name
      · subst hinner
        obtain rfl := Option.some.inj (described.symm.trans hυ)
        rw [if_pos ⟨rfl, rfl⟩]
        exact .lands (places_obj.2 ⟨τ, Function.update_self .., hbelow⟩)
      · rw [if_neg (by simp [hinner])]
        refine .lands (places_obj.2 ⟨_, hhost _, places_obj.2 ⟨υ, ?_, hbelow⟩⟩)
        rw [Function.update_of_ne hinner, hυ]
  · rw [if_neg (by simp [htoken])]
    exact lands_kept hplaces (by rw [Function.update_of_ne hname, Function.update_of_ne (Ne.symm htoken)])

private theorem moves_plunge (h n : Json) : (LensOp.plunge h n).Moves := by
  intro near σ σ' path e hreforms hplaces
  cases hreforms with
  | @plunge f g host name τ hosted described new other =>
  cases path with
  | nil => exact lands_root hplaces
  | cons token rest =>
  rw [take_plunge]
  by_cases hname : name = token
  · subst hname
    obtain ⟨υ, hυ, hbelow⟩ := places_obj.1 hplaces
    obtain rfl := Option.some.inj (described.symm.trans hυ)
    rw [if_pos rfl]
    exact .lands (places_obj.2 ⟨_, Function.update_self ..,
      places_obj.2 ⟨τ, Function.update_self .., hbelow⟩⟩)
  · rw [if_neg hname]
    by_cases hhost : token = host
    · subst hhost
      obtain ⟨υ, hυ, hbelow⟩ := places_obj.1 hplaces
      obtain rfl := Option.some.inj (hosted.symm.trans hυ)
      refine .lands (places_obj.2 ⟨_, Function.update_self .., ?_⟩)
      cases rest with
      | nil => exact hbelow.root
      | cons inner below =>
        have hinner := ne_of_places hbelow new
        obtain ⟨υ, hυ, hbelow⟩ := places_obj.1 hbelow
        exact places_obj.2 ⟨υ, by rw [Function.update_of_ne hinner, hυ], hbelow⟩
    · exact lands_kept hplaces (by rw [Function.update_of_ne hhost, Function.update_of_ne (Ne.symm hname)])

private theorem moves_wrap (n : Json) : (LensOp.wrap n).Moves := by
  intro near σ σ' path e hreforms hplaces
  cases hreforms with
  | @wrap f name type described =>
  cases path with
  | nil => exact lands_root hplaces
  | cons token rest =>
  rw [take_wrap]
  by_cases hname : name = token
  · subst hname
    obtain ⟨υ, hυ, hbelow⟩ := places_obj.1 hplaces
    obtain rfl := Option.some.inj (described.symm.trans hυ)
    obtain ⟨rfl, v, rfl, hv⟩ := hbelow.eq_of_leaf
    rw [if_pos rfl]
    refine .lands (places_obj.2 ⟨_, Function.update_self .., ?_, fun _ => .first true type⟩)
    by_cases hnull : v = .null
    · -- Of the scalars only null becomes a removal, from what is then an array of wrapped nulls.
      subst hnull
      have htype : (decide ("null" = type) || (decide (type = "number") && decide ("null" = "integer"))) = true := hv
      obtain rfl : "null" = type := by simpa using htype
      exact .null 0
    · rw [if_neg (by simpa [Edit.written?] using hnull)]
      exact .element 0 (.here hv)
  · rw [if_neg hname]
    exact lands_kept hplaces (by rw [Function.update_of_ne (Ne.symm hname)])

private theorem moves_add (property : Property) : (LensOp.add property).Moves := by
  intro near σ σ' path e hreforms hplaces
  cases hreforms with
  | @add f name type _ hname new =>
  cases path with
  | nil => exact lands_root hplaces
  | cons token rest => exact lands_kept hplaces (by rw [Function.update_of_ne (ne_of_places hplaces new)])

private theorem moves_remove (property : Property) : (LensOp.remove property).Moves := by
  intro near σ σ' path e hreforms hplaces
  cases hreforms with
  | @remove f name _ hname =>
  cases path with
  | nil => exact lands_root hplaces
  | cons token rest =>
  rw [take_remove hname]
  by_cases htoken : name = token
  · rw [if_pos htoken]
    exact .dropped
  · rw [if_neg htoken]
    exact lands_kept hplaces (by rw [Function.update_of_ne (Ne.symm htoken)])

private theorem moves_convert (n : Json) (mapping : Mapping) (s d : Json) :
    (LensOp.convert n mapping s d).Moves := by
  intro near σ σ' path e hreforms hplaces
  cases hreforms with
  | @convert f name before after _ _ _ described values =>
  cases path with
  | nil => exact lands_root hplaces
  | cons token rest =>
  by_cases hname : name = token
  · subst hname
    obtain ⟨υ, hυ, hbelow⟩ := places_obj.1 hplaces
    obtain rfl := Option.some.inj (described.symm.trans hυ)
    obtain ⟨rfl, v, rfl, hv⟩ := hbelow.eq_of_leaf
    rw [take_convert_self rfl]
    cases hw : mapping.recode? v with
    | none => exact .unmapped (.convert hw)
    | some w =>
      obtain ⟨m, hm, rfl⟩ := Mapping.exists_of_recode hw
      exact .lands (places_obj.2 ⟨_, Function.update_self .., .here (values m hm), fun _ => .here _⟩)
  · rw [take_convert_of_ne hname]
    exact lands_kept hplaces (by rw [Function.update_of_ne (Ne.symm hname)])

private theorem moves_inside (n : Json) {lens : Lens} (ih : lens.Moves) : (LensOp.inside n lens).Moves := by
  intro near σ σ' path e hreforms hplaces
  cases hreforms with
  | @inside f name _ τ τ' described below =>
  cases path with
  | nil => exact lands_root hplaces
  | cons token rest =>
  rw [take_inside]
  by_cases hname : name = token
  · subst hname
    obtain ⟨υ, hυ, hbelow⟩ := places_obj.1 hplaces
    obtain rfl := Option.some.inj (described.symm.trans hυ)
    rw [if_pos rfl]
    exact ((ih below hbelow).mono fun _ h => .inside h).behind
      fun path e hplaces => places_obj.2 ⟨τ', Function.update_self .., hplaces⟩
  · rw [if_neg hname]
    exact lands_kept hplaces (by rw [Function.update_of_ne (Ne.symm hname)])

private theorem moves_each {lens : Lens} (ih : lens.Moves) : (LensOp.each lens).Moves := by
  intro near σ σ' path e hreforms hplaces
  cases hreforms with
  | @each _ wraps τ τ' below =>
  by_cases hflat : ∃ type, τ = .leaf type
  · obtain ⟨rfl, rfl⟩ := below.eq_of_flat (.inr hflat)
    have hkept : (LensOp.each []).take e path = .ok (some (e, path)) := by
      cases hplaces.1 with
      | here => exact take_root _
      | null i => exact take_each i
      | element i below => exact take_each i
    rw [hkept]
    exact .lands hplaces
  · obtain ⟨hpermits, hnear⟩ := hplaces
    have hfar : ∀ token rest, ¬ (Form.arr wraps τ).Near (token :: rest) := by
      intro token rest h
      cases h with
      | first _ type => exact hflat ⟨type, rfl⟩
    cases hpermits with
    | @here _ v h =>
      rw [take_root]
      exact .lands ⟨.here (by cases v <;> exact h), fun _ => .here _⟩
    | null i => exact absurd ⟨_, rfl⟩ hflat
    | element i hbelow =>
      rw [take_each]
      exact ((ih below ⟨hbelow, fun h => absurd (hnear h) (hfar _ _)⟩).mono fun _ h => .each h).behind
        fun path e hplaces => ⟨.element i hplaces.1, fun h => absurd (hnear h) (hfar _ _)⟩

end LensOp

mutual

theorem LensOp.moves : ∀ op : LensOp, op.Moves
  | .rename s d => LensOp.moves_rename s d
  | .hoist h n => LensOp.moves_hoist h n
  | .plunge h n => LensOp.moves_plunge h n
  | .wrap n => LensOp.moves_wrap n
  | .head _ => by
    intro hreforms
    cases hreforms
  | .add property => LensOp.moves_add property
  | .remove property => LensOp.moves_remove property
  | .inside n lens => LensOp.moves_inside n (Lens.moves lens)
  | .each lens => LensOp.moves_each (Lens.moves lens)
  | .convert n mapping s d => LensOp.moves_convert n mapping s d

/-- An edit at a place of a form becomes one at a place of the form that comes out. -/
theorem Lens.moves : ∀ lens : Lens, lens.Moves
  | [] => by
    intro hreforms hplaces
    cases hreforms with
    | nil => exact .lands hplaces
  | op :: rest => by
    intro hreforms hplaces
    cases hreforms with
    | cons first others =>
    have h := LensOp.moves op first hplaces
    rw [Lens.take]
    revert h
    generalize op.take _ _ = taken
    intro h
    cases h with
    | unmapped hkey => exact .unmapped (.here hkey)
    | dropped => exact .dropped
    | lands hplaces => exact (Lens.moves rest others hplaces).mono fun _ h => .later h

end

/-- What begins a part of the old form begins one of the new form. -/
theorem Lens.Reforms.allows {lens : Lens} {σ σ' : Form} {v : Json} (h : Lens.Reforms lens σ σ')
    (hallows : σ.Allows v) : σ'.Allows v := by
  have hplaces : σ.Places False [] (.add v) := ⟨.here hallows, False.elim⟩
  have hlands := Lens.moves lens h hplaces
  rw [Lens.take_root] at hlands
  cases hlands with
  | lands hplaces =>
    cases hplaces.1 with
    | here h => exact h
    | free _ h => exact h

def Form.IsWhole (σ : Form) : Prop := σ = .any ∨ ∃ wraps τ, σ = .arr wraps τ

/-- What becomes of the edits of a part and of those below it: all are dropped, or all go to one place and
there by one lens. -/
inductive Relocates (σ' : Form) (misses : String → Prop) (υ : Form)
    (take : Edit → Path → Except Fault (Option (Edit × Path))) : Prop
  | dropped (h : ∀ rest e, υ.Permits rest e →
      take e rest = .ok none ∨ ∃ key, misses key ∧ take e rest = .error (.unmapped key)) :
    Relocates σ' misses υ take
  | moved {place : Path} {lens : Lens} {υ' : Form} (reach : Reaches σ' place υ')
    (reforms : Lens.Reforms lens υ υ') (fewer : ∀ key, Lens.Misses lens key → misses key)
    (h : ∀ rest e, υ.Permits rest e → take e rest = behind place (Lens.take e rest lens)) :
    Relocates σ' misses υ take

def LensOp.Relocates (op : LensOp) : Prop :=
  ∀ {σ σ' υ : Form} {path : Path}, op.Reforms σ σ' → Reaches σ path υ → υ.IsWhole →
    EditLens.Relocates σ' op.Misses υ fun e rest => op.take e (path ++ rest)

def Lens.Relocates (lens : Lens) : Prop :=
  ∀ {σ σ' υ : Form} {path : Path}, Lens.Reforms lens σ σ' → Reaches σ path υ → υ.IsWhole →
    EditLens.Relocates σ' (Lens.Misses lens) υ fun e rest => Lens.take e (path ++ rest) lens

namespace LensOp

variable {σ' υ : Form} {f : String → Option Form} {token : String} {path : Path}

private theorem relocates_moved {op : LensOp} (place : Path) (hreach : Reaches σ' place υ)
    (h : ∀ rest e, υ.Permits rest e → op.take e (path ++ rest) = .ok (some (e, place ++ rest))) :
    EditLens.Relocates σ' op.Misses υ fun e rest => op.take e (path ++ rest) :=
  .moved hreach (.nil υ) (fun _ hkey => by cases hkey) h

private theorem relocates_root {op : LensOp} (hreforms : op.Reforms υ σ') :
    EditLens.Relocates σ' op.Misses υ fun e rest => op.take e ([] ++ rest) := by
  refine .moved (.here σ') (.cons hreforms (.nil σ')) (fun key hkey => ?_) fun rest e _ => by simp
  cases hkey with
  | here h => exact h
  | later h => cases h

private theorem exists_cons (hreach : Reaches (.obj f) path υ) (hwhole : υ.IsWhole) :
    ∃ token rest τ, path = token :: rest ∧ f token = some τ ∧ Reaches τ rest υ := by
  cases hreach with
  | here => rcases hwhole with h | ⟨wraps, τ, h⟩ <;> cases h
  | member described below => exact ⟨_, _, _, rfl, described, below⟩

private theorem not_reaches_leaf {type : String} (hreach : Reaches (.leaf type) path υ)
    (hwhole : υ.IsWhole) : False := by
  cases hreach with
  | here => rcases hwhole with h | ⟨wraps, τ, h⟩ <;> cases h

private theorem relocates_rename (s d : Json) : (LensOp.rename s d).Relocates := by
  intro σ σ' υ path hreforms hreach hwhole
  cases hreforms with
  | @rename f source destination τ described new calm =>
  obtain ⟨token, below, σ, rfl, hσ, hbelow⟩ := exists_cons hreach hwhole
  by_cases htoken : source = token
  · subst htoken
    obtain rfl := Option.some.inj (described.symm.trans hσ)
    refine relocates_moved (destination :: below) (.member (Function.update_self ..) hbelow)
      fun rest e hpermits => ?_
    rw [List.cons_append, take_rename, if_pos ⟨calm.written (hpermits.append hbelow.at?), rfl⟩,
      List.cons_append]
  · have hne : token ≠ destination := by
      rintro rfl
      rw [new] at hσ
      cases hσ
    refine relocates_moved (token :: below) (.member ?_ hbelow) fun rest e _ => ?_
    · rw [Function.update_of_ne hne, Function.update_of_ne (Ne.symm htoken), hσ]
    · rw [List.cons_append, take_rename, if_neg (by simp [htoken])]

private theorem relocates_hoist (h n : Json) : (LensOp.hoist h n).Relocates := by
  intro σ σ' υ path hreforms hreach hwhole
  cases hreforms with
  | @hoist f g host name τ hosted described new =>
  obtain ⟨token, below, σ, rfl, hσ, hbelow⟩ := exists_cons hreach hwhole
  have hname : token ≠ name := by
    rintro rfl
    rw [new] at hσ
    cases hσ
  by_cases htoken : host = token
  · subst htoken
    obtain rfl := Option.some.inj (hosted.symm.trans hσ)
    obtain ⟨inner, below, σ, rfl, hσ, hbelow⟩ := exists_cons hbelow hwhole
    by_cases hinner : inner = name
    · subst hinner
      obtain rfl := Option.some.inj (described.symm.trans hσ)
      refine relocates_moved (inner :: below) (.member (Function.update_self ..) hbelow) fun rest e _ => ?_
      rw [List.cons_append, take_hoist, if_pos ⟨rfl, rfl⟩]
    · have hhost := (Function.update_of_ne hname (some τ) (Function.update f host
        (some (.obj (Function.update g name none))))).trans (Function.update_self ..)
      refine relocates_moved (host :: inner :: below) (.member hhost (.member ?_ hbelow))
        fun rest e _ => ?_
      · rw [Function.update_of_ne hinner, hσ]
      · rw [List.cons_append, take_hoist, if_neg (by simp [hinner])]
  · refine relocates_moved (token :: below) (.member ?_ hbelow) fun rest e _ => ?_
    · rw [Function.update_of_ne hname, Function.update_of_ne (Ne.symm htoken), hσ]
    · rw [List.cons_append, take_hoist, if_neg (by simp [htoken])]

private theorem relocates_plunge (h n : Json) : (LensOp.plunge h n).Relocates := by
  intro σ σ' υ path hreforms hreach hwhole
  cases hreforms with
  | @plunge f g host name τ hosted described new other =>
  obtain ⟨token, below, σ, rfl, hσ, hbelow⟩ := exists_cons hreach hwhole
  by_cases hname : name = token
  · subst hname
    obtain rfl := Option.some.inj (described.symm.trans hσ)
    refine relocates_moved (host :: name :: below) (.member (Function.update_self ..)
      (.member (Function.update_self ..) hbelow)) fun rest e _ => ?_
    rw [List.cons_append, take_plunge, if_pos rfl, List.cons_append, List.cons_append]
  · refine relocates_moved (token :: below) ?_ fun rest e _ => ?_
    · by_cases hhost : token = host
      · subst hhost
        obtain rfl := Option.some.inj (hosted.symm.trans hσ)
        obtain ⟨inner, below, σ, rfl, hσ, hbelow⟩ := exists_cons hbelow hwhole
        have hinner : inner ≠ name := by
          rintro rfl
          rw [new] at hσ
          cases hσ
        exact .member (Function.update_self ..) (.member (by rw [Function.update_of_ne hinner, hσ]) hbelow)
      · exact .member (by rw [Function.update_of_ne hhost, Function.update_of_ne (Ne.symm hname), hσ]) hbelow
    · rw [List.cons_append, take_plunge, if_neg hname]

private theorem relocates_wrap (n : Json) : (LensOp.wrap n).Relocates := by
  intro σ σ' υ path hreforms hreach hwhole
  cases hreforms with
  | @wrap f name type described =>
  obtain ⟨token, below, σ, rfl, hσ, hbelow⟩ := exists_cons hreach hwhole
  by_cases hname : name = token
  · subst hname
    obtain rfl := Option.some.inj (described.symm.trans hσ)
    exact (not_reaches_leaf hbelow hwhole).elim
  · refine relocates_moved (token :: below) (.member ?_ hbelow) fun rest e _ => ?_
    · rw [Function.update_of_ne (Ne.symm hname), hσ]
    · rw [List.cons_append, take_wrap, if_neg hname]

private theorem relocates_add (property : Property) : (LensOp.add property).Relocates := by
  intro σ σ' υ path hreforms hreach hwhole
  cases hreforms with
  | @add f name type _ hname new =>
  obtain ⟨token, below, σ, rfl, hσ, hbelow⟩ := exists_cons hreach hwhole
  have hne : token ≠ name := by
    rintro rfl
    rw [new] at hσ
    cases hσ
  refine relocates_moved (token :: below) (.member ?_ hbelow) fun rest e _ => rfl
  rw [Function.update_of_ne hne, hσ]

private theorem relocates_remove (property : Property) : (LensOp.remove property).Relocates := by
  intro σ σ' υ path hreforms hreach hwhole
  cases hreforms with
  | @remove f name _ hname =>
  obtain ⟨token, below, σ, rfl, hσ, hbelow⟩ := exists_cons hreach hwhole
  by_cases htoken : name = token
  · refine .dropped fun rest e _ => .inl ?_
    rw [List.cons_append, take_remove hname, if_pos htoken]
  · refine relocates_moved (token :: below) (.member ?_ hbelow) fun rest e _ => ?_
    · rw [Function.update_of_ne (Ne.symm htoken), hσ]
    · rw [List.cons_append, take_remove hname, if_neg htoken]

private theorem relocates_convert (n : Json) (mapping : Mapping) (s d : Json) :
    (LensOp.convert n mapping s d).Relocates := by
  intro σ σ' υ path hreforms hreach hwhole
  cases hreforms with
  | @convert f name before after _ _ _ described values =>
  obtain ⟨token, below, σ, rfl, hσ, hbelow⟩ := exists_cons hreach hwhole
  by_cases hname : name = token
  · subst hname
    obtain rfl := Option.some.inj (described.symm.trans hσ)
    exact (not_reaches_leaf hbelow hwhole).elim
  · refine relocates_moved (token :: below) (.member ?_ hbelow) fun rest e _ => ?_
    · rw [Function.update_of_ne (Ne.symm hname), hσ]
    · rw [List.cons_append, take_convert_of_ne hname]

private theorem relocates_inside (n : Json) {lens : Lens} (ih : Lens.Relocates lens) :
    (LensOp.inside n lens).Relocates := by
  intro σ σ' υ path hreforms hreach hwhole
  cases hreforms with
  | @inside f name _ τ τ' described below =>
  obtain ⟨token, rest, σ, rfl, hσ, hbelow⟩ := exists_cons hreach hwhole
  by_cases hname : name = token
  · subst hname
    obtain rfl := Option.some.inj (described.symm.trans hσ)
    cases ih below hbelow hwhole with
    | dropped h =>
      refine .dropped fun rest' e hpermits => ?_
      rw [List.cons_append, take_inside, if_pos rfl]
      rcases h rest' e hpermits with h | ⟨key, hkey, h⟩
      · exact .inl (by rw [h]; rfl)
      · exact .inr ⟨key, .inside hkey, by rw [h]; rfl⟩
    | @moved place inner υ' reach reforms fewer h =>
      refine .moved (.member (Function.update_self ..) reach) reforms
        (fun key hkey => .inside (fewer key hkey)) fun rest' e hpermits => ?_
      rw [List.cons_append, take_inside, if_pos rfl, h rest' e hpermits, ← behind_append]
      rfl
  · refine relocates_moved (token :: rest) (.member ?_ hbelow) fun rest' e _ => ?_
    · rw [Function.update_of_ne (Ne.symm hname), hσ]
    · rw [List.cons_append, take_inside, if_neg hname]

private theorem relocates_each {lens : Lens} : (LensOp.each lens).Relocates := by
  intro σ σ' υ path hreforms hreach hwhole
  cases hreach with
  | here => exact relocates_root hreforms
  | member => cases hreforms

end LensOp

private theorem Lens.Reforms.append {first second : Lens} {σ τ υ : Form} (h : Lens.Reforms first σ τ)
    (h' : Lens.Reforms second τ υ) : Lens.Reforms (first ++ second) σ υ := by
  induction first generalizing σ with
  | nil =>
    cases h
    exact h'
  | cons op rest ih =>
    cases h with
    | cons hop hrest => exact .cons hop (ih hrest)

private theorem Lens.Misses.of_append {first second : Lens} {key : String} (h : Lens.Misses (first ++ second) key) :
    Lens.Misses first key ∨ Lens.Misses second key := by
  induction first with
  | nil => exact .inr h
  | cons op rest ih =>
    cases h with
    | here h => exact .inl (.here h)
    | later h => exact (ih h).imp .later id

/-- A lens on an array is one on its elements, each of which stays at its index. -/
theorem Lens.Reforms.exists_elements {lens : Lens} {wraps : Bool} {υ σ : Form}
    (h : Lens.Reforms lens (.arr wraps υ) σ) :
    ∃ υ' inner, σ = .arr wraps υ' ∧ Lens.Reforms inner υ υ' ∧
      (∀ key, Lens.Misses inner key → Lens.Misses lens key) ∧
      ∀ (i : Nat) (rest : Path) (e : Edit),
        Lens.take e (i.repr :: rest) lens = behind [i.repr] (Lens.take e rest inner) := by
  induction lens generalizing υ with
  | nil =>
    cases h
    exact ⟨υ, [], rfl, .nil υ, fun _ hkey => hkey, fun i rest e => rfl⟩
  | cons op others ih =>
    cases h with
    | cons hop hothers =>
    cases hop with
    | @each first _ _ τ hfirst =>
    obtain ⟨υ', second, rfl, hsecond, hmisses, htake⟩ := ih hothers
    refine ⟨υ', first ++ second, rfl, hfirst.append hsecond, fun key hkey => ?_, fun i rest e => ?_⟩
    · exact hkey.of_append.elim (fun h => .here (.each h)) fun h => .later (hmisses key h)
    · rw [Lens.take, LensOp.take_each, Lens.take_append]
      rcases Lens.take e rest first with fault | _ | ⟨e', path'⟩
      · rfl
      · rfl
      · exact htake i path' e'

theorem Lens.Reforms.isWhole {lens : Lens} {υ υ' : Form} (h : Lens.Reforms lens υ υ') (hwhole : υ.IsWhole) :
    υ'.IsWhole := by
  rcases hwhole with rfl | ⟨wraps, τ, rfl⟩
  · obtain ⟨-, rfl⟩ := h.eq_of_flat (.inl rfl)
    exact .inl rfl
  · obtain ⟨τ', -, rfl, -⟩ := h.exists_elements
    exact .inr ⟨wraps, τ', rfl⟩

theorem Lens.Reforms.exists_obj {lens : Lens} {f : String → Option Form} {σ : Form}
    (h : Lens.Reforms lens (.obj f) σ) : ∃ g, σ = .obj g := by
  induction lens generalizing f with
  | nil =>
    cases h
    exact ⟨f, rfl⟩
  | cons op rest ih =>
    cases h with
    | cons hop hrest => cases hop <;> exact ih hrest

/-- What has members that are objects is an object, and stays one. -/
theorem Lens.Reforms.not_isWhole {lens : Lens} {σ σ' : Form} {path : Path} {f : String → Option Form}
    (h : Lens.Reforms lens σ σ') (hreach : Reaches σ path (.obj f)) : ¬ σ'.IsWhole := by
  obtain ⟨g, rfl⟩ : ∃ g, σ = .obj g := by
    cases hreach <;> exact ⟨_, rfl⟩
  obtain ⟨g', rfl⟩ := h.exists_obj
  rintro (h | ⟨wraps, τ, h⟩) <;> cases h

mutual

theorem LensOp.relocates : ∀ op : LensOp, op.Relocates
  | .rename s d => LensOp.relocates_rename s d
  | .hoist h n => LensOp.relocates_hoist h n
  | .plunge h n => LensOp.relocates_plunge h n
  | .wrap n => LensOp.relocates_wrap n
  | .head _ => by
    intro hreforms
    cases hreforms
  | .add property => LensOp.relocates_add property
  | .remove property => LensOp.relocates_remove property
  | .inside n lens => LensOp.relocates_inside n (Lens.relocates lens)
  | .each _ => LensOp.relocates_each
  | .convert n mapping s d => LensOp.relocates_convert n mapping s d

/-- Edits of or below an array, or of what nothing is known of, go to one place together or are dropped. -/
theorem Lens.relocates : ∀ lens : Lens, Lens.Relocates lens
  | [] => by
    intro hreforms hreach hwhole
    cases hreforms with
    | nil => exact .moved hreach (.nil _) (fun _ hkey => hkey) fun rest e _ => rfl
  | op :: others => by
    intro hreforms hreach hwhole
    cases hreforms with
    | cons first hothers =>
    cases LensOp.relocates op first hreach hwhole with
    | dropped h =>
      refine .dropped fun rest e hpermits => ?_
      rw [Lens.take]
      rcases h rest e hpermits with h | ⟨key, hkey, h⟩
      · exact .inl (by rw [h]; rfl)
      · exact .inr ⟨key, .here hkey, by rw [h]; rfl⟩
    | @moved place inner υ' reach reforms fewer h =>
      have hlands : ∀ rest e, Permits _ rest e → Lands (υ'.Places False) (Lens.Misses inner) (Lens.take e rest inner) :=
        fun rest e hpermits => Lens.moves inner reforms ⟨hpermits, False.elim⟩
      cases Lens.relocates others hothers reach (reforms.isWhole hwhole) with
      | dropped h' =>
        refine .dropped fun rest e hpermits => ?_
        rw [Lens.take, h rest e hpermits]
        have hland := hlands rest e hpermits
        generalize Lens.take e rest inner = taken at hland
        cases hland with
        | unmapped hkey => exact .inr ⟨_, .here (fewer _ hkey), rfl⟩
        | dropped => exact .inl rfl
        | @lands e' path' hplaces =>
          rcases h' path' e' hplaces.1 with h' | ⟨key, hkey, h'⟩
          · exact .inl h'
          · exact .inr ⟨key, .later hkey, h'⟩
      | @moved place' inner' υ'' reach' reforms' fewer' h' =>
        refine .moved reach' (reforms.append reforms') (fun key hkey => ?_) fun rest e hpermits => ?_
        · exact hkey.of_append.elim (fun h => .here (fewer key h)) fun h => .later (fewer' key h)
        · rw [Lens.take, h rest e hpermits, Lens.take_append]
          have hland := hlands rest e hpermits
          generalize Lens.take e rest inner = taken at hland
          cases hland with
          | unmapped => rfl
          | dropped => rfl
          | @lands e' path' hplaces => exact h' path' e' hplaces.1

end

end EditLens
