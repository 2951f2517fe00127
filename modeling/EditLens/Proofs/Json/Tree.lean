import EditLens.Json.Lemmas
import EditLens.Patch.Apply
import EditLens.Proofs.Pointer.Index
import Mathlib.Logic.Function.Basic

/-! Documents up to the order of members, and writes that only make them grow. Main statements: a
place that can be written is a context in which any document can stand, and writes below the place
are writes of what stands there. -/
namespace EditLens

/-- A document whose objects are maps from names, so that members have no order. -/
inductive Tree where
  | scalar (s : Scalar)
  | arr (elements : List Tree)
  | obj (members : String → Option Tree)

namespace Json

mutual

def tree : Json → Tree
  | .scalar s => .scalar s
  | .arr es => .arr (treeElements es)
  | .obj ms => .obj (treeMembers ms)

def treeElements : List Json → List Tree
  | [] => []
  | e :: rest => e.tree :: treeElements rest

def treeMembers : List (Scalar × Json) → String → Option Tree
  | [], _ => none
  | (k, v) :: rest, name => if k.same name then some v.tree else treeMembers rest name

end

@[simp] theorem tree_scalar (s : Scalar) : (Json.scalar s).tree = .scalar s := rfl

@[simp] theorem tree_arr (es : List Json) : (Json.arr es).tree = .arr (es.map tree) := by
  rw [tree]
  congr 1
  induction es with
  | nil => rfl
  | cons e rest ih => rw [treeElements, ih, List.map_cons]

end Json

namespace Members

variable {ms : Members} {name : String} {v : Json}

def trees (ms : Members) (name : String) : Option Tree := (ms.get? name).map Json.tree

@[simp] theorem trees_nil : trees [] = fun _ => none := rfl

theorem trees_put : (ms.put name v).trees = Function.update ms.trees name (some v.tree) := by
  funext other
  rw [trees, get?_put]
  by_cases hother : other = name
  · subst hother
    simp
  · simp [trees, hother, Ne.symm hother]

theorem trees_without : (ms.without name).trees = Function.update ms.trees name none := by
  funext other
  rw [trees, get?_without]
  by_cases hother : other = name
  · subst hother
    simp
  · simp [trees, hother, Ne.symm hother]

theorem trees_cons : trees ((.str name, v) :: ms) = Function.update ms.trees name (some v.tree) := by
  funext other
  rw [trees, get?_cons]
  by_cases hother : other = name
  · subst hother
    simp
  · simp [trees, hother, Ne.symm hother]

/-- A member that is written as it is changes nothing. -/
theorem update_trees_of_get? (h : ms.get? name = some v) : Function.update ms.trees name (some v.tree) = ms.trees := by
  rw [Function.update_eq_self_iff, trees, h]
  rfl

theorem update_trees_of_get?_eq_none (h : ms.get? name = none) : Function.update ms.trees name none = ms.trees := by
  rw [Function.update_eq_self_iff, trees, h]
  rfl

end Members

@[simp] theorem Json.tree_obj (ms : Members) : (Json.obj ms).tree = .obj ms.trees := by
  rw [tree]
  congr 1
  funext name
  rw [Members.trees]
  induction ms with
  | nil => rfl
  | cons m rest ih =>
    obtain ⟨k, v⟩ := m
    rw [treeMembers, Members.get?_cons, ih]
    split <;> rfl

namespace Tree

mutual

/-- A document from which members are missing, and elements at the ends of arrays. -/
inductive Part : Tree → Tree → Prop
  | scalar (s : Scalar) : Part (.scalar s) (.scalar s)
  | arr {es fs : List Tree} (elements : PartElements es fs) : Part (.arr es) (.arr fs)
  | obj {f g : String → Option Tree} (members : ∀ name, PartMember (f name) (g name)) :
    Part (.obj f) (.obj g)

inductive PartMember : Option Tree → Option Tree → Prop
  | absent (whole : Option Tree) : PartMember none whole
  | present {part whole : Tree} (h : Part part whole) : PartMember (some part) (some whole)

inductive PartElements : List Tree → List Tree → Prop
  | nil (fs : List Tree) : PartElements [] fs
  | cons {a b : Tree} {es fs : List Tree} (first : Part a b) (rest : PartElements es fs) :
    PartElements (a :: es) (b :: fs)

end

mutual

theorem Part.refl (t : Tree) : Part t t := by
  cases t with
  | scalar s => exact .scalar s
  | arr es => exact .arr (PartElements.refl es)
  | obj f => exact .obj fun name => PartMember.refl (f name)

private theorem PartMember.refl (o : Option Tree) : PartMember o o := by
  cases o with
  | none => exact .absent none
  | some t => exact .present (Part.refl t)

private theorem PartElements.refl (es : List Tree) : PartElements es es := by
  cases es with
  | nil => exact .nil []
  | cons e rest => exact .cons (Part.refl e) (PartElements.refl rest)

end

mutual

theorem Part.trans : ∀ {a b c : Tree}, Part a b → Part b c → Part a c
  | _, _, _, .scalar _, hbc => hbc
  | _, _, _, .arr h, .arr h' => .arr (PartElements.trans h h')
  | _, _, _, .obj h, .obj h' => .obj fun name => PartMember.trans (h name) (h' name)

theorem PartMember.trans :
    ∀ {a b c : Option Tree}, PartMember a b → PartMember b c → PartMember a c
  | _, _, c, .absent _, _ => .absent c
  | _, _, _, .present h, .present h' => .present (Part.trans h h')

theorem PartElements.trans :
    ∀ {a b c : List Tree}, PartElements a b → PartElements b c → PartElements a c
  | _, _, c, .nil _, _ => .nil c
  | _, _, _, .cons h hrest, .cons h' hrest' => .cons (Part.trans h h') (PartElements.trans hrest hrest')

end

theorem PartElements.append_right (es fs : List Tree) : PartElements es (es ++ fs) := by
  induction es with
  | nil => exact .nil fs
  | cons e rest ih => exact .cons (.refl e) ih

theorem PartElements.getElem? {es fs : List Tree} (h : PartElements es fs) {i : Nat} {a : Tree}
    (ha : es[i]? = some a) : ∃ b, fs[i]? = some b ∧ Part a b := by
  induction es generalizing fs i with
  | nil => cases ha
  | cons e rest ih =>
    cases h with
    | cons hfirst hrest =>
    cases i with
    | zero =>
      obtain rfl := Option.some.inj ha
      exact ⟨_, rfl, hfirst⟩
    | succ i => exact ih hrest ha

def putElement : List Tree → Nat → Tree → List Tree
  | [], _, e => [e]
  | _ :: rest, 0, e => e :: rest
  | first :: rest, i + 1, e => first :: putElement rest i e

/-- A value written at a path. A member may be new; in an array only the place behind the last
element can be written itself, but below an element anything can. -/
def write (v : Tree) : Path → Option Tree → Option Tree
  | [], _ => some v
  | token :: rest, some (.obj f) =>
    (write v rest (f token)).map fun part => .obj (Function.update f token (some part))
  | token :: rest, some (.arr es) =>
    (Pointer.position? token).bind fun i =>
      if rest.isEmpty = decide (i = es.length) then
        (write v rest es[i]?).map fun part => .arr (putElement es i part)
      else none
  | _ :: _, _ => none

def at? : Path → Tree → Option Tree
  | [], t => some t
  | token :: rest, .obj f => (f token).bind (at? rest)
  | token :: rest, .arr es => (Pointer.position? token).bind fun i => es[i]?.bind (at? rest)
  | _ :: _, .scalar _ => none

/-- A document with a place in it: what is written there, and below what stands there. -/
structure IsContext (path : Path) (o : Option Tree) (C : Tree → Tree) : Prop where
  write : ∀ v, write v path o = some (C v)
  mono : ∀ {a b}, Part a b → Part (C a) (C b)
  below : ∀ {rest v a b}, rest ≠ [] → Tree.write v rest (some a) = some b →
    Tree.write v (path ++ rest) (some (C a)) = some (C b)

section Elements

variable {es : List Tree} {a b : Tree} {i : Nat}

@[simp] theorem putElement_length : putElement es es.length a = es ++ [a] := by
  induction es with
  | nil => rfl
  | cons e rest ih => rw [List.length_cons, putElement, ih, List.cons_append]

theorem putElement_of_lt (h : i < es.length) : putElement es i a = es.set i a := by
  induction es generalizing i with
  | nil => simp at h
  | cons e rest ih =>
    cases i with
    | zero => rfl
    | succ i => rw [putElement, ih (by simpa using h), List.set_cons_succ]

theorem lt_length_putElement (h : i ≤ es.length) : i < (putElement es i a).length := by
  induction es generalizing i with
  | nil => simpa [putElement] using h
  | cons e rest ih =>
    cases i with
    | zero => simp [putElement]
    | succ i => simpa [putElement] using ih (by simpa using h)

theorem getElem?_putElement (h : i ≤ es.length) : (putElement es i a)[i]? = some a := by
  induction es generalizing i with
  | nil =>
    obtain rfl : i = 0 := by simpa using h
    rfl
  | cons e rest ih =>
    cases i with
    | zero => rfl
    | succ i => simpa [putElement] using ih (by simpa using h)

theorem getElem?_putElement_of_ne (h : i ≤ es.length) {j : Nat} (hne : j ≠ i) :
    (putElement es i a)[j]? = es[j]? := by
  induction es generalizing i j with
  | nil =>
    obtain rfl : i = 0 := by simpa using h
    cases j with
    | zero => exact absurd rfl hne
    | succ j => rfl
  | cons e rest ih =>
    cases i with
    | zero =>
      cases j with
      | zero => exact absurd rfl hne
      | succ j => rfl
    | succ i =>
      cases j with
      | zero => rfl
      | succ j => simpa [putElement] using ih (by simpa using h) (by simpa using hne)

theorem putElement_putElement (h : i ≤ es.length) :
    putElement (putElement es i a) i b = putElement es i b := by
  induction es generalizing i with
  | nil =>
    obtain rfl : i = 0 := by simpa using h
    rfl
  | cons e rest ih =>
    cases i with
    | zero => rfl
    | succ i => rw [putElement, putElement, ih (by simpa using h), putElement]

theorem PartElements.putElement (h : Part a b) :
    PartElements (putElement es i a) (putElement es i b) := by
  induction es generalizing i with
  | nil => exact .cons h (.nil [])
  | cons e rest ih =>
    cases i with
    | zero => exact .cons h (.refl rest)
    | succ i => exact .cons (.refl e) ih

end Elements

theorem Part.update {f : String → Option Tree} {name : String} {o o' : Option Tree}
    (h : PartMember o o') : Part (.obj (Function.update f name o))
      (.obj (Function.update f name o')) := by
  refine .obj fun other => ?_
  by_cases hother : other = name
  · subst hother
    simpa using h
  · simpa [hother] using PartMember.refl (f other)

section Write

variable {v a b t : Tree} {token : String} {path rest : Path} {o : Option Tree} {es : List Tree}

theorem write_cons_obj (f : String → Option Tree) :
    write v (token :: rest) (some (.obj f)) =
      (write v rest (f token)).map fun part => .obj (Function.update f token (some part)) := rfl

theorem write_cons_obj_eq_some {f : String → Option Tree} :
    write v (token :: rest) (some (.obj f)) = some t ↔ ∃ part, write v rest (f token) = some part ∧
      t = .obj (Function.update f token (some part)) := by
  simp [write_cons_obj, eq_comm]

/-- Writes below an array are writes of or below one of its elements. -/
theorem write_cons_arr_eq_some :
    write v (token :: rest) (some (.arr es)) = some t ↔
      ∃ i part, token = i.repr ∧ i ≤ es.length ∧ (rest = [] ↔ i = es.length) ∧
        write v rest es[i]? = some part ∧ t = .arr (putElement es i part) := by
  simp only [write, Option.bind_eq_some_iff, Pointer.position?_eq_some_iff]
  constructor
  · rintro ⟨i, rfl, h⟩
    split at h
    · rename_i hends
      obtain ⟨part, hpart, rfl⟩ := Option.map_eq_some_iff.1 h
      have hiff : rest = [] ↔ i = es.length := by
        rw [← List.isEmpty_iff, hends, decide_eq_true_eq]
      refine ⟨i, part, rfl, ?_, hiff, hpart, rfl⟩
      by_contra hgt
      have hnone : es[i]? = none := by simp; omega
      rw [hnone] at hpart
      cases rest with
      | nil => exact hgt (by rw [hiff.1 rfl])
      | cons next below => cases hpart
    · cases h
  · rintro ⟨i, part, rfl, -, hiff, hpart, rfl⟩
    refine ⟨i, rfl, ?_⟩
    rw [if_pos, hpart]
    · rfl
    · rw [Bool.eq_iff_iff, List.isEmpty_iff, decide_eq_true_eq, hiff]

/-- Each scalar of a written document was there before, or is the one that was written. -/
theorem at?_write {s : Scalar} {found : Path} (h : write v path o = some t)
    (hv : ∀ found, v.at? found = some (.scalar s) → found = []) (hat : t.at? found = some (.scalar s)) :
    o.bind (at? found) = some (.scalar s) ∨ found = path ∧ v = .scalar s := by
  induction path generalizing o t found with
  | nil =>
    obtain rfl := Option.some.inj h
    obtain rfl := hv found hat
    exact .inr ⟨rfl, Option.some.inj hat⟩
  | cons token rest ih =>
    cases o with
    | none => cases h
    | some doc =>
    cases doc with
    | scalar s => cases h
    | obj f =>
      obtain ⟨part, hpart, rfl⟩ := write_cons_obj_eq_some.1 h
      cases found with
      | nil => cases hat
      | cons other below =>
      by_cases hother : other = token
      · subst hother
        rw [at?, Function.update_self, Option.bind_some] at hat
        exact (ih hpart hat).imp id fun ⟨hpath, hvalue⟩ => ⟨by rw [hpath], hvalue⟩
      · rw [at?, Function.update_of_ne hother] at hat
        exact .inl hat
    | arr es =>
      obtain ⟨i, part, rfl, hi, -, hpart, rfl⟩ := write_cons_arr_eq_some.1 h
      cases found with
      | nil => cases hat
      | cons other below =>
      obtain ⟨j, hj, hbelow⟩ := Option.bind_eq_some_iff.1 hat
      obtain rfl := Pointer.eq_repr_of_position? hj
      by_cases hji : j = i
      · subst hji
        rw [getElem?_putElement hi, Option.bind_some] at hbelow
        refine (ih hpart hbelow).imp (fun h => ?_) fun ⟨hpath, hvalue⟩ => ⟨by rw [hpath], hvalue⟩
        rw [Option.bind_some, at?, hj, Option.bind_some]
        exact h
      · rw [getElem?_putElement_of_ne hi hji] at hbelow
        refine .inl ?_
        rw [Option.bind_some, at?, hj, Option.bind_some]
        exact hbelow

theorem exists_context (h : write a path o = some t) : ∃ C, IsContext path o C := by
  induction path generalizing o t with
  | nil => exact ⟨id, fun _ => rfl, id, fun _ h => h⟩
  | cons token rest ih =>
    cases o with
    | none => cases h
    | some doc =>
    cases doc with
    | scalar s => cases h
    | obj f =>
      rw [write_cons_obj] at h
      obtain ⟨part, hpart, -⟩ := Option.map_eq_some_iff.1 h
      obtain ⟨C, hC⟩ := ih hpart
      refine ⟨fun v => .obj (Function.update f token (some (C v))), ?_, ?_, ?_⟩
      · intro v
        rw [write_cons_obj, hC.write, Option.map_some]
      · intro a b hab
        exact .update (.present (hC.mono hab))
      · intro below v a b hbelow hab
        rw [List.cons_append, write_cons_obj, Function.update_self, hC.below hbelow hab]
        simp
    | arr es =>
      obtain ⟨i, part, rfl, hi, hends, hpart, -⟩ := write_cons_arr_eq_some.1 h
      obtain ⟨C, hC⟩ := ih hpart
      refine ⟨fun v => .arr (putElement es i (C v)), ?_, ?_, ?_⟩
      · intro v
        exact write_cons_arr_eq_some.2 ⟨i, C v, rfl, hi, hends, hC.write v, rfl⟩
      · intro a b hab
        exact .arr (.putElement (hC.mono hab))
      · intro below v a b hbelow hab
        rw [List.cons_append]
        refine write_cons_arr_eq_some.2 ⟨i, C b, rfl, (lt_length_putElement hi).le, ?_, ?_, ?_⟩
        · have := lt_length_putElement (a := C a) hi
          simp only [List.append_eq_nil_iff, hbelow, and_false, false_iff]
          omega
        · rw [getElem?_putElement hi]
          exact hC.below hbelow hab
        · rw [putElement_putElement hi]

namespace IsContext

variable {C D : Tree → Tree}

theorem of_write (h : ∀ v, Tree.write v path o = some (C v)) : IsContext path o C := by
  obtain ⟨D, hD⟩ := exists_context (h (.scalar .null))
  obtain rfl : D = C := funext fun v => Option.some.inj ((hD.write v).symm.trans (h v))
  exact hD

theorem root (o : Option Tree) : IsContext [] o id := .of_write fun _ => rfl

theorem member (f : String → Option Tree) (name : String) :
    IsContext [name] (some (.obj f)) fun v => .obj (Function.update f name (some v)) :=
  .of_write fun _ => rfl

theorem last (es : List Tree) :
    IsContext [es.length.repr] (some (.arr es)) fun v => .arr (es ++ [v]) :=
  .of_write fun v => write_cons_arr_eq_some.2
    ⟨es.length, v, rfl, Nat.le_refl _, by simp, rfl, by rw [putElement_length]⟩

/-- A place below what stands at another place. -/
theorem comp (hC : IsContext path o C) (hrest : rest ≠ []) (hD : IsContext rest (some a) D) :
    IsContext (path ++ rest) (some (C a)) (C ∘ D) where
  write v := hC.below hrest (hD.write v)
  mono h := hC.mono (hD.mono h)
  below hne h := by
    rw [List.append_assoc]
    exact hC.below (by simp [hrest]) (hD.below hne h)

end IsContext

end Write

end Tree

end EditLens
