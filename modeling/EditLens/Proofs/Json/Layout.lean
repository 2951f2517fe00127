import EditLens.Proofs.Patch.Growth

/-! The places of a document in the order in which it is made. Main statements: the steps that make a
document are one for each of its places, no place comes twice, and the elements of an array come in order. -/
namespace EditLens

open EditLens.Tree

def Tree.hollow : Tree → Tree
  | .scalar s => .scalar s
  | .arr _ => .arr []
  | .obj _ => .obj fun _ => none

/-- Only an array is without its parts what an array is without them. -/
theorem Tree.exists_arr_of_hollow {t : Tree} {es : List Tree} (h : t.hollow = (Tree.arr es).hollow) :
    ∃ fs, t = .arr fs := by
  cases t with
  | arr fs => exact ⟨fs, rfl⟩
  | scalar s => cases h
  | obj f => cases h

namespace Json

private theorem tree_hollow (v : Json) : v.hollow.tree = v.tree.hollow := by
  cases v with
  | scalar s => rfl
  | arr es => simp [hollow, Tree.hollow]
  | obj ms => simp [hollow, Tree.hollow]

mutual

/-- The places below the root of a document and what is first made there, in the order in which they are
made: a container comes before its parts, and its parts come one after another. -/
def layout : Json → List (Path × Json)
  | .scalar _ => []
  | .arr es => layoutElements 0 es
  | .obj ms => layoutMembers ms

def layoutElements (i : Nat) : List Json → List (Path × Json)
  | [] => []
  | e :: rest =>
    ([i.repr], e.hollow) :: (layout e).map (fun b => (i.repr :: b.1, b.2)) ++ layoutElements (i + 1) rest

def layoutMembers : List (Scalar × Json) → List (Path × Json)
  | [] => []
  | (k, v) :: rest =>
    ([k.plain], v.hollow) :: (layout v).map (fun b => (k.plain :: b.1, b.2)) ++ layoutMembers rest

end

theorem layoutMembers_append (ms ns : Members) : layoutMembers (ms ++ ns) = layoutMembers ms ++ layoutMembers ns := by
  induction ms with
  | nil => rfl
  | cons m rest ih => rw [List.cons_append, layoutMembers, layoutMembers, ih, List.append_assoc]

def spots (doc : Json) : List Path := doc.layout.map Prod.fst

end Json

namespace Write

mutual

theorem steps_layout (path : Path) (v : Json) : Write.add.steps path v =
    .add path v.hollow :: v.layout.map fun b => .add (path ++ b.1) b.2 := by
  match v with
  | .scalar s => rfl
  | .arr es => rw [steps, elementSteps_layout, Json.layout]; rfl
  | .obj ms => rw [steps, memberSteps_layout, Json.layout]; rfl

theorem elementSteps_layout (path : Path) (i : Nat) (es : List Json) : Write.add.elementSteps path i es =
    (Json.layoutElements i es).map fun b => .add (path ++ b.1) b.2 := by
  match es with
  | [] => rfl
  | e :: rest =>
    rw [elementSteps, steps_layout, elementSteps_layout, Json.layoutElements, List.map_append, List.map_cons,
      List.map_map]
    simp [Function.comp_def, toString]

/-- The steps that make members are those at their places. -/
theorem memberSteps_layout (path : Path) (ms : List (Scalar × Json)) : Write.add.memberSteps path ms =
    (Json.layoutMembers ms).map fun b => .add (path ++ b.1) b.2 := by
  match ms with
  | [] => rfl
  | (k, v) :: rest =>
    rw [memberSteps, steps_layout, memberSteps_layout, Json.layoutMembers, List.map_append, List.map_cons,
      List.map_map]
    simp [Function.comp_def]

end

end Write

def Tree.Starts (t : Tree) (b : Path × Json) : Prop :=
  b.2.isHollow = true ∧ ∃ part, t.at? b.1 = some part ∧ b.2.tree = part.hollow

namespace Json

theorem eq_hollow {v w : Json} (hw : w.isHollow = true) (h : w.tree = v.tree.hollow) : w = v.hollow := by
  rw [← tree_hollow] at h
  cases w with
  | scalar s =>
    cases v with
    | scalar r => rw [hollow, Tree.scalar.inj h]
    | _ => cases h
  | arr es =>
    obtain rfl := List.isEmpty_iff.1 hw
    cases v with
    | arr fs => rfl
    | _ => cases h
  | obj ms =>
    obtain rfl := List.isEmpty_iff.1 hw
    cases v with
    | obj ns => rfl
    | _ => cases h

/-- At a part, what is made there itself and what is made below it. -/
private theorem starts_iff {v : Json} {b : Path × Json} {token : String}
    (hv : ∀ b, b ∈ v.layout ↔ b.1 ≠ [] ∧ v.tree.Starts b) :
    (b = ([token], v.hollow) ∨ b ∈ v.layout.map fun b => (token :: b.1, b.2)) ↔
      ∃ rest, b.1 = token :: rest ∧ v.tree.Starts (rest, b.2) := by
  obtain ⟨path, w⟩ := b
  constructor
  · rintro (h | h)
    · obtain ⟨rfl, rfl⟩ := Prod.mk.inj h
      exact ⟨[], rfl, isHollow_hollow v, v.tree, rfl, tree_hollow v⟩
    · obtain ⟨⟨rest, u⟩, hb, hpair⟩ := List.mem_map.1 h
      obtain ⟨rfl, rfl⟩ := Prod.mk.inj hpair
      exact ⟨rest, rfl, ((hv _).1 hb).2⟩
  · rintro ⟨rest, rfl, hstarts⟩
    cases rest with
    | nil =>
      obtain ⟨hhollow, part, hpart, htree⟩ := hstarts
      obtain rfl := Option.some.inj hpart
      have hw : w = v.hollow := eq_hollow hhollow htree
      exact .inl (by rw [hw])
    | cons next below => exact .inr (List.mem_map.2 ⟨_, (hv (_, w)).2 ⟨by simp, hstarts⟩, rfl⟩)

mutual

/-- The layout of a document tells what is first made at each of its places below the root. -/
theorem mem_layout (v : Json) (hv : v.isDocument = true) (b : Path × Json) :
    b ∈ v.layout ↔ b.1 ≠ [] ∧ v.tree.Starts b := by
  obtain ⟨path, w⟩ := b
  match v with
  | .scalar s =>
    cases path with
    | nil => simp [layout]
    | cons token rest => simp [layout, Tree.Starts, at?]
  | .arr es =>
    rw [layout, mem_layoutElements es (isDocument_arr.1 hv), tree_arr]
    constructor
    · rintro ⟨j, e, rest, he, rfl, hhollow, part, hpart, htree⟩
      rw [Nat.zero_add]
      refine ⟨by simp, hhollow, part, ?_, htree⟩
      simp [at?, List.getElem?_map, he, hpart]
    · rintro ⟨hne, hhollow, part, hpart, htree⟩
      obtain ⟨token, rest, rfl⟩ := List.exists_cons_of_ne_nil hne
      obtain ⟨j, hj, hbelow⟩ := Option.bind_eq_some_iff.1 hpart
      obtain rfl := Pointer.eq_repr_of_position? hj
      obtain ⟨u, hu, hfound⟩ := Option.bind_eq_some_iff.1 hbelow
      rw [List.getElem?_map] at hu
      obtain ⟨e, he, rfl⟩ := Option.map_eq_some_iff.1 hu
      exact ⟨j, e, rest, he, by rw [Nat.zero_add], hhollow, part, hfound, htree⟩
  | .obj ms =>
    rw [layout, mem_layoutMembers ms (isDocument_obj.1 hv), tree_obj]
    constructor
    · rintro ⟨name, u, rest, hu, rfl, hhollow, part, hpart, htree⟩
      exact ⟨by simp, hhollow, part, by simp [at?, Members.trees, hu, hpart], htree⟩
    · rintro ⟨hne, hhollow, part, hpart, htree⟩
      obtain ⟨token, rest, rfl⟩ := List.exists_cons_of_ne_nil hne
      obtain ⟨u, hu, hfound⟩ := Option.bind_eq_some_iff.1 hpart
      obtain ⟨v, hv, rfl⟩ := Option.map_eq_some_iff.1 hu
      exact ⟨token, v, rest, hv, rfl, hhollow, part, hfound, htree⟩

private theorem mem_layoutElements (es : List Json) (hes : ∀ e ∈ es, e.isDocument = true) {i : Nat} {b : Path × Json} :
    b ∈ layoutElements i es ↔ ∃ (j : Nat) (e : Json) (rest : Path), es[j]? = some e ∧
      b.1 = (i + j).repr :: rest ∧ e.tree.Starts (rest, b.2) := by
  match es with
  | [] => simp [layoutElements]
  | e :: others =>
    rw [List.forall_mem_cons] at hes
    rw [layoutElements, List.cons_append, List.mem_cons, List.mem_append, ← or_assoc,
      starts_iff (mem_layout e hes.1), mem_layoutElements others hes.2]
    constructor
    · rintro (⟨rest, hpath, hstarts⟩ | ⟨j, f, rest, hf, hpath, hstarts⟩)
      · exact ⟨0, e, rest, rfl, hpath, hstarts⟩
      · exact ⟨j + 1, f, rest, hf, by rw [hpath, Nat.add_right_comm, Nat.add_assoc], hstarts⟩
    · rintro ⟨j, f, rest, hf, hpath, hstarts⟩
      cases j with
      | zero =>
        obtain rfl := Option.some.inj hf
        exact .inl ⟨rest, hpath, hstarts⟩
      | succ j => exact .inr ⟨j, f, rest, hf, by rw [hpath, Nat.add_right_comm, Nat.add_assoc], hstarts⟩

theorem mem_layoutMembers (ms : List (Scalar × Json)) (hms : Members.AreDocument ms) {b : Path × Json} :
    b ∈ layoutMembers ms ↔ ∃ (name : String) (v : Json) (rest : Path), Members.get? ms name = some v ∧
      b.1 = name :: rest ∧ v.tree.Starts (rest, b.2) := by
  match ms with
  | [] => simp [layoutMembers]
  | (k, v) :: others =>
    obtain ⟨name, rfl, hnew, hv, hothers⟩ := Members.areOf_cons.1 hms
    rw [layoutMembers, List.cons_append, List.mem_cons, List.mem_append, ← or_assoc,
      starts_iff (mem_layout v hv), mem_layoutMembers others hothers]
    constructor
    · rintro (⟨rest, hpath, hstarts⟩ | ⟨other, u, rest, hu, hpath, hstarts⟩)
      · exact ⟨name, v, rest, by simp [Members.get?_cons], hpath, hstarts⟩
      · refine ⟨other, u, rest, ?_, hpath, hstarts⟩
        have hne : name ≠ other := by
          rintro rfl
          rw [hnew] at hu
          cases hu
        rwa [Members.get?_cons, if_neg (by simpa using hne)]
    · rintro ⟨other, u, rest, hu, hpath, hstarts⟩
      by_cases hname : name = other
      · subst hname
        rw [Members.get?_cons, if_pos (by simp)] at hu
        obtain rfl := Option.some.inj hu
        exact .inl ⟨rest, hpath, hstarts⟩
      · rw [Members.get?_cons, if_neg (by simpa using hname)] at hu
        exact .inr ⟨other, u, rest, hu, hpath, hstarts⟩

end

end Json

/-- Whether the place at the one path must be there before the one at the other can be made: it is this place
or one above it, or an earlier element of the same array. -/
inductive Tree.Needs (t : Tree) (path other : Path) : Prop
  | above (h : other <+: path)
  | earlier {above : Path} {es : List Tree} {i j : Nat} (array : t.at? above = some (.arr es))
    (path_eq : path = above ++ [i.repr]) (other_eq : other = above ++ [j.repr]) (h : j < i)

namespace Tree

variable {t u : Tree} {token other : String} {path rest : Path}

theorem at?_cons (hat : t.at? [token] = some u) (path : Path) : t.at? (token :: path) = u.at? path := by
  cases t with
  | scalar s => cases hat
  | obj f =>
    obtain ⟨v, hv, hvu⟩ := Option.bind_eq_some_iff.1 hat
    obtain rfl := Option.some.inj hvu
    simp [at?, hv]
  | arr es =>
    obtain ⟨i, hi, hbelow⟩ := Option.bind_eq_some_iff.1 hat
    obtain ⟨v, hv, hvu⟩ := Option.bind_eq_some_iff.1 hbelow
    obtain rfl := Option.some.inj hvu
    simp [at?, hi, hv]

/-- A path leads on from where its beginning leads to. -/
theorem at?_append (path rest : Path) (t : Tree) : t.at? (path ++ rest) = (t.at? path).bind (at? rest) := by
  induction path generalizing t with
  | nil => rfl
  | cons token below ih =>
    cases t with
    | scalar s => rfl
    | obj f => simp [at?, Option.bind_assoc, ih]
    | arr es => simp [at?, Option.bind_assoc, ih]

/-- Below a part, what is needed is needed in the part. -/
private theorem Needs.of_cons (h : t.Needs (token :: path) (token :: rest)) (hat : t.at? [token] = some u) :
    u.Needs path rest := by
  cases h with
  | above h => exact .above (List.cons_prefix_cons.1 h).2
  | @earlier above es i j array hpath hother h =>
    cases above with
    | nil =>
      obtain ⟨hi, -⟩ := List.cons.inj hpath
      obtain ⟨hj, -⟩ := List.cons.inj hother
      rw [Pointer.repr_injective (hi.symm.trans hj)] at h
      exact absurd h (Nat.lt_irrefl _)
    | cons first above =>
      obtain ⟨rfl, rfl⟩ := List.cons.inj hpath
      obtain ⟨-, rfl⟩ := List.cons.inj hother
      exact .earlier (at?_cons hat above ▸ array) rfl rfl h

theorem Needs.cons (h : u.Needs path rest) (hat : t.at? [token] = some u) :
    t.Needs (token :: path) (token :: rest) := by
  cases h with
  | above h => exact .above (List.cons_prefix_cons.2 ⟨rfl, h⟩)
  | @earlier above es i j array hpath hother h =>
    have hbelow : t.at? (token :: above) = some (.arr es) := by rwa [at?_cons hat]
    exact .earlier hbelow (by rw [hpath]; rfl) (by rw [hother]; rfl) h

/-- Of two parts, one is needed for the other only as an element for a later one. -/
private theorem Needs.of_ne (h : t.Needs (token :: path) (other :: rest)) (hne : token ≠ other) :
    ∃ (es : List Tree) (i j : Nat), t = .arr es ∧ token = i.repr ∧ other = j.repr ∧ j < i := by
  cases h with
  | above h => exact absurd (List.cons_prefix_cons.1 h).1.symm hne
  | @earlier above es i j array hpath hother h =>
    cases above with
    | nil =>
      obtain ⟨rfl, -⟩ := List.cons.inj hpath
      obtain ⟨rfl, -⟩ := List.cons.inj hother
      exact ⟨es, i, j, Option.some.inj array, rfl, rfl, h⟩
    | cons first above =>
      obtain ⟨rfl, -⟩ := List.cons.inj hpath
      obtain ⟨rfl, -⟩ := List.cons.inj hother
      exact absurd rfl hne

end Tree

namespace Json

theorem mem_spots {v : Json} (hv : v.isDocument = true) {path : Path} :
    path ∈ v.spots ↔ path ≠ [] ∧ (v.tree.at? path).isSome = true := by
  constructor
  · intro h
    obtain ⟨b, hb, rfl⟩ := List.mem_map.1 h
    obtain ⟨hne, -, part, hpart, -⟩ := (mem_layout v hv b).1 hb
    exact ⟨hne, by rw [hpart]; rfl⟩
  · rintro ⟨hne, hsome⟩
    obtain ⟨part, hpart⟩ := Option.isSome_iff_exists.1 hsome
    obtain ⟨w, hw, htree⟩ : ∃ w : Json, w.isHollow = true ∧ w.tree = part.hollow := by
      cases part with
      | scalar s => exact ⟨.scalar s, rfl, rfl⟩
      | arr es => exact ⟨.arr [], rfl, rfl⟩
      | obj f => exact ⟨.emptyObject, rfl, tree_obj []⟩
    exact List.mem_map.2 ⟨(path, w), (mem_layout v hv _).2 ⟨hne, hw, part, hpart, htree⟩, rfl⟩

/-- A part and what is below it come in an order in which nothing is needed before it is there. -/
private theorem pairwise_part {t : Tree} {v : Json} (hv : v.isDocument = true) {token : String}
    (hat : t.at? [token] = some v.tree) (hplaces : v.spots.Pairwise fun p q => ¬ v.tree.Needs p q) :
    ([token] :: v.spots.map (token :: ·)).Pairwise fun p q => ¬ t.Needs p q := by
  refine List.pairwise_cons.2 ⟨fun q hq hneeds => ?_, List.pairwise_map.2 (hplaces.imp fun h hneeds => ?_)⟩
  · obtain ⟨rest, hrest, rfl⟩ := List.mem_map.1 hq
    cases hneeds.of_cons hat with
    | above h => exact ((mem_spots hv).1 hrest).1 (List.prefix_nil.1 h)
    | earlier array hpath => simp at hpath
  · exact h (hneeds.of_cons hat)

private theorem mem_part {token : String} {v : Json} {path : Path}
    (h : path ∈ [token] :: v.spots.map (token :: ·)) : ∃ rest, path = token :: rest := by
  rcases List.mem_cons.1 h with rfl | h
  · exact ⟨[], rfl⟩
  · obtain ⟨rest, -, rfl⟩ := List.mem_map.1 h
    exact ⟨rest, rfl⟩

private theorem spots_part (token : String) (v : Json) (rest : List (Path × Json)) :
    (([token], v.hollow) :: v.layout.map (fun b => (token :: b.1, b.2)) ++ rest).map Prod.fst =
      ([token] :: v.spots.map (token :: ·)) ++ rest.map Prod.fst := by
  simp [spots, Function.comp_def]

mutual

/-- A document is made in an order in which nothing is needed before it is there, and no place comes twice. -/
theorem pairwise_spots (v : Json) (hv : v.isDocument = true) :
    v.spots.Pairwise fun p q => ¬ v.tree.Needs p q := by
  match v with
  | .scalar s => exact .nil
  | .arr es => exact pairwise_elements es (isDocument_arr.1 hv) fun j e he => by simp [at?, he]
  | .obj ms =>
    refine pairwise_members ms (isDocument_obj.1 hv) (fun es => ?_) fun name v hv => ?_
    · simp
    · simp [at?, Members.trees, hv]

theorem pairwise_elements (es : List Json) (hes : ∀ e ∈ es, e.isDocument = true) {t : Tree} {i : Nat}
    (hat : ∀ (j : Nat) (e : Json), es[j]? = some e → t.at? [(i + j).repr] = some e.tree) :
    ((layoutElements i es).map Prod.fst).Pairwise fun p q => ¬ t.Needs p q := by
  match es with
  | [] => exact .nil
  | e :: others =>
    rw [List.forall_mem_cons] at hes
    rw [layoutElements, spots_part]
    refine List.pairwise_append.2 ⟨pairwise_part hes.1 (hat 0 e rfl) (pairwise_spots e hes.1),
      pairwise_elements others hes.2 (fun j f hf => ?_), fun p hp q hq hneeds => ?_⟩
    · rw [Nat.add_right_comm, Nat.add_assoc]
      exact hat (j + 1) f hf
    · obtain ⟨rest, rfl⟩ := mem_part hp
      obtain ⟨b, hb, rfl⟩ := List.mem_map.1 hq
      obtain ⟨j, f, below, -, hpath, -⟩ := (mem_layoutElements others hes.2).1 hb
      rw [hpath] at hneeds
      have hne : i.repr ≠ (i + 1 + j).repr := fun h => by
        have := Pointer.repr_injective h
        omega
      obtain ⟨-, k, l, -, hk, hl, hlt⟩ := hneeds.of_ne hne
      obtain rfl := Pointer.repr_injective hk
      obtain rfl := Pointer.repr_injective hl
      omega

theorem pairwise_members (ms : List (Scalar × Json)) (hms : Members.AreDocument ms) {t : Tree}
    (hobject : ∀ es, t ≠ .arr es)
    (hat : ∀ (name : String) (v : Json), Members.get? ms name = some v → t.at? [name] = some v.tree) :
    ((layoutMembers ms).map Prod.fst).Pairwise fun p q => ¬ t.Needs p q := by
  match ms with
  | [] => exact .nil
  | (k, v) :: others =>
    obtain ⟨name, rfl, hnew, hv, hothers⟩ := Members.areOf_cons.1 hms
    have hlater : ∀ (other : String) (u : Json), Members.get? others other = some u →
        name ≠ other ∧ Members.get? ((.str name, v) :: others) other = some u := fun other u hu => by
      have hne : name ≠ other := by
        rintro rfl
        rw [hnew] at hu
        cases hu
      exact ⟨hne, by rwa [Members.get?_cons, if_neg (by simpa using hne)]⟩
    rw [layoutMembers, spots_part]
    refine List.pairwise_append.2 ⟨pairwise_part hv (hat name v (by simp [Members.get?_cons])) (pairwise_spots v hv),
      pairwise_members others hothers hobject (fun other u hu => hat other u (hlater other u hu).2),
      fun p hp q hq hneeds => ?_⟩
    obtain ⟨rest, rfl⟩ := mem_part hp
    obtain ⟨b, hb, rfl⟩ := List.mem_map.1 hq
    obtain ⟨other, u, below, hu, hpath, -⟩ := (mem_layoutMembers others hothers).1 hb
    rw [hpath] at hneeds
    obtain ⟨es, -, -, harr, -⟩ := hneeds.of_ne (hlater other u hu).1
    exact hobject es harr

end

end Json

end EditLens
