import EditLens.Proofs.Schema.Completing
import EditLens.Proofs.Schema.Formed

/-! Documents that defaults add nothing to. Main statement: completing a value leaves it as it is exactly if
none of its objects lacks a member that is given by default at its place. -/
namespace EditLens

open EditLens.Tree Function

namespace Schema

variable {schema whole part : Json} {props given own ms : Members} {name : String}

/-- Schemas all of whose keywords can be read are legible. -/
theorem WellShaped.legible (h : WellShaped schema) : Legible schema := by
  induction h with
  | mk os props type default required oneOf anyOf options properties distinct text members items hoptions hmembers
    hitems =>
  exact .mk (options_of_get? oneOf anyOf) hoptions (memberSchemas_of_get? properties) distinct text
    (fun m hm _ => hmembers m hm) (fun part hpart _ => hitems part hpart) default

def Gives (schema : Json) (name : String) : Prop :=
  ∃ props property v, memberSchemas schema = .ok props ∧ props.get? name = some property ∧
    memberDefault property = .ok (some v)

/-- Whether every object in a document has all the members that are given at its place by default. -/
def Furnished (schema : Json) (t : Tree) : Prop :=
  ∀ path f part, t.at? path = some (.obj f) → locate schema path = .ok part →
    ∀ name, Gives part name → ∃ u, f name = some u

private theorem Furnished.scalar (schema : Json) (s : Scalar) : Furnished schema (.scalar s) := by
  intro path f part hat
  cases path <;> cases hat

private theorem furnished_obj_iff {f : String → Option Tree} (hwhole : container schema = .ok whole) :
    Furnished schema (.obj f) ↔ (∀ name, Gives whole name → ∃ u, f name = some u) ∧
      ∀ token u part, f token = some u → step whole token = .ok part → Furnished part u := by
  constructor
  · refine fun h => ⟨h [] f whole rfl hwhole, fun token u part hu hpart rest g below hat hbelow => ?_⟩
    refine h (token :: rest) g below ?_ ?_
    · rw [Tree.at?, hu]
      exact hat
    · rw [locate, hwhole, Except.bind_ok, hpart]
      exact hbelow
  · rintro ⟨hroot, hparts⟩ path g part hat hlocate
    cases path with
    | nil =>
      obtain rfl := Tree.obj.inj (Option.some.inj hat)
      exact Except.ok.inj (hwhole.symm.trans hlocate) ▸ hroot
    | cons token rest =>
      obtain ⟨u, hu, hat⟩ := Option.bind_eq_some_iff.1 hat
      rw [locate, hwhole, Except.bind_ok] at hlocate
      obtain ⟨next, hstep, hlocate⟩ := Except.exists_of_bind hlocate
      exact hparts token u next hu hstep rest g part hat hlocate

private theorem furnished_arr_iff {es : List Tree} (hwhole : container schema = .ok whole) :
    Furnished schema (.arr es) ↔
      ∀ (i : Nat) u part, es[i]? = some u → step whole i.repr = .ok part → Furnished part u := by
  constructor
  · refine fun h i u part hu hpart rest g below hat hbelow => h (i.repr :: rest) g below ?_ ?_
    · rw [Tree.at?, Pointer.position?_repr, Option.bind_some, hu]
      exact hat
    · rw [locate, hwhole, Except.bind_ok, hpart]
      exact hbelow
  · intro hparts path g part hat hlocate
    cases path with
    | nil => cases hat
    | cons token rest =>
      obtain ⟨i, hi, hbelow⟩ := Option.bind_eq_some_iff.1 hat
      obtain rfl := Pointer.eq_repr_of_position? hi
      obtain ⟨u, hu, hfound⟩ := Option.bind_eq_some_iff.1 hbelow
      rw [locate, hwhole, Except.bind_ok] at hlocate
      obtain ⟨next, hstep, hlocate⟩ := Except.exists_of_bind hlocate
      exact hparts i u next hu hstep rest g part hfound hlocate

/-- The members that are collected are those for which there is a value. -/
private theorem get?_collect {f : Scalar × Json → Except Fault (Option Json)} {sort : Json → Prop}
    (hprops : props.AreOf sort) (h : Members.collect f props = .ok given) (name : String) :
    (∀ property, props.get? name = some property → f (.str name, property) = .ok (given.get? name)) ∧
      (props.get? name = none → given.get? name = none) := by
  induction props generalizing given with
  | nil =>
    obtain rfl := Except.ok.inj h
    simp
  | cons m rest ih =>
    obtain ⟨k, property⟩ := m
    obtain ⟨first, rfl, hnew, -, hrest⟩ := Members.areOf_cons.1 hprops
    rw [Members.collect] at h
    obtain ⟨value, hvalue, h⟩ := Except.exists_of_bind h
    by_cases hname : first = name
    · subst hname
      cases value with
      | none => simp [Members.get?_cons, hvalue, (ih hrest h).2 hnew]
      | some v =>
        obtain ⟨others, -, h⟩ := Except.exists_of_bind h
        obtain rfl := Except.ok.inj h
        simp [Members.get?_cons, hvalue]
    · have hskip (v : Json) (rest : Members) :
          Members.get? ((.str first, v) :: rest) name = rest.get? name := by
        rw [Members.get?_cons, if_neg (by simpa using hname)]
      rw [hskip]
      cases value with
      | none => exact ih hrest h
      | some v =>
        obtain ⟨others, hothers, h⟩ := Except.exists_of_bind h
        obtain rfl := Except.ok.inj h
        rw [hskip]
        exact ih hrest hothers

private theorem blankMember_cases {m : Scalar × Json} {o : Option Json} (h : blankMember schema m = .ok o) :
    (o = none ∧ memberDefault m.2 = .ok none) ∨ ∃ u v, o = some u ∧ memberDefault m.2 = .ok (some v) := by
  rw [blankMember] at h
  obtain ⟨given, hgiven, h⟩ := Except.exists_of_bind h
  cases given with
  | none => exact .inl ⟨(Except.ok.inj h).symm, hgiven⟩
  | some v =>
    refine .inr ?_
    dsimp only at h
    split at h
    · obtain ⟨part, -, h⟩ := Except.exists_of_bind h
      obtain ⟨blank, -, h⟩ := Except.exists_of_bind h
      exact ⟨_, v, (Except.ok.inj h).symm, hgiven⟩
    · exact ⟨_, v, (Except.ok.inj h).symm, hgiven⟩

/-- The members that an object has by default are those that are given. -/
private theorem get?_blanks_eq_none (hschema : Legible schema) (h : blanks schema = .ok given) (name : String) :
    given.get? name = none ↔ ¬ Gives schema name := by
  obtain ⟨props, hprops, hparts⟩ := hschema.memberSchemas_eq
  rw [blanks_eq, hprops, Except.bind_ok] at h
  obtain ⟨hthere, habsent⟩ := get?_collect hparts h name
  have hgives : Gives schema name ↔
      ∃ property v, props.get? name = some property ∧ memberDefault property = .ok (some v) := by
    simp [Gives, hprops]
  rw [hgives]
  cases hproperty : props.get? name with
  | none => simp [habsent hproperty]
  | some property =>
    rcases blankMember_cases (hthere property hproperty) with ⟨hnone, hdefault⟩ | ⟨u, v, hsome, hdefault⟩
    · simp [hnone, hdefault]
    · simp [hsome, hdefault]

private theorem get?_completeMembers_eq_none (h : completeMembers schema ms = .ok own) (name : String) :
    own.get? name = none ↔ ms.get? name = none := by
  induction ms generalizing own with
  | nil =>
    obtain rfl := Except.ok.inj h
    rfl
  | cons m rest ih =>
    obtain ⟨k, v⟩ := m
    rw [completeMembers] at h
    obtain ⟨part, -, h⟩ := Except.exists_of_bind h
    obtain ⟨w, -, h⟩ := Except.exists_of_bind h
    obtain ⟨others, hothers, h⟩ := Except.exists_of_bind h
    obtain rfl := Except.ok.inj h
    rw [Members.get?_cons, Members.get?_cons]
    split
    · simp
    · exact ih hothers

/-- Members put over those given by default are themselves exactly if none of these comes through. -/
private theorem trees_putAll_eq_iff {sort : Json → Prop} {gives : String → Prop} (hown : own.AreOf sort)
    (hnames : ∀ name : String, own.get? name = none ↔ ms.get? name = none)
    (hgiven : ∀ name : String, given.get? name = none ↔ ¬ gives name) : (given.putAll own).trees = ms.trees ↔
      (∀ name, gives name → ∃ u, ms.trees name = some u) ∧ own.trees = ms.trees := by
  have hown' (name : String) : own.trees name = none ↔ ms.trees name = none := by
    rw [Members.trees, Members.trees, Option.map_eq_none_iff, Option.map_eq_none_iff, hnames]
  have hgiven' (name : String) : given.trees name = none ↔ ¬ gives name := by
    rw [Members.trees, Option.map_eq_none_iff, hgiven]
  constructor
  · intro heq
    have hname (name : String) : (own.trees name).or (given.trees name) = ms.trees name := by
      rw [← hown.trees_putAll, heq]
    refine ⟨fun name hgives => Option.ne_none_iff_exists'.1 fun hnone => ?_, funext fun name => ?_⟩
    · have habsent := hname name
      rw [(hown' name).2 hnone, Option.none_or, hnone] at habsent
      exact (hgiven' name).1 habsent hgives
    · cases hthere : own.trees name with
      | none => exact ((hown' name).1 hthere).symm
      | some u =>
        rw [← hname, hthere]
        rfl
  · rintro ⟨hthere, heq⟩
    funext name
    rw [hown.trees_putAll, heq]
    cases hms : ms.trees name with
    | some u => rfl
    | none =>
      rw [Option.none_or, hgiven']
      intro hgives
      obtain ⟨u, hu⟩ := hthere name hgives
      rw [hms] at hu
      cases hu

mutual

/-- A completed value is the value itself exactly if it lacks nothing that is given by default. -/
theorem tree_complete_iff (v : Json) (hv : v.isDocument = true) {schema w : Json} (hschema : Legible schema)
    (h : complete schema v = .ok w) : w.tree = v.tree ↔ Furnished schema v.tree := by
  obtain ⟨whole, hwhole, hlegible⟩ := hschema.container_eq
  match v with
  | .scalar s =>
    obtain rfl := Except.ok.inj h
    exact ⟨fun _ => .scalar schema s, fun _ => rfl⟩
  | .arr es =>
    rw [complete, hwhole, Except.bind_ok] at h
    obtain ⟨ws, hws, h⟩ := Except.exists_of_bind h
    obtain rfl := Except.ok.inj h
    rw [Json.tree_arr, Json.tree_arr, Tree.arr.injEq, furnished_arr_iff hwhole,
      trees_completeElements_iff es (Json.isDocument_arr.1 hv) hlegible hws]
    simp
  | .obj ms =>
    have hms := Json.isDocument_obj.1 hv
    rw [complete, hwhole, Except.bind_ok] at h
    obtain ⟨given, hgiven, h⟩ := Except.exists_of_bind h
    obtain ⟨own, hown, h⟩ := Except.exists_of_bind h
    obtain rfl := Except.ok.inj h
    rw [Json.tree_obj, Json.tree_obj, Tree.obj.injEq, furnished_obj_iff hwhole,
      ← trees_completeMembers_iff ms hms hlegible hown]
    exact trees_putAll_eq_iff (areOf_completeMembers hms hown) (get?_completeMembers_eq_none hown)
      (get?_blanks_eq_none hlegible hgiven)

theorem trees_completeElements_iff (es : List Json) (hes : ∀ e ∈ es, e.isDocument = true) {i : Nat} {schema : Json}
    (hschema : Legible schema) {ws : List Json} (h : completeElements schema i es = .ok ws) :
    ws.map Json.tree = es.map Json.tree ↔ ∀ (j : Nat) u part, (es.map Json.tree)[j]? = some u →
      step schema (i + j).repr = .ok part → Furnished part u := by
  match es with
  | [] =>
    obtain rfl := Except.ok.inj h
    simp
  | e :: rest =>
    rw [List.forall_mem_cons] at hes
    obtain ⟨part, hpart, hlegible⟩ := hschema.step_eq i.repr
    rw [completeElements, hpart, Except.bind_ok] at h
    obtain ⟨w, hw, h⟩ := Except.exists_of_bind h
    obtain ⟨others, hothers, h⟩ := Except.exists_of_bind h
    obtain rfl := Except.ok.inj h
    rw [List.map_cons, List.map_cons, List.cons.injEq, tree_complete_iff e hes.1 hlegible hw,
      trees_completeElements_iff rest hes.2 hschema hothers]
    have hnext (j : Nat) : i + 1 + j = i + (j + 1) := by omega
    constructor
    · rintro ⟨hfirst, hothers⟩ j u part' hu hstep
      cases j with
      | zero =>
        obtain rfl := Option.some.inj hu
        obtain rfl := Except.ok.inj (hpart.symm.trans hstep)
        exact hfirst
      | succ j => exact hothers j u part' hu (hnext j ▸ hstep)
    · exact fun hall => ⟨hall 0 _ part rfl hpart, fun j u part' hu hstep =>
        hall (j + 1) u part' hu (hnext j ▸ hstep)⟩

theorem trees_completeMembers_iff (ms : List (Scalar × Json)) (hms : Members.AreDocument ms) {schema : Json}
    (hschema : Legible schema) {own : Members} (h : completeMembers schema ms = .ok own) :
    own.trees = Members.trees ms ↔ ∀ token u part, Members.trees ms token = some u →
      step schema token = .ok part → Furnished part u := by
  match ms with
  | [] =>
    obtain rfl := Except.ok.inj h
    simp
  | (k, v) :: rest =>
    obtain ⟨first, rfl, hnew, hv, hrest⟩ := Members.areOf_cons.1 hms
    obtain ⟨part, hpart, hlegible⟩ := hschema.step_eq first
    rw [completeMembers, show step schema (Scalar.str first).plain = .ok part from hpart, Except.bind_ok] at h
    obtain ⟨w, hw, h⟩ := Except.exists_of_bind h
    obtain ⟨others, hothers, h⟩ := Except.exists_of_bind h
    obtain rfl := Except.ok.inj h
    have hfirst := tree_complete_iff v hv hlegible hw
    have hlater := trees_completeMembers_iff rest hrest hschema hothers
    have hfree : Members.trees rest first = none := by rw [Members.trees, hnew, Option.map_none]
    have hfree' : Members.trees others first = none := by
      rw [Members.trees, (get?_completeMembers_eq_none hothers first).2 hnew, Option.map_none]
    rw [Members.trees_cons, Members.trees_cons]
    constructor
    · intro heq token u part' hu hstep
      have hname := congrFun heq token
      by_cases htoken : token = first
      · subst htoken
        rw [update_self] at hu hname
        rw [update_self] at hname
        obtain rfl := Except.ok.inj (hpart.symm.trans hstep)
        obtain rfl := Option.some.inj hu
        exact hfirst.1 (Option.some.inj hname)
      · rw [update_of_ne htoken] at hu
        refine hlater.1 (funext fun name => ?_) token u part' hu hstep
        by_cases hne : name = first
        · rw [hne, hfree, hfree']
        · simpa [hne] using congrFun heq name
    · intro hall
      rw [hfirst.2 (hall first _ part (update_self ..) hpart), hlater.2 fun token u part' hu hstep => ?_]
      refine hall token u part' ?_ hstep
      rw [update_of_ne (fun heq => ?_), hu]
      rw [heq, hfree] at hu
      cases hu

end

end Schema

end EditLens
