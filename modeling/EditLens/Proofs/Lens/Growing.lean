import EditLens.Proofs.Json.Elements
import EditLens.Proofs.Lens.Carry
import EditLens.Proofs.Lens.Recast

/-! Documents that grow by one place at a time. Main statement: when a document grows by an addition,
what a lens makes of it grows by the carried addition, if that is not dropped. -/
namespace EditLens

open Function (update)
open EditLens.Tree

/-- What came out of a lens for an addition adds one place to a document, if anything. -/
def Extends (path : Path) (carried : Except Fault (Option PatchOp)) (u u' : Tree) : Prop :=
  (carried = .ok none ∧ u' = u) ∨ ∃ q path' v, carried = .ok (some q) ∧ q.Edits (.add v) path' ∧
    v.isHollow = true ∧ (path ≠ [] → path' ≠ []) ∧ Tree.write v.tree path' (some u) = some u'

def LensOp.Follows (op : LensOp) : Prop :=
  ∀ ⦃p : PatchOp⦄ ⦃v : Json⦄ ⦃path : Path⦄ ⦃t t' u u' : Tree⦄, p.Edits (.add v) path →
    v.isHollow = true → Part t t' → Tree.write v.tree path (some t) = some t' →
    op.recast t = some u → op.recast t' = some u' →
    Extends path (LensOp.carry p path op).outcome u u'

def Lens.Follows (lens : Lens) : Prop :=
  ∀ ⦃p : PatchOp⦄ ⦃v : Json⦄ ⦃path : Path⦄ ⦃t t' u u' : Tree⦄, p.Edits (.add v) path →
    v.isHollow = true → Part t t' → Tree.write v.tree path (some t) = some t' →
    lens.recast t = some u → lens.recast t' = some u' →
    Extends path (Lens.carry p lens).outcome u u'

namespace Extends

variable {p : PatchOp} {v : Json} {path : Path} {u u' : Tree}

private theorem unmoved (hp : p.Edits (.add v) path) (hv : v.isHollow = true)
    (h : Tree.write v.tree path (some u) = some u') : Extends path (.ok (some p)) u u' :=
  .inr ⟨p, path, v, rfl, hp, hv, id, h⟩

private theorem moved (hp : p.Edits (.add v) path) (hv : v.isHollow = true) {target : Path}
    (hne : target ≠ []) (h : Tree.write v.tree target (some u) = some u') :
    Extends path (.ok (some (p.withPath target))) u u' :=
  .inr ⟨p.withPath target, target, v, rfl, hp.withPath target, hv, fun _ => hne, h⟩

end Extends

namespace LensOp

private theorem follows_root {op : LensOp} {p : PatchOp} {v : Json} {t t' u u' : Tree}
    (hp : p.Edits (.add v) []) (hv : v.isHollow = true)
    (hwrite : Tree.write v.tree [] (some t) = some t') (hu' : op.recast t' = some u') :
    Extends [] (LensOp.carry p [] op).outcome u u' := by
  obtain rfl := Option.some.inj hwrite
  obtain rfl := recast_hollow hv hu'
  rw [outcome_carry_root hp.edit]
  exact .unmoved hp hv rfl

private theorem follows_rename (s d : Json) : (LensOp.rename s d).Follows := by
  intro p v path t t' u u' hp hv hpart hwrite hu hu'
  cases path with
  | nil => exact follows_root hp hv hwrite hu'
  | cons key rest =>
  cases direct_of_recast hu with
  | rename source destination =>
  simp only [recast] at hu hu'
  obtain ⟨f, rfl, hf, rfl⟩ := renameMember_eq_some.1 hu
  obtain ⟨part, hwritten, rfl⟩ := Tree.write_cons_obj_eq_some.1 hwrite
  obtain ⟨_, ⟨⟩, hd, rfl⟩ := renameMember_eq_some.1 hu'
  have hdest : key ≠ destination := by
    rintro rfl
    simp at hd
  rw [outcome_carry_rename hp.edit]
  by_cases hkey : source = key
  · subst hkey
    simp only [Edit.written?, Option.isSome_some, decide_true, Bool.and_self, if_true]
    refine .moved hp hv (by simp) ?_
    rw [Tree.write_cons_obj, Function.update_self, hwritten]
    simp
  · simp only [hkey, decide_false, Bool.and_false, Bool.false_eq_true, if_false]
    refine .unmoved hp hv ?_
    rw [Tree.write_cons_obj, Function.update_of_ne hdest, Function.update_of_ne (Ne.symm hkey),
      hwritten, Option.map_some, Function.update_of_ne hkey, Function.update_comm (Ne.symm hdest),
      Function.update_comm hkey]

private theorem follows_remove (property : Property) : (LensOp.remove property).Follows := by
  intro p v path t t' u u' hp hv hpart hwrite hu hu'
  cases path with
  | nil => exact follows_root hp hv hwrite hu'
  | cons key rest =>
  cases direct_of_recast hu with
  | remove name type default required items =>
  simp only [recast] at hu hu'
  obtain ⟨f, rfl, rfl⟩ := removeMember_eq_some.1 hu
  obtain ⟨part, hwritten, rfl⟩ := Tree.write_cons_obj_eq_some.1 hwrite
  obtain ⟨_, ⟨⟩, rfl⟩ := removeMember_eq_some.1 hu'
  rw [outcome_carry_remove hp.edit _ name key rest rfl]
  by_cases hkey : name = key
  · subst hkey
    rw [if_pos rfl]
    exact .inl ⟨rfl, by simp⟩
  · rw [if_neg hkey]
    refine .unmoved hp hv ?_
    rw [Tree.write_cons_obj, Function.update_of_ne (Ne.symm hkey), hwritten, Option.map_some,
      Function.update_comm hkey]

/-- A step that rewrites one member leaves what is written at another one to be written as it is. -/
private theorem write_rewritten_beside {F : Tree → Option Tree} {name key : String} {f : String → Option Tree}
    {v : Json} {rest : Path} {part u u' : Tree} (hkey : name ≠ key)
    (hwritten : Tree.write v.tree rest (f key) = some part) (hu : rewriteMember name F (.obj f) = some u)
    (hu' : rewriteMember name F (.obj (update f key (some part))) = some u') :
    Tree.write v.tree (key :: rest) (some u) = some u' := by
  obtain ⟨_, ⟨⟩, hf⟩ := rewriteMember_eq_some.1 hu
  obtain ⟨_, ⟨⟩, hf'⟩ := rewriteMember_eq_some.1 hu'
  rw [Function.update_of_ne hkey] at hf'
  rcases hf with ⟨hnone, rfl⟩ | ⟨old, old', hold, hold', rfl⟩
  · rcases hf' with ⟨-, rfl⟩ | ⟨new, new', hnew, -⟩
    · rw [Tree.write_cons_obj, hwritten]
      rfl
    · rw [hnone] at hnew
      cases hnew
  · rcases hf' with ⟨hnone, -⟩ | ⟨new, new', hnew, hnew', rfl⟩
    · rw [hnone] at hold
      cases hold
    · obtain rfl : old = new := by simpa [hold] using hnew
      obtain rfl : old' = new' := by simpa [hold'] using hnew'
      rw [Tree.write_cons_obj, Function.update_of_ne (Ne.symm hkey), hwritten, Option.map_some,
        Function.update_comm hkey]

private theorem recodeMember_eq (name : String) (mapping : Mapping) (t : Tree) :
    t.recodeMember name mapping = t.rewriteMember name fun part =>
      match part with
      | .scalar s =>
        match mapping.recode? (.scalar s) with
        | some (.scalar t) => some (.scalar t)
        | _ => none
      | _ => none := by
  cases t with
  | obj f =>
    rw [recodeMember, rewriteMember]
    cases f name with
    | none => rfl
    | some part =>
      cases part with
      | scalar s =>
        dsimp only
        cases mapping.recode? (.scalar s) with
        | none => rfl
        | some w => cases w <;> rfl
      | _ => rfl
  | _ => rfl

private theorem follows_convert (n : Json) (mapping : Mapping) (s d : Json) :
    (LensOp.convert n mapping s d).Follows := by
  intro p v path t t' u u' hp hv hpart hwrite hu hu'
  cases path with
  | nil => exact follows_root hp hv hwrite hu'
  | cons key rest =>
  cases direct_of_recast hu with
  | convert name =>
  simp only [recast] at hu hu'
  obtain ⟨f, rfl, hf⟩ := recodeMember_eq_some.1 hu
  obtain ⟨part, hwritten, rfl⟩ := Tree.write_cons_obj_eq_some.1 hwrite
  by_cases hkey : key = name
  · subst hkey
    obtain ⟨_, ⟨⟩, hf'⟩ := recodeMember_eq_some.1 hu'
    rw [Function.update_self] at hf'
    obtain ⟨hnone, -⟩ | ⟨a, b, ha, hb, rfl⟩ := hf'
    · cases hnone
    obtain rfl := Option.some.inj ha
    cases rest with
    | cons next below =>
      -- There is nothing below a scalar.
      rcases hf with ⟨hnone, -⟩ | ⟨a', b', ha', -⟩
      · rw [hnone] at hwritten
        cases hwritten
      · rw [ha'] at hwritten
        cases hwritten
    | nil =>
      have hvalue : v = .scalar a := by
        cases v with
        | scalar a' =>
          obtain rfl := Tree.scalar.inj (Option.some.inj hwritten)
          rfl
        | _ => simp [Tree.write] at hwritten
      subst hvalue
      rw [outcome_carry_convert_self hp.edit key mapping s d rfl, hb]
      refine .inr ⟨_, [key], .scalar b, rfl, hp.withValue rfl _, rfl, id, ?_⟩
      rcases hf with ⟨-, rfl⟩ | ⟨a', b', -, -, rfl⟩
      · simp [Tree.write]
      · simp [Tree.write]
  · rw [outcome_carry_convert_of_ne hp.edit _ _ _ (by simp [hkey])]
    rw [recodeMember_eq] at hu hu'
    exact .unmoved hp hv (write_rewritten_beside (Ne.symm hkey) hwritten hu hu')

private theorem follows_inside (n : Json) {lens : Lens} (ih : lens.Follows) :
    (LensOp.inside n lens).Follows := by
  intro p v path t t' u u' hp hv hpart hwrite hu hu'
  cases path with
  | nil => exact follows_root hp hv hwrite hu'
  | cons key rest =>
  cases direct_of_recast hu with
  | inside name =>
  simp only [recast] at hu hu'
  obtain ⟨f, rfl, hf⟩ := rewriteMember_eq_some.1 hu
  obtain ⟨part, hwritten, rfl⟩ := Tree.write_cons_obj_eq_some.1 hwrite
  rw [outcome_carry_inside]
  by_cases hkey : name = key
  · subst hkey
    obtain ⟨_, ⟨⟩, hf'⟩ := rewriteMember_eq_some.1 hu'
    rw [Function.update_self] at hf'
    obtain ⟨hnone, -⟩ | ⟨_, part', ⟨⟩, hpart', rfl⟩ := hf'
    · cases hnone
    rw [if_pos rfl]
    rcases hf with ⟨hnone, rfl⟩ | ⟨old, old', hold, hold', rfl⟩
    · -- The member is new, so the edit writes it as a whole.
      rw [hnone] at hwritten
      cases rest with
      | cons next below => cases hwritten
      | nil =>
      obtain rfl := Option.some.inj hwritten
      obtain rfl := Lens.recast_hollow hv hpart'
      rw [Lens.outcome_carry_root (by rw [PatchOp.edit_withPath, hp.edit]) PatchOp.path_withPath]
      refine .inr ⟨p.withPath [name], [name], v, ?_, hp.withPath _, hv, id, ?_⟩
      · simp [bind, Except.bind, pure, Except.pure]
      · simp [Tree.write]
    · rw [hold] at hwritten
      have hmember : Part old part := by
        cases hpart with
        | obj h =>
        have := h name
        rw [hold, Function.update_self] at this
        cases this with
        | present h => exact h
      rcases ih (hp.withPath rest) hv hmember hwritten hold' hpart' with
        ⟨hdropped, rfl⟩ | ⟨q, path', v', hq, hqe, hv', hne, hq'⟩
      · exact .inl ⟨by rw [hdropped]; rfl, by simp⟩
      · refine .inr ⟨q.withPath (name :: path'), name :: path', v', ?_, hqe.withPath _, hv',
          fun _ => by simp, ?_⟩
        · rw [hq]
          simp [hqe.path, bind, Except.bind, pure, Except.pure]
        · rw [Tree.write_cons_obj, Function.update_self, hq']
          simp
  · rw [if_neg hkey]
    exact .unmoved hp hv (write_rewritten_beside hkey hwritten hu hu')

section Hoist

variable {host name key : String} {f : String → Option Tree} {v : Json} {rest : Path} {part u u' : Tree}

private theorem eq_none_of_isHollow {g : String → Option Tree} (hv : v.isHollow = true) (h : v.tree = .obj g)
    (k : String) : g k = none := by
  cases v with
  | obj ms =>
    obtain rfl := List.isEmpty_iff.1 hv
    rw [Json.tree_obj] at h
    rw [← Tree.obj.inj h]
    rfl
  | _ => simp at h

private theorem hoistMember_of_empty {g : String → Option Tree} (hname : f name = none) (hempty : ∀ k, g k = none)
    (hdest : host ≠ name) :
    update (update (update f host (some (.obj g))) host (some (.obj (update g name none)))) name (g name) =
      update f host (some (.obj g)) := by
  have hg : update g name none = g := by rw [← hempty name, Function.update_eq_self]
  rw [hempty name, hg, Function.update_idem, Function.update_comm hdest, ← hname, Function.update_eq_self]

/-- A host that is written itself was not there or had nothing in it, so there is nothing in it to be hoisted. -/
private theorem write_hoisted_host (hv : v.isHollow = true) (hdest : host ≠ name)
    (hpart : Part (.obj f) (.obj (update f host (some v.tree)))) (hu : hoistMember host name (.obj f) = some u)
    (hu' : hoistMember host name (.obj (update f host (some v.tree))) = some u') :
    Tree.write v.tree [host] (some u) = some u' := by
  obtain ⟨_, ⟨⟩, hname, hhost⟩ := hoistMember_eq_some.1 hu
  obtain ⟨_, ⟨⟩, -, hhost'⟩ := hoistMember_eq_some.1 hu'
  rw [Function.update_self] at hhost'
  obtain ⟨hnone, -⟩ | ⟨g, hvalue, rfl⟩ := hhost'
  · cases hnone
  have hvalue : v.tree = .obj g := Option.some.inj hvalue
  have hempty := eq_none_of_isHollow hv hvalue
  rw [hvalue, hoistMember_of_empty hname hempty hdest]
  obtain ⟨-, rfl⟩ | ⟨g', hg', rfl⟩ := hhost
  · rfl
  · have hsame : g' = g := by
      cases hpart with
      | obj h =>
      have hmember := h host
      rw [hg', Function.update_self, hvalue] at hmember
      cases hmember with
      | present hinner =>
      cases hinner with
      | obj hparts =>
      funext k
      rw [hempty k]
      exact (hempty k ▸ hparts k).eq_none
    subst hsame
    have hself : update f host (some (.obj g')) = f := by rw [← hg', Function.update_eq_self]
    have hthere := hoistMember_of_empty hname hempty hdest
    rw [hself] at hthere
    rw [hthere]
    rfl

/-- What is written in the hoisted member is written at its new place. -/
private theorem write_hoisted_name (hwritten : Tree.write v.tree (name :: rest) (f host) = some part)
    (hu : hoistMember host name (.obj f) = some u)
    (hu' : hoistMember host name (.obj (update f host (some part))) = some u') :
    Tree.write v.tree (name :: rest) (some u) = some u' := by
  obtain ⟨_, ⟨⟩, hname, hhost⟩ := hoistMember_eq_some.1 hu
  obtain ⟨_, ⟨⟩, -, hhost'⟩ := hoistMember_eq_some.1 hu'
  obtain ⟨hnone, -⟩ | ⟨g, hg, rfl⟩ := hhost
  · rw [hnone] at hwritten
    cases hwritten
  rw [hg] at hwritten
  obtain ⟨inner, hinner, rfl⟩ := Tree.write_cons_obj_eq_some.1 hwritten
  rw [Function.update_self] at hhost'
  obtain ⟨hnone, -⟩ | ⟨g', hg', rfl⟩ := hhost'
  · cases hnone
  obtain rfl := Tree.obj.inj (Option.some.inj hg')
  rw [Tree.write_cons_obj, Function.update_self, hinner]
  simp

private theorem write_hoisted_below (hdest : host ≠ name) (hkey : key ≠ name)
    (hwritten : Tree.write v.tree (key :: rest) (f host) = some part) (hu : hoistMember host name (.obj f) = some u)
    (hu' : hoistMember host name (.obj (update f host (some part))) = some u') :
    Tree.write v.tree (host :: key :: rest) (some u) = some u' := by
  obtain ⟨_, ⟨⟩, hname, hhost⟩ := hoistMember_eq_some.1 hu
  obtain ⟨_, ⟨⟩, -, hhost'⟩ := hoistMember_eq_some.1 hu'
  obtain ⟨hnone, -⟩ | ⟨g, hg, rfl⟩ := hhost
  · rw [hnone] at hwritten
    cases hwritten
  rw [hg] at hwritten
  obtain ⟨inner, hinner, rfl⟩ := Tree.write_cons_obj_eq_some.1 hwritten
  rw [Function.update_self] at hhost'
  obtain ⟨hnone, -⟩ | ⟨g', hg', rfl⟩ := hhost'
  · cases hnone
  obtain rfl := Tree.obj.inj (Option.some.inj hg')
  rw [Tree.write_cons_obj, Function.update_of_ne hdest, Function.update_self, Tree.write_cons_obj,
    Function.update_of_ne hkey, hinner]
  simp [Function.update_comm hdest, Function.update_comm hkey, Function.update_of_ne (Ne.symm hkey)]

private theorem write_hoisted_beside (hkey : host ≠ key) (hdest : key ≠ name)
    (hwritten : Tree.write v.tree rest (f key) = some part) (hu : hoistMember host name (.obj f) = some u)
    (hu' : hoistMember host name (.obj (update f key (some part))) = some u') :
    Tree.write v.tree (key :: rest) (some u) = some u' := by
  obtain ⟨_, ⟨⟩, -, hhost⟩ := hoistMember_eq_some.1 hu
  obtain ⟨_, ⟨⟩, -, hhost'⟩ := hoistMember_eq_some.1 hu'
  rw [Function.update_of_ne hkey] at hhost'
  obtain ⟨hnone, rfl⟩ | ⟨g, hg, rfl⟩ := hhost
  · obtain ⟨-, rfl⟩ | ⟨g', hg', -⟩ := hhost'
    · rw [Tree.write_cons_obj, hwritten]
      rfl
    · rw [hnone] at hg'
      cases hg'
  · obtain ⟨hnone', -⟩ | ⟨g', hg', rfl⟩ := hhost'
    · rw [hnone'] at hg
      cases hg
    · obtain rfl : g = g' := by simpa [hg] using hg'
      rw [Tree.write_cons_obj, Function.update_of_ne hdest, Function.update_of_ne (Ne.symm hkey), hwritten,
        Option.map_some, Function.update_comm (Ne.symm hdest), Function.update_comm hkey]

private theorem follows_hoist (h n : Json) : (LensOp.hoist h n).Follows := by
  intro p v path t t' u u' hp hv hpart hwrite hu hu'
  cases path with
  | nil => exact follows_root hp hv hwrite hu'
  | cons key rest =>
  cases direct_of_recast hu with
  | hoist host name =>
  simp only [recast] at hu hu'
  obtain ⟨f, rfl, -, -⟩ := hoistMember_eq_some.1 hu
  obtain ⟨part, hwritten, rfl⟩ := Tree.write_cons_obj_eq_some.1 hwrite
  have hdest : key ≠ name := by
    rintro rfl
    obtain ⟨_, ⟨⟩, hname, -⟩ := hoistMember_eq_some.1 hu'
    simp at hname
  rw [outcome_carry_hoist]
  by_cases hkey : host = key
  · subst hkey
    cases rest with
    | nil =>
      rw [if_neg (by simp)]
      obtain rfl := Option.some.inj hwritten
      exact .unmoved hp hv (write_hoisted_host hv hdest hpart hu hu')
    | cons next below =>
    by_cases hnext : next = name
    · subst hnext
      rw [if_pos ⟨rfl, rfl⟩]
      exact .moved hp hv (by simp) (write_hoisted_name hwritten hu hu')
    · rw [if_neg (by simp [hnext])]
      exact .unmoved hp hv (write_hoisted_below hdest hnext hwritten hu hu')
  · rw [if_neg (by simp [hkey])]
    exact .unmoved hp hv (write_hoisted_beside hkey hdest hwritten hu hu')

end Hoist

private theorem follows_each {lens : Lens} (ih : lens.Follows) : (LensOp.each lens).Follows := by
  intro p v path t t' u u' hp hv hpart hwrite hu hu'
  cases path with
  | nil => exact follows_root hp hv hwrite hu'
  | cons token rest =>
  simp only [recast] at hu hu'
  obtain ⟨es, mid, rfl, hes, rfl⟩ := rewriteElements_eq_some.1 hu
  obtain ⟨es', mid', rfl, hes', rfl⟩ := rewriteElements_eq_some.1 hu'
  obtain ⟨i, part, rfl, hi, hends, hwritten, hput⟩ := Tree.write_cons_arr_eq_some.1 hwrite
  obtain rfl := Tree.arr.inj hput
  have hunique {fs gs} (hfs : List.Forall₂ (fun a b => Lens.recast a lens = some b) fs gs)
      {gs'} (hfs' : List.Forall₂ (fun a b => Lens.recast a lens = some b) fs gs') : gs' = gs :=
    List.right_unique_forall₂' (fun _ _ _ h h' => Option.some.inj (h.symm.trans h')) hfs' hfs
  rw [outcome_carry_each]
  cases rest with
  | nil =>
    obtain rfl := hends.1 rfl
    obtain rfl := Option.some.inj hwritten
    rw [Tree.putElement_length] at hes'
    obtain ⟨w, hw⟩ := forall₂_exists hes' (a := v.tree) (by simp)
    obtain rfl := Lens.recast_hollow hv hw
    obtain rfl := hunique (List.rel_append hes (.cons hw .nil)) hes'
    refine .unmoved hp hv (Tree.write_cons_arr_eq_some.2 ⟨mid.length, v.tree, ?_, Nat.le_refl _,
      by simp, rfl, by rw [Tree.putElement_length]⟩)
    rw [hes.length_eq]
  | cons next below =>
    have hlt : i < es.length := by
      have : i ≠ es.length := fun h => by cases hends.2 h
      omega
    obtain ⟨old, hold⟩ : ∃ old, es[i]? = some old := ⟨es[i], List.getElem?_eq_getElem hlt⟩
    rw [hold] at hwritten
    rw [Tree.putElement_of_lt hlt] at hes'
    obtain ⟨old', hold', hfirst⟩ := forall₂_getElem? hes hold
    obtain ⟨part', hpart', hsecond⟩ :=
      forall₂_getElem? hes' (i := i) (a := part) (by simp [hlt])
    have hmember : Part old part := by
      cases hpart with
      | arr h =>
      obtain ⟨new, hnew, hmember⟩ := h.getElem? hold
      rw [Tree.putElement_of_lt hlt, List.getElem?_set_self hlt] at hnew
      rwa [Option.some.inj hnew]
    have hmid := hunique (forall₂_set hes hsecond i) hes'
    have hcut : Path.cutAtIndex? (i.repr :: next :: below) = some ([i.repr], next :: below) := by
      rw [Path.cutAtIndex?, if_pos (Pointer.isIndex_repr i)]
    rw [hcut]
    dsimp only
    rcases ih (hp.withPath (next :: below)) hv hmember hwritten hfirst hsecond with
      ⟨hdropped, rfl⟩ | ⟨q, path', v', hq, hqe, hv', hne, hq'⟩
    · obtain ⟨_, hself⟩ := List.getElem?_eq_some_iff.1 hold'
      subst hself
      exact .inl ⟨by rw [hdropped]; rfl, by rw [hmid, List.set_getElem_self]⟩
    · obtain ⟨first, others, rfl⟩ := List.exists_cons_of_ne_nil (hne (by simp))
      refine .inr ⟨q.withPath (i.repr :: first :: others), _, v', ?_, hqe.withPath _, hv',
        fun _ => by simp, ?_⟩
      · rw [hq]
        simp [hqe.path, bind, Except.bind, pure, Except.pure]
      · have hlt' : i < mid.length := hes.length_eq ▸ hlt
        refine Tree.write_cons_arr_eq_some.2 ⟨i, part', rfl, hlt'.le, ?_, by rw [hold', hq'], ?_⟩
        · simp only [reduceCtorEq, false_iff]
          omega
        · rw [hmid, Tree.putElement_of_lt hlt']

end LensOp

mutual

theorem LensOp.follows (op : LensOp) : op.Follows := by
  match op with
  | .rename s d => exact LensOp.follows_rename s d
  | .hoist h n => exact LensOp.follows_hoist h n
  | .remove property => exact LensOp.follows_remove property
  | .convert n mapping s d => exact LensOp.follows_convert n mapping s d
  | .inside n lens => exact LensOp.follows_inside n (Lens.follows lens)
  | .each lens => exact LensOp.follows_each (Lens.follows lens)
  | .plunge _ _ => intro p v path t t' u u' hp hv hpart hwrite hu; cases hu
  | .wrap _ => intro p v path t t' u u' hp hv hpart hwrite hu; cases hu
  | .head _ => intro p v path t t' u u' hp hv hpart hwrite hu; cases hu
  | .add _ => intro p v path t t' u u' hp hv hpart hwrite hu; cases hu

/-- When a document grows by an addition, what a lens makes of it grows by the carried one. -/
theorem Lens.follows (lens : Lens) : lens.Follows := by
  intro p v path t t' u u' hp hv hpart hwrite hu hu'
  match lens with
  | [] =>
    obtain rfl := Option.some.inj hu
    obtain rfl := Option.some.inj hu'
    exact .unmoved hp hv hwrite
  | op :: rest =>
    obtain ⟨mid, hop, hrest⟩ := Lens.recast_cons_eq_some.1 hu
    obtain ⟨mid', hop', hrest'⟩ := Lens.recast_cons_eq_some.1 hu'
    rw [Lens.outcome_carry_cons hp.path]
    rcases LensOp.follows op hp hv hpart hwrite hop hop' with
      ⟨hdropped, rfl⟩ | ⟨q, path', v', hq, hqe, hv', hne, hwrite'⟩
    · rw [hdropped]
      exact .inl ⟨rfl, by simpa [hrest] using hrest'.symm⟩
    · obtain ⟨_, hmid, hpart'⟩ := LensOp.monotone op hpart hop'
      obtain rfl := Option.some.inj (hop.symm.trans hmid)
      rw [hq]
      rcases Lens.follows rest hqe hv' hpart' hwrite' hrest hrest' with
        hdropped | ⟨r, path'', v'', hr, hre, hv'', hne', hwrite''⟩
      · exact .inl hdropped
      · exact .inr ⟨r, path'', v'', hr, hre, hv'', fun h => hne' (hne h), hwrite''⟩

end

end EditLens
