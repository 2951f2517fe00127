import EditLens.Proofs.Json.Document
import EditLens.Proofs.Json.Elements
import EditLens.Proofs.Lens.Rewrite

/-! Lenses on documents that are still growing: a step leaves alone what is not there yet. Main
statements: what is made of a part of a document is part of what is made of the document, and of a
document that fits the lens it is the rewritten document. -/
namespace EditLens

open Function (update)

namespace Tree

def renameMember (source destination : String) : Tree → Option Tree
  | .obj f =>
    if (f destination).isSome then none
    else some (.obj (update (update f source none) destination (f source)))
  | _ => none

def hoistMember (host name : String) : Tree → Option Tree
  | .obj f =>
    match f host, f name with
    | none, none => some (.obj f)
    | some (.obj g), none =>
      some (.obj (update (update f host (some (.obj (update g name none)))) name (g name)))
    | _, _ => none
  | _ => none

def removeMember (name : String) : Tree → Option Tree
  | .obj f => some (.obj (update f name none))
  | _ => none

def recodeMember (name : String) (mapping : Mapping) : Tree → Option Tree
  | .obj f =>
    match f name with
    | none => some (.obj f)
    | some (.scalar s) =>
      match mapping.recode? (.scalar s) with
      | some (.scalar t) => some (.obj (update f name (some (.scalar t))))
      | _ => none
    | _ => none
  | _ => none

def rewriteMember (name : String) (F : Tree → Option Tree) : Tree → Option Tree
  | .obj f =>
    match f name with
    | none => some (.obj f)
    | some part => (F part).map fun part' => .obj (update f name (some part'))
  | _ => none

def rewriteElements (F : Tree → Option Tree) : Tree → Option Tree
  | .arr es => (es.mapM F).map .arr
  | _ => none

end Tree

mutual

/-- One step of a lens on a document that is still growing. -/
def LensOp.recast (t : Tree) : LensOp → Option Tree
  | .rename (.str source) (.str destination) => t.renameMember source destination
  | .hoist (.str host) (.str name) => t.hoistMember host name
  | .remove ⟨.str name, _, _, _, _⟩ => t.removeMember name
  | .convert (.str name) mapping _ _ => t.recodeMember name mapping
  | .inside (.str name) lens => t.rewriteMember name fun part => Lens.recast part lens
  | .each lens => t.rewriteElements fun e => Lens.recast e lens
  | _ => none

def Lens.recast (t : Tree) : Lens → Option Tree
  | [] => some t
  | op :: rest => do Lens.recast (← op.recast t) rest

end

namespace Tree

variable {t u : Tree} {F : Tree → Option Tree}

theorem renameMember_eq_some {source destination : String} :
    t.renameMember source destination = some u ↔ ∃ f, t = .obj f ∧ f destination = none ∧
      u = .obj (update (update f source none) destination (f source)) := by
  cases t with
  | obj f => cases hd : f destination <;> simp [renameMember, hd, eq_comm]
  | _ => simp [renameMember]

theorem hoistMember_eq_some {host name : String} :
    t.hoistMember host name = some u ↔ ∃ f, t = .obj f ∧ f name = none ∧
      ((f host = none ∧ u = .obj f) ∨ ∃ g, f host = some (.obj g) ∧
        u = .obj (update (update f host (some (.obj (update g name none)))) name (g name))) := by
  cases t with
  | obj f =>
    cases hname : f name with
    | none =>
      cases hhost : f host with
      | none => simp [hoistMember, hname, hhost, eq_comm]
      | some part => cases part <;> simp [hoistMember, hname, hhost, eq_comm]
    | some part => simp [hoistMember, hname]
  | _ => simp [hoistMember]

theorem removeMember_eq_some {name : String} :
    t.removeMember name = some u ↔ ∃ f, t = .obj f ∧ u = .obj (update f name none) := by
  cases t <;> simp [removeMember, eq_comm]

theorem recodeMember_eq_some {name : String} {mapping : Mapping} :
    t.recodeMember name mapping = some u ↔ ∃ f, t = .obj f ∧
      ((f name = none ∧ u = .obj f) ∨ ∃ s s', f name = some (.scalar s) ∧
        mapping.recode? (.scalar s) = some (.scalar s') ∧
        u = .obj (update f name (some (.scalar s')))) := by
  constructor
  · intro h
    unfold recodeMember at h
    split at h
    · rename_i f
      refine ⟨f, rfl, ?_⟩
      split at h
      · rename_i hname
        exact .inl ⟨hname, (Option.some.inj h).symm⟩
      · rename_i s hname
        split at h
        · rename_i s' hs'
          exact .inr ⟨s, s', hname, hs', (Option.some.inj h).symm⟩
        · cases h
      · cases h
    · cases h
  · rintro ⟨f, rfl, ⟨hname, rfl⟩ | ⟨s, s', hname, hs', rfl⟩⟩
    · simp [recodeMember, hname]
    · simp [recodeMember, hname, hs']

theorem rewriteMember_eq_some {name : String} :
    t.rewriteMember name F = some u ↔ ∃ f, t = .obj f ∧
      ((f name = none ∧ u = .obj f) ∨ ∃ part part', f name = some part ∧ F part = some part' ∧
        u = .obj (update f name (some part'))) := by
  cases t with
  | obj f =>
    cases hname : f name with
    | none => simp [rewriteMember, hname, eq_comm]
    | some part => simp [rewriteMember, hname, eq_comm]
  | _ => simp [rewriteMember]

theorem rewriteElements_eq_some :
    t.rewriteElements F = some u ↔ ∃ es es', t = .arr es ∧
      List.Forall₂ (fun a b => F a = some b) es es' ∧ u = .arr es' := by
  have hmapM : ∀ es es' : List Tree,
      es.mapM F = some es' ↔ List.Forall₂ (fun a b => F a = some b) es es' := by
    intro es
    induction es with
    | nil => simp [eq_comm]
    | cons a es ih =>
      intro es'
      rw [List.forall₂_cons_left_iff]
      simp only [List.mapM_cons, Option.bind_eq_bind, Option.bind_eq_some_iff, ih, Option.pure_def,
        Option.some.injEq]
      constructor
      · rintro ⟨b, hb, bs, hbs, rfl⟩
        exact ⟨b, bs, hb, hbs, rfl⟩
      · rintro ⟨b, bs, hb, hbs, rfl⟩
        exact ⟨b, hb, bs, hbs, rfl⟩
  cases t <;> simp [rewriteElements, hmapM, eq_comm]

theorem PartMember.eq_none {o : Option Tree} (h : PartMember o none) : o = none := by
  cases h
  rfl

private theorem PartMember.set {f g : String → Option Tree} {o o' : Option Tree} {name : String}
    (h : ∀ other, PartMember (f other) (g other)) (ho : PartMember o o') (other : String) :
    PartMember (update f name o other) (update g name o' other) := by
  by_cases hother : other = name
  · subst hother
    simpa using ho
  · simpa [hother] using h other

/-- A member that is not there can be anything in the whole. -/
private theorem PartMember.set_right {f g : String → Option Tree} {o' : Option Tree} {name : String}
    (h : ∀ other, PartMember (f other) (g other)) (hname : f name = none) (other : String) :
    PartMember (f other) (update g name o' other) := by
  rw [← Function.update_eq_self name f, hname]
  exact PartMember.set h (.absent o') other

end Tree

open EditLens.Tree

def LensOp.Monotone (op : LensOp) : Prop :=
  ∀ ⦃t t' u' : Tree⦄, Part t t' → op.recast t' = some u' → ∃ u, op.recast t = some u ∧ Part u u'

def Lens.Monotone (lens : Lens) : Prop :=
  ∀ ⦃t t' u' : Tree⦄, Part t t' → lens.recast t' = some u' → ∃ u, lens.recast t = some u ∧ Part u u'

namespace LensOp

theorem direct_of_recast {op : LensOp} {t u : Tree} (h : op.recast t = some u) : op.Direct := by
  unfold recast at h
  split at h
  · exact .rename _ _
  · exact .hoist _ _
  · exact .remove _ _ _ _ _
  · exact .convert _ _ _ _
  · exact .inside _ _
  · exact .each _
  · cases h

private theorem monotone_rename (s d : Json) : (LensOp.rename s d).Monotone := by
  intro t t' u' hpart h
  cases direct_of_recast h with
  | rename source destination =>
  obtain ⟨g, rfl, hd, rfl⟩ := renameMember_eq_some.1 h
  cases hpart with
  | @obj f _ hfg =>
  have hd' : f destination = none := (hd ▸ hfg destination).eq_none
  exact ⟨_, renameMember_eq_some.2 ⟨f, rfl, hd', rfl⟩,
    .obj (PartMember.set (PartMember.set hfg (.absent none)) (hfg source))⟩

private theorem monotone_hoist (h n : Json) : (LensOp.hoist h n).Monotone := by
  intro t t' u' hpart h
  cases direct_of_recast h with
  | hoist host name =>
  obtain ⟨g, rfl, hn, hg⟩ := hoistMember_eq_some.1 h
  cases hpart with
  | @obj f _ hfg =>
  have hn' : f name = none := (hn ▸ hfg name).eq_none
  cases hhost : f host with
  | none =>
    refine ⟨_, hoistMember_eq_some.2 ⟨f, rfl, hn', .inl ⟨hhost, rfl⟩⟩, ?_⟩
    rcases hg with ⟨-, rfl⟩ | ⟨g₂, -, rfl⟩
    · exact .obj hfg
    · exact .obj (PartMember.set_right (PartMember.set_right hfg hhost) hn')
  | some part =>
    have hmember := hfg host
    rw [hhost] at hmember
    rcases hg with ⟨hghost, -⟩ | ⟨g₂, hghost, rfl⟩
    · rw [hghost] at hmember
      cases hmember
    · rw [hghost] at hmember
      cases hmember with
      | present hinner =>
      cases hinner with
      | @obj f₂ _ hfg₂ =>
      refine ⟨_, hoistMember_eq_some.2 ⟨f, rfl, hn', .inr ⟨f₂, hhost, rfl⟩⟩, .obj ?_⟩
      refine PartMember.set (PartMember.set hfg (.present (.obj ?_))) (hfg₂ name)
      exact PartMember.set hfg₂ (.absent none)

private theorem monotone_remove (property : Property) : (LensOp.remove property).Monotone := by
  intro t t' u' hpart h
  cases direct_of_recast h with
  | remove name type default required items =>
  obtain ⟨g, rfl, rfl⟩ := removeMember_eq_some.1 h
  cases hpart with
  | @obj f _ hfg =>
  exact ⟨_, removeMember_eq_some.2 ⟨f, rfl, rfl⟩, .obj (PartMember.set hfg (.absent none))⟩

private theorem monotone_convert (n : Json) (mapping : Mapping) (s d : Json) :
    (LensOp.convert n mapping s d).Monotone := by
  intro t t' u' hpart h
  cases direct_of_recast h with
  | convert name =>
  obtain ⟨g, rfl, hg⟩ := recodeMember_eq_some.1 h
  cases hpart with
  | @obj f _ hfg =>
  cases hname : f name with
  | none =>
    refine ⟨_, recodeMember_eq_some.2 ⟨f, rfl, .inl ⟨hname, rfl⟩⟩, ?_⟩
    rcases hg with ⟨-, rfl⟩ | ⟨s, s', -, -, rfl⟩
    · exact .obj hfg
    · exact .obj (PartMember.set_right hfg hname)
  | some part =>
    have hmember := hfg name
    rw [hname] at hmember
    rcases hg with ⟨hgname, -⟩ | ⟨s, s', hgname, hs', rfl⟩
    · rw [hgname] at hmember
      cases hmember
    · rw [hgname] at hmember
      cases hmember with
      | present hscalar =>
      cases hscalar
      exact ⟨_, recodeMember_eq_some.2 ⟨f, rfl, .inr ⟨s, s', hname, hs', rfl⟩⟩,
        .obj (PartMember.set hfg (.present (.scalar s')))⟩

private theorem monotone_inside (n : Json) {lens : Lens} (ih : lens.Monotone) :
    (LensOp.inside n lens).Monotone := by
  intro t t' u' hpart h
  cases direct_of_recast h with
  | inside name =>
  obtain ⟨g, rfl, hg⟩ := rewriteMember_eq_some.1 h
  cases hpart with
  | @obj f _ hfg =>
  cases hname : f name with
  | none =>
    refine ⟨_, rewriteMember_eq_some.2 ⟨f, rfl, .inl ⟨hname, rfl⟩⟩, ?_⟩
    rcases hg with ⟨-, rfl⟩ | ⟨part, part', -, -, rfl⟩
    · exact .obj hfg
    · exact .obj (PartMember.set_right hfg hname)
  | some part =>
    have hmember := hfg name
    rw [hname] at hmember
    rcases hg with ⟨hgname, -⟩ | ⟨whole, whole', hgname, hwhole, rfl⟩
    · rw [hgname] at hmember
      cases hmember
    · rw [hgname] at hmember
      cases hmember with
      | present hinner =>
      obtain ⟨part', hpart', hinner'⟩ := ih hinner hwhole
      exact ⟨_, rewriteMember_eq_some.2 ⟨f, rfl, .inr ⟨part, part', hname, hpart', rfl⟩⟩,
        .obj (PartMember.set hfg (.present hinner'))⟩

private theorem monotone_each {lens : Lens} (ih : lens.Monotone) : (LensOp.each lens).Monotone := by
  intro t t' u' hpart h
  obtain ⟨fs, fs', rfl, hfs, rfl⟩ := rewriteElements_eq_some.1 h
  cases hpart with
  | @arr es _ hefs =>
  suffices hes : ∃ es', List.Forall₂ (fun a b => Lens.recast a lens = some b) es es' ∧
      PartElements es' fs' by
    obtain ⟨es', hes', hpart'⟩ := hes
    exact ⟨_, rewriteElements_eq_some.2 ⟨es, es', rfl, hes', rfl⟩, .arr hpart'⟩
  clear h
  induction hfs generalizing es with
  | nil =>
    cases hefs
    exact ⟨[], .nil, .nil []⟩
  | @cons b b' fs fs' hb hfs ihfs =>
    cases hefs with
    | nil => exact ⟨[], .nil, .nil (b' :: fs')⟩
    | cons hab hrest =>
      obtain ⟨a', ha', hpart'⟩ := ih hab hb
      obtain ⟨es', hes', hrest'⟩ := ihfs hrest
      exact ⟨a' :: es', .cons ha' hes', .cons hpart' hrest'⟩

end LensOp

theorem Lens.recast_cons_eq_some {op : LensOp} {rest : Lens} {t u : Tree} :
    Lens.recast t (op :: rest) = some u ↔
      ∃ mid, op.recast t = some mid ∧ Lens.recast mid rest = some u := by
  rw [Lens.recast, Option.bind_eq_bind, Option.bind_eq_some_iff]

mutual

theorem LensOp.monotone (op : LensOp) : op.Monotone := by
  match op with
  | .rename s d => exact LensOp.monotone_rename s d
  | .hoist h n => exact LensOp.monotone_hoist h n
  | .remove property => exact LensOp.monotone_remove property
  | .convert n mapping s d => exact LensOp.monotone_convert n mapping s d
  | .inside n lens => exact LensOp.monotone_inside n (Lens.monotone lens)
  | .each lens => exact LensOp.monotone_each (Lens.monotone lens)
  | .plunge _ _ => intro t t' u' hpart h; cases h
  | .wrap _ => intro t t' u' hpart h; cases h
  | .head _ => intro t t' u' hpart h; cases h
  | .add _ => intro t t' u' hpart h; cases h

/-- What a lens makes of a part of a document is part of what it makes of the document. -/
theorem Lens.monotone (lens : Lens) : lens.Monotone := by
  intro t t' u' hpart h
  match lens with
  | [] =>
    obtain rfl := Option.some.inj h
    exact ⟨t, rfl, hpart⟩
  | op :: rest =>
    obtain ⟨mid', hop', hrest'⟩ := Lens.recast_cons_eq_some.1 h
    obtain ⟨mid, hop, hmid⟩ := LensOp.monotone op hpart hop'
    obtain ⟨u, hu, hpart'⟩ := Lens.monotone rest hmid hrest'
    exact ⟨u, Lens.recast_cons_eq_some.2 ⟨mid, hop, hu⟩, hpart'⟩

end

namespace LensOp

/-- A scalar or an empty container has no places for a step. -/
theorem recast_hollow {op : LensOp} {v : Json} {u : Tree} (hv : v.isHollow = true)
    (h : op.recast v.tree = some u) : u = v.tree := by
  cases v with
  | scalar s =>
    cases direct_of_recast h <;> cases h
  | arr es =>
    obtain rfl := List.isEmpty_iff.1 hv
    cases direct_of_recast h with
    | each lens =>
      rw [recast] at h
      obtain ⟨es, es', hes, hes', rfl⟩ := rewriteElements_eq_some.1 h
      rw [Json.tree_arr] at hes
      obtain rfl := Tree.arr.inj hes
      cases hes'
      rfl
    | _ => cases h
  | obj ms =>
    obtain rfl := List.isEmpty_iff.1 hv
    rw [Json.tree_obj, Members.trees_nil] at h ⊢
    cases direct_of_recast h with
    | rename source destination =>
      rw [recast] at h
      obtain ⟨f, hf, -, rfl⟩ := renameMember_eq_some.1 h
      obtain rfl := Tree.obj.inj hf
      simp
    | hoist host name =>
      rw [recast] at h
      obtain ⟨f, hf, -, ⟨-, rfl⟩ | ⟨g, hg, -⟩⟩ := hoistMember_eq_some.1 h
      · rw [hf]
      · obtain rfl := Tree.obj.inj hf
        cases hg
    | remove name type default required items =>
      rw [recast] at h
      obtain ⟨f, hf, rfl⟩ := removeMember_eq_some.1 h
      obtain rfl := Tree.obj.inj hf
      simp
    | convert name mapping s d =>
      rw [recast] at h
      obtain ⟨f, hf, ⟨-, rfl⟩ | ⟨s, s', hs, -⟩⟩ := recodeMember_eq_some.1 h
      · rw [hf]
      · obtain rfl := Tree.obj.inj hf
        cases hs
    | inside name lens =>
      rw [recast] at h
      obtain ⟨f, hf, ⟨-, rfl⟩ | ⟨part, part', hpart, -⟩⟩ := rewriteMember_eq_some.1 h
      · rw [hf]
      · obtain rfl := Tree.obj.inj hf
        cases hpart
    | each lens =>
      rw [recast] at h
      obtain ⟨es, es', hes, -⟩ := rewriteElements_eq_some.1 h
      cases hes

end LensOp

theorem Lens.recast_hollow {lens : Lens} {v : Json} {u : Tree} (hv : v.isHollow = true)
    (h : lens.recast v.tree = some u) : u = v.tree := by
  induction lens generalizing u with
  | nil => exact (Option.some.inj h).symm
  | cons op rest ih =>
    obtain ⟨mid, hop, hrest⟩ := Lens.recast_cons_eq_some.1 h
    obtain rfl := LensOp.recast_hollow hv hop
    exact ih hrest

theorem Members.trees_renamed {ms : Members} {source destination : String}
    (hne : source ≠ destination) (hnew : ms.get? destination = none) :
    (ms.renamed source destination).trees =
      update (update ms.trees source none) destination (ms.trees source) := by
  funext k
  by_cases hk : k = destination
  · subst hk
    rw [trees, get?_renamed_destination hnew, Function.update_self, trees]
  · rw [Function.update_of_ne hk]
    by_cases hks : k = source
    · subst hks
      rw [trees, get?_renamed_source (by simpa using Ne.symm hk), Function.update_self]
      rfl
    · rw [trees, get?_renamed_of_ne (by simpa using hks) (by simpa using Ne.symm hk),
        Function.update_of_ne hks, trees]

/-- What a step makes of a document that has the shape it is about is the rewritten document. -/
def LensOp.Fits (op : LensOp) : Prop :=
  ∀ ⦃doc out : Json⦄, op.rewrite doc = .ok out → op.recast doc.tree = some out.tree

def Lens.Fits (lens : Lens) : Prop :=
  ∀ ⦃doc out : Json⦄, lens.rewrite doc = .ok out → lens.recast doc.tree = some out.tree

namespace LensOp

private theorem fits_rename (s d : Json) : (LensOp.rename s d).Fits := by
  intro doc out h
  cases direct_of_rewrite h with
  | rename source destination =>
  obtain ⟨ms, rfl, hs, hd, rfl⟩ := Json.renameMember_eq_ok.1 h
  have hne : source ≠ destination := by
    rintro rfl
    rw [Members.has_eq_false.2 hd] at hs
    cases hs
  rw [Json.tree_obj, Json.tree_obj, Members.trees_renamed hne hd]
  exact renameMember_eq_some.2 ⟨ms.trees, rfl, by rw [Members.trees, hd]; rfl, rfl⟩

private theorem fits_hoist (h n : Json) : (LensOp.hoist h n).Fits := by
  intro doc out h
  cases direct_of_rewrite h with
  | hoist host name =>
  obtain ⟨ms, inner, part, rfl, hhost, hfree, hpart, rfl⟩ := Json.hoistMember_eq_ok.1 h
  rw [Json.tree_obj, Json.tree_obj, Members.trees_cons, Members.trees_put, Json.tree_obj,
    Members.trees_without]
  have hhost' : ms.trees host = some (.obj inner.trees) := by
    rw [Members.trees, hhost, Option.map_some, Json.tree_obj]
  have hpart' : inner.trees name = some part.tree := by rw [Members.trees, hpart]; rfl
  exact hoistMember_eq_some.2 ⟨ms.trees, rfl, by rw [Members.trees, hfree]; rfl,
    .inr ⟨inner.trees, hhost', by rw [hpart']⟩⟩

private theorem fits_remove (property : Property) : (LensOp.remove property).Fits := by
  intro doc out h
  cases direct_of_rewrite h with
  | remove name type default required items =>
  obtain ⟨ms, rfl, rfl⟩ := Json.removeMember_eq_ok.1 h
  rw [Json.tree_obj, Json.tree_obj, Members.trees_without]
  exact removeMember_eq_some.2 ⟨ms.trees, rfl, rfl⟩

private theorem fits_convert (n : Json) (mapping : Mapping) (s d : Json) :
    (LensOp.convert n mapping s d).Fits := by
  intro doc out h
  cases direct_of_rewrite h with
  | convert name =>
  obtain ⟨ms, a, b, rfl, ha, hb, rfl⟩ := Json.recodeMember_eq_ok.1 h
  rw [Json.tree_obj, Json.tree_obj, Members.trees_put]
  exact recodeMember_eq_some.2 ⟨ms.trees, rfl, .inr ⟨a, b, by rw [Members.trees, ha]; rfl, hb, rfl⟩⟩

private theorem fits_inside (n : Json) {lens : Lens} (ih : lens.Fits) :
    (LensOp.inside n lens).Fits := by
  intro doc out h
  cases direct_of_rewrite h with
  | inside name =>
  obtain ⟨ms, part, part', rfl, hpart, hpart', rfl⟩ := Json.rewriteMember_eq_ok.1 h
  rw [Json.tree_obj, Json.tree_obj, Members.trees_put]
  exact rewriteMember_eq_some.2 ⟨ms.trees, rfl,
    .inr ⟨part.tree, part'.tree, by rw [Members.trees, hpart]; rfl, ih hpart', rfl⟩⟩

private theorem fits_each {lens : Lens} (ih : lens.Fits) : (LensOp.each lens).Fits := by
  intro doc out h
  obtain ⟨es, es', rfl, hes, rfl⟩ := Json.rewriteElements_eq_ok.1 h
  rw [Json.tree_arr, Json.tree_arr]
  refine rewriteElements_eq_some.2 ⟨_, _, rfl, ?_, rfl⟩
  rw [List.forall₂_map_left_iff, List.forall₂_map_right_iff]
  exact hes.imp fun a b hab => ih hab

end LensOp

mutual

theorem LensOp.fits (op : LensOp) : op.Fits := by
  match op with
  | .rename s d => exact LensOp.fits_rename s d
  | .hoist h n => exact LensOp.fits_hoist h n
  | .remove property => exact LensOp.fits_remove property
  | .convert n mapping s d => exact LensOp.fits_convert n mapping s d
  | .inside n lens => exact LensOp.fits_inside n (Lens.fits lens)
  | .each lens => exact LensOp.fits_each (Lens.fits lens)
  | .plunge _ _ => intro doc out h; cases h
  | .wrap _ => intro doc out h; cases h
  | .head _ => intro doc out h; cases h
  | .add _ => intro doc out h; cases h

theorem Lens.fits (lens : Lens) : lens.Fits := by
  intro doc out h
  match lens with
  | [] =>
    obtain rfl := Except.ok.inj h
    rfl
  | op :: rest =>
    obtain ⟨mid, hop, hrest⟩ := Lens.rewrite_cons_eq_ok.1 h
    exact Lens.recast_cons_eq_some.2 ⟨mid.tree, LensOp.fits op hop, Lens.fits rest hrest⟩

end

mutual

theorem LensOp.isDocument_rewrite {op : LensOp} {doc out : Json} (hdoc : doc.isDocument = true)
    (h : op.rewrite doc = .ok out) : out.isDocument = true := by
  match op with
  | .rename s d =>
    cases LensOp.direct_of_rewrite h with
    | rename source destination =>
    obtain ⟨ms, rfl, -, hd, rfl⟩ := Json.renameMember_eq_ok.1 h
    rw [Json.isDocument_obj] at hdoc ⊢
    exact hdoc.renamed hd
  | .hoist h' n =>
    cases LensOp.direct_of_rewrite h with
    | hoist host name =>
    obtain ⟨ms, inner, part, rfl, hhost, hfree, hpart, rfl⟩ := Json.hoistMember_eq_ok.1 h
    rw [Json.isDocument_obj] at hdoc ⊢
    have hinner : Members.AreDocument inner := Json.isDocument_obj.1 (hdoc.part hhost)
    refine (hdoc.put host (Json.isDocument_obj.2 (hinner.without name))).cons ?_ (hinner.part hpart)
    have hne : host ≠ name := by
      rintro rfl
      rw [hhost] at hfree
      cases hfree
    rw [Members.get?_put, if_neg (by simpa using hne), hfree]
  | .remove property =>
    cases LensOp.direct_of_rewrite h with
    | remove name type default required items =>
    obtain ⟨ms, rfl, rfl⟩ := Json.removeMember_eq_ok.1 h
    rw [Json.isDocument_obj] at hdoc ⊢
    exact hdoc.without name
  | .convert n mapping s d =>
    cases LensOp.direct_of_rewrite h with
    | convert name =>
    obtain ⟨ms, a, b, rfl, -, -, rfl⟩ := Json.recodeMember_eq_ok.1 h
    rw [Json.isDocument_obj] at hdoc ⊢
    exact hdoc.put name rfl
  | .inside n lens =>
    cases LensOp.direct_of_rewrite h with
    | inside name =>
    obtain ⟨ms, part, part', rfl, hpart, hpart', rfl⟩ := Json.rewriteMember_eq_ok.1 h
    rw [Json.isDocument_obj] at hdoc ⊢
    exact hdoc.put name (Lens.isDocument_rewrite (hdoc.part hpart) hpart')
  | .each lens =>
    obtain ⟨es, es', rfl, hes, rfl⟩ := Json.rewriteElements_eq_ok.1 h
    rw [Json.isDocument_arr] at hdoc ⊢
    intro b hb
    obtain ⟨a, ha, hab⟩ := forall₂_exists_left hes hb
    exact Lens.isDocument_rewrite (hdoc a ha) hab
  | .plunge _ _ => cases h
  | .wrap _ => cases h
  | .head _ => cases h
  | .add _ => cases h

/-- Rewriting a document makes a document. -/
theorem Lens.isDocument_rewrite {lens : Lens} {doc out : Json} (hdoc : doc.isDocument = true)
    (h : lens.rewrite doc = .ok out) : out.isDocument = true := by
  match lens with
  | [] =>
    obtain rfl := Except.ok.inj h
    exact hdoc
  | op :: rest =>
    obtain ⟨mid, hop, hrest⟩ := Lens.rewrite_cons_eq_ok.1 h
    exact Lens.isDocument_rewrite (LensOp.isDocument_rewrite hdoc hop) hrest

end

end EditLens
