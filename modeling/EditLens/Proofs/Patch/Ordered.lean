import EditLens.Proofs.Json.Layout

/-! Documents that are made place by place in any order. Main statement: where nothing is made before what
it needs is there, additions at all places of a document let it grow from nothing. -/
namespace EditLens

open Function (update)

namespace Tree

variable {t u : Tree} {v : Json} {path : Path} {o : Option Tree}

theorem isSome_at?_hollow (t : Tree) (path : Path) : (t.hollow.at? path).isSome = true ↔ path = [] := by
  cases path with
  | nil => simp [at?]
  | cons token rest => cases t <;> simp [hollow, at?]

private theorem hollow_tree (hv : v.isHollow = true) : v.tree.hollow = v.tree := by
  cases v with
  | scalar s => rfl
  | arr es => simp [List.isEmpty_iff.1 hv, hollow]
  | obj ms => simp [List.isEmpty_iff.1 hv, hollow]

/-- What is first made at the places of a written document: the value that was written, and what was there already,
but for what was below it. -/
theorem hollow_at?_write (hv : v.isHollow = true) (h : write v.tree path o = some t) (other : Path) :
    (t.at? other).map hollow =
      if other = path then some v.tree
      else if path <+: other then none
      else (o.bind (at? other)).map hollow := by
  induction path generalizing o t other with
  | nil =>
    obtain rfl := Option.some.inj h
    cases other with
    | nil => simp [at?, hollow_tree hv]
    | cons token rest =>
      have hnone : v.tree.at? (token :: rest) = none := by
        rw [← hollow_tree hv, ← Option.not_isSome_iff_eq_none, isSome_at?_hollow]
        simp
      simp [hnone]
  | cons token rest ih =>
    cases o with
    | none => cases h
    | some doc =>
    cases doc with
    | scalar s => cases h
    | obj f =>
      obtain ⟨part, hpart, rfl⟩ := write_cons_obj_eq_some.1 h
      cases other with
      | nil => simp [at?, hollow]
      | cons first below =>
      by_cases hfirst : first = token
      · subst hfirst
        simpa [at?] using ih hpart below
      · simp [at?, hfirst, Ne.symm hfirst]
    | arr es =>
      obtain ⟨i, part, rfl, hi, -, hpart, rfl⟩ := write_cons_arr_eq_some.1 h
      cases other with
      | nil => simp [at?, hollow]
      | cons first below =>
      cases hposition : Pointer.position? first with
      | none =>
        have hne : first ≠ i.repr := by
          rintro rfl
          rw [Pointer.position?_eq_some_iff.2 rfl] at hposition
          cases hposition
        simp [at?, hposition, hne]
      | some j =>
        obtain rfl := Pointer.eq_repr_of_position? hposition
        by_cases hji : j = i
        · subst hji
          simpa [at?, hposition, getElem?_putElement hi] using ih hpart below
        · have hne : j.repr ≠ i.repr := fun h => hji (Pointer.repr_injective h)
          simp [at?, hposition, getElem?_putElement_of_ne hi hji, hne, Ne.symm hne]

/-- The places of a written document are the one that was written and those that were there, but for what
was below it. -/
theorem isSome_at?_write (hv : v.isHollow = true) (h : write v.tree path o = some t) (other : Path) :
    (t.at? other).isSome = true ↔
      other = path ∨ (o.bind (at? other)).isSome = true ∧ ¬ path <+: other := by
  rw [← Option.isSome_map (f := hollow), hollow_at?_write hv h]
  split_ifs with hsame hbelow
  · simp [hsame]
  · simp [hsame, hbelow]
  · rw [Option.isSome_map]
    simp [hsame, hbelow]

theorem Part.hollow (t : Tree) : Part t.hollow t := by
  cases t with
  | scalar s => exact .scalar s
  | arr es => exact .arr (.nil es)
  | obj f => exact .obj fun name => .absent (f name)

private theorem PartElements.append {es gs : List Tree} {w : Tree} (h : PartElements es gs)
    (hnext : gs[es.length]? = some w) (hpart : Part u w) : PartElements (es ++ [u]) gs := by
  induction es generalizing gs with
  | nil =>
    cases gs with
    | nil => cases hnext
    | cons g gs =>
      obtain rfl := Option.some.inj hnext
      exact .cons hpart (.nil gs)
  | cons e rest ih =>
    cases h with
    | cons hfirst hrest => exact .cons hfirst (ih hrest hnext)

private theorem PartElements.set {es gs : List Tree} {w : Tree} {i : Nat} (h : PartElements es gs)
    (hat : gs[i]? = some w) (hpart : Part u w) : PartElements (es.set i u) gs := by
  induction es generalizing gs i with
  | nil => exact .nil gs
  | cons e rest ih =>
    cases h with
    | cons hfirst hrest =>
    cases i with
    | zero =>
      obtain rfl := Option.some.inj hat
      exact .cons hpart hrest
    | succ i => exact .cons hfirst (ih hrest hat)

/-- A part of an object may have one more of its members, or more of one. -/
private theorem Part.change {f g : String → Option Tree} {token : String} {new whole : Tree}
    (h : ∀ name, PartMember (f name) (g name)) (hwhole : g token = some whole)
    (hold : PartMember (f token) (some new)) (hnew : Part new whole) :
    Part (.obj f) (.obj (Function.update f token (some new))) ∧
      Part (.obj (Function.update f token (some new))) (.obj g) := by
  constructor
  · nth_rewrite 1 [← Function.update_eq_self token f]
    exact .update hold
  · refine .obj fun other => ?_
    by_cases hother : other = token
    · subst hother
      rw [Function.update_self, hwhole]
      exact .present hnew
    · rw [Function.update_of_ne hother]
      exact h other

/-- The elements of an array may be more of what they are to become. -/
private theorem PartElements.change {es gs : List Tree} {i : Nat} {old new whole : Tree} (h : PartElements es gs)
    (hold : es[i]? = some old) (hwhole : gs[i]? = some whole) (hleft : Part old new) (hright : Part new whole) :
    PartElements es (es.set i new) ∧ PartElements (es.set i new) gs := by
  refine ⟨?_, h.set hwhole hright⟩
  have hput : PartElements (Tree.putElement es i old) (Tree.putElement es i new) := .putElement hleft
  obtain ⟨hlt, rfl⟩ := List.getElem?_eq_some_iff.1 hold
  rwa [putElement_of_lt hlt, putElement_of_lt hlt, List.set_getElem_self] at hput

/-- Whether of the whole all is there that a place needs before it can be made. -/
def HasNeeds (u whole : Tree) (path : Path) : Prop :=
  ∀ other, whole.Needs path other → other ≠ path → (whole.at? other).isSome = true → (u.at? other).isSome = true

namespace HasNeeds

variable {whole old part : Tree} {token next : String}

/-- What a place stands in is there. -/
private theorem host (h : u.HasNeeds whole (token :: next :: path)) (hroot : whole.at? [token] = some part) :
    (u.at? [token]).isSome = true :=
  h [token] (.above (by simp)) (by simp) (by simp [hroot])

private theorem below (h : u.HasNeeds whole (token :: path)) (hthere : u.at? [token] = some old)
    (hroot : whole.at? [token] = some part) : old.HasNeeds part path := by
  intro other hother hne hsome
  have hsome' := h (token :: other) (hother.cons hroot) (by simpa using hne) (by rwa [at?_cons hroot])
  rwa [at?_cons hthere] at hsome'

/-- The elements before a new one are there, so it comes behind the last one. -/
private theorem length_eq {es gs : List Tree} {i : Nat} (h : (Tree.arr es).HasNeeds (.arr gs) [i.repr])
    (hold : es[i]? = none) (hpart : gs[i]? = some part) : es.length = i := by
  refine Nat.le_antisymm (List.getElem?_eq_none_iff.1 hold) (Nat.le_of_not_lt fun hlt => ?_)
  have hlast : gs[es.length]?.isSome = true := by
    have hwhole := (List.getElem?_eq_some_iff.1 hpart).1
    simpa using Nat.lt_trans hlt hwhole
  have hself : (Tree.arr gs).at? [] = some (.arr gs) := rfl
  have hearlier := h [es.length.repr] (.earlier hself rfl rfl hlt)
    (fun heq => Nat.ne_of_lt hlt (Pointer.repr_injective (List.cons.inj heq).1)) (by simpa [at?] using hlast)
  simp [at?] at hearlier

end HasNeeds

/-- Where all that is needed is there, the next place of a document can be made. -/
theorem Part.exists_write (h : Part u t) {w : Tree} (hat : t.at? path = some w)
    (hw : v.tree = w.hollow) (hnew : u.at? path = none) (hneeds : u.HasNeeds t path) :
    ∃ u', Tree.write v.tree path (some u) = some u' ∧ Part u u' ∧ Part u' t := by
  induction path generalizing u t with
  | nil => cases hnew
  | cons token rest ih =>
    cases h with
    | scalar s => cases hat
    | @obj f g members =>
      obtain ⟨part, hpart, hbelow⟩ := Option.bind_eq_some_iff.1 hat
      have hroot : (Tree.obj g).at? [token] = some part := by simp [at?, hpart]
      have hmember := members token
      rw [hpart] at hmember
      cases hf : f token with
      | none =>
        cases rest with
        | nil =>
          obtain rfl := Option.some.inj hbelow
          have hold : PartMember (f token) (some v.tree) := hf ▸ .absent (some v.tree)
          obtain ⟨hleft, hright⟩ := Part.change members hpart hold (hw ▸ hollow part)
          exact ⟨_, write_cons_obj_eq_some.2 ⟨v.tree, rfl, rfl⟩, hleft, hright⟩
        | cons next below =>
          have hhost := hneeds.host hroot
          simp [at?, hf] at hhost
      | some old =>
        rw [hf] at hmember
        cases hmember with
        | present hold =>
        have hthere : (Tree.obj f).at? [token] = some old := by simp [at?, hf]
        obtain ⟨new, hwrite, hleft, hright⟩ :=
          ih hold hbelow (by rwa [at?_cons hthere] at hnew) (hneeds.below hthere hroot)
        obtain ⟨hleft', hright'⟩ := Part.change members hpart (hf ▸ .present hleft) hright
        exact ⟨_, write_cons_obj_eq_some.2 ⟨new, by rw [hf, hwrite], rfl⟩, hleft', hright'⟩
    | @arr es gs elements =>
      obtain ⟨i, hi, hthere⟩ := Option.bind_eq_some_iff.1 hat
      obtain rfl := Pointer.eq_repr_of_position? hi
      obtain ⟨part, hpart, hbelow⟩ := Option.bind_eq_some_iff.1 hthere
      have hroot : (Tree.arr gs).at? [i.repr] = some part := by simp [at?, hi, hpart]
      cases hold : es[i]? with
      | none =>
        cases rest with
        | nil =>
          obtain rfl := Option.some.inj hbelow
          obtain rfl := hneeds.length_eq hold hpart
          have hright : PartElements (es ++ [v.tree]) gs := elements.append hpart (hw ▸ hollow part)
          exact ⟨.arr (es ++ [v.tree]), (IsContext.last es).write _, .arr (.append_right es _), .arr hright⟩
        | cons next below =>
          have hhost := hneeds.host hroot
          simp [at?, hi, hold] at hhost
      | some old =>
        obtain ⟨whole, hwhole, hpartOld⟩ := elements.getElem? hold
        obtain rfl := Option.some.inj (hpart.symm.trans hwhole)
        have hthere' : (Tree.arr es).at? [i.repr] = some old := by simp [at?, hi, hold]
        have hne : rest ≠ [] := by
          rintro rfl
          rw [hthere'] at hnew
          cases hnew
        obtain ⟨new, hwrite, hleft, hright⟩ :=
          ih hpartOld hbelow (by rwa [at?_cons hthere'] at hnew) (hneeds.below hthere' hroot)
        obtain ⟨hleft', hright'⟩ := elements.change hold hpart hleft hright
        have hlt := (List.getElem?_eq_some_iff.1 hold).1
        have hend : rest = [] ↔ i = es.length := by
          simp only [hne, false_iff]
          omega
        exact ⟨.arr (es.set i new), write_cons_arr_eq_some.2 ⟨i, new, rfl, hlt.le, hend, by rw [hold, hwrite],
          by rw [putElement_of_lt hlt]⟩, .arr hleft', .arr hright'⟩

mutual

/-- A part that has all places of the whole is the whole. -/
theorem Part.eq_of_places : ∀ {u t : Tree}, Part u t →
    (∀ path, (t.at? path).isSome = true → (u.at? path).isSome = true) → u = t
  | _, _, .scalar _, _ => rfl
  | _, _, .arr h, hall => congrArg Tree.arr (PartElements.eq_of_places h fun i path => by
      simpa [at?] using hall (i.repr :: path))
  | _, _, .obj h, hall => congrArg Tree.obj (funext fun name => PartMember.eq_of_places (h name) fun path =>
      hall (name :: path))

theorem PartMember.eq_of_places : ∀ {o whole : Option Tree}, PartMember o whole →
    (∀ path, (whole.bind (at? path)).isSome = true → (o.bind (at? path)).isSome = true) → o = whole
  | _, none, .absent _, _ => rfl
  | _, some _, .absent _, hall => absurd (hall [] rfl) (by simp)
  | _, _, .present h, hall => congrArg some (Part.eq_of_places h hall)

theorem PartElements.eq_of_places : ∀ {es gs : List Tree}, PartElements es gs →
    (∀ (i : Nat) path, (gs[i]?.bind (at? path)).isSome = true → (es[i]?.bind (at? path)).isSome = true) →
    es = gs
  | _, [], .nil _, _ => rfl
  | _, _ :: _, .nil _, hall => absurd (hall 0 [] rfl) (by simp)
  | _, _, .cons h hrest, hall => congrArg₂ List.cons (Part.eq_of_places h (hall 0))
      (PartElements.eq_of_places hrest fun i => hall (i + 1))

end

private theorem isSome_at?_of_prefix {other : Path} (h : (t.at? path).isSome = true) (hother : other <+: path) :
    (t.at? other).isSome = true := by
  induction other generalizing t path with
  | nil => rfl
  | cons token rest ih =>
    cases path with
    | nil => simp at hother
    | cons first below =>
    obtain ⟨rfl, hrest⟩ := List.cons_prefix_cons.1 hother
    cases t with
    | scalar s => cases h
    | obj f =>
      cases hf : f token with
      | none => simp [at?, hf] at h
      | some part => simpa [at?, hf] using ih (by simpa [at?, hf] using h) hrest
    | arr es =>
      cases hi : Pointer.position? token with
      | none => simp [at?, hi] at h
      | some i =>
      cases he : es[i]? with
      | none => simp [at?, hi, he] at h
      | some part => simpa [at?, hi, he] using ih (by simpa [at?, hi, he] using h) hrest

/-- Where nothing is made before what it needs is there, a document grows by what is made at the places that
it does not have yet. -/
theorem Part.grows_of_order {ws : Patch} {bits : List (Path × Json)} (h : Part u t)
    (hws : List.Forall₂ (fun w b => w.Edits (.add b.2) b.1) ws bits) (hstarts : ∀ b ∈ bits, t.Starts b)
    (horder : (bits.map Prod.fst).Pairwise fun p q => ¬ t.Needs p q)
    (hplaces : ∀ path, (u.at? path).isSome = true ↔
      (t.at? path).isSome = true ∧ path ∉ bits.map Prod.fst) : Grows u ws t := by
  induction hws generalizing u with
  | nil =>
    obtain rfl := h.eq_of_places fun path hpath => (hplaces path).2 ⟨hpath, by simp⟩
    exact .nil u
  | @cons w b ws bits hedits _ ih =>
    obtain ⟨⟨hhollow, part, hpart, hb⟩, hrest⟩ := List.forall_mem_cons.1 hstarts
    rw [List.map_cons] at horder hplaces
    obtain ⟨hfirst, horder⟩ := List.pairwise_cons.1 horder
    have hnew : u.at? b.1 = none := by
      rw [← Option.not_isSome_iff_eq_none, hplaces]
      simp
    have hself : b.1 ∉ bits.map Prod.fst := fun hmem => hfirst b.1 hmem (.above (List.prefix_refl _))
    obtain ⟨u', hwrite, hpart', hwhole⟩ := h.exists_write hpart hb hnew fun other hneeds hne hsome =>
      (hplaces other).2 ⟨hsome, fun hmem => (List.mem_cons.1 hmem).elim hne fun hmem => hfirst other hmem hneeds⟩
    refine .cons hedits hhollow hpart' hwrite (ih hwhole hrest horder fun path => ?_)
    rw [isSome_at?_write hhollow hwrite, Option.bind_some, hplaces, List.mem_cons, not_or]
    constructor
    · rintro (rfl | ⟨⟨hsome, -, hmem⟩, -⟩)
      · exact ⟨by simp [hpart], hself⟩
      · exact ⟨hsome, hmem⟩
    · rintro ⟨hsome, hmem⟩
      by_cases hpath : path = b.1
      · exact .inl hpath
      · have hthere := (hplaces path).2 ⟨hsome, fun h => (List.mem_cons.1 h).elim hpath hmem⟩
        refine .inr ⟨⟨hsome, hpath, hmem⟩, fun hprefix => ?_⟩
        simpa [hnew] using isSome_at?_of_prefix hthere hprefix

end Tree

end EditLens
