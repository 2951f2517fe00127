import EditLens.Proofs.Lens.Recast
import EditLens.Proofs.Lens.Route
import EditLens.Proofs.Patch.Ordered

/-! Lenses that move members. Main statement: such a lens takes the places of a document one to one to those
of the recast document, and the reversed lens takes them back. -/
namespace EditLens

open Function (update)
open EditLens.Tree

/-- One way takes each place of a tree to a place of another one with the same kind of thing, from where the
other way leads back. Elements stay in their arrays. -/
structure Tree.Goes (there back : Path → Option Path) (t u : Tree) : Prop where
  place : ∀ {path : Path} {w : Tree}, t.at? path = some w → ∃ path' w', there path = some path' ∧
    back path' = some path ∧ u.at? path' = some w' ∧ w'.hollow = w.hollow ∧ (path' = [] → path = [])
  element : ∀ {path : Path} {es : List Tree}, t.at? path = some (.arr es) → ∃ path', there path = some path' ∧
    ∀ i : Nat, there (path ++ [i.repr]) = some (path' ++ [i.repr])

namespace Tree.Goes

variable {there back there' back' : Path → Option Path} {t u v : Tree}

private theorem refl (t : Tree) : Goes some some t t where
  place {path w} h := ⟨path, w, rfl, rfl, h, rfl, id⟩
  element {path _} _ := ⟨path, rfl, fun _ => rfl⟩

private theorem comp (h : Goes there back t u) (h' : Goes there' back' u v) :
    Goes (fun path => (there path).bind there') (fun path => (back' path).bind back) t v where
  place {path w} hat := by
    obtain ⟨path₁, w₁, hthere, hback, hat₁, hhollow, hroot⟩ := h.place hat
    obtain ⟨path₂, w₂, hthere', hback', hat₂, hhollow', hroot'⟩ := h'.place hat₁
    exact ⟨path₂, w₂, by rw [hthere, Option.bind_some, hthere'], by rw [hback', Option.bind_some, hback], hat₂,
      hhollow'.trans hhollow, fun hnil => hroot (hroot' hnil)⟩
  element {path es} hat := by
    obtain ⟨path₁, hthere, helement⟩ := h.element hat
    obtain ⟨path₁', w₁, hthere', -, hat₁, hhollow, -⟩ := h.place hat
    obtain rfl := Option.some.inj (hthere.symm.trans hthere')
    obtain ⟨fs, rfl⟩ := exists_arr_of_hollow hhollow
    obtain ⟨path₂, hthere₂, helement'⟩ := h'.element hat₁
    exact ⟨path₂, by rw [hthere, Option.bind_some, hthere₂], fun i => by
      rw [helement i, Option.bind_some, helement' i]⟩

/-- Of objects, it is enough to tell where the places below the root go. -/
private theorem of_members {f g : String → Option Tree} (hthere : there [] = some []) (hback : back [] = some [])
    (hplace : ∀ {token : String} {rest : Path} {part w : Tree}, f token = some part → part.at? rest = some w →
      ∃ token' rest' w', there (token :: rest) = some (token' :: rest') ∧
        back (token' :: rest') = some (token :: rest) ∧ (Tree.obj g).at? (token' :: rest') = some w' ∧
        w'.hollow = w.hollow)
    (helement : ∀ {token : String} {rest : Path} {part : Tree} {es : List Tree}, f token = some part →
      part.at? rest = some (.arr es) → ∃ path', there (token :: rest) = some path' ∧
        ∀ i : Nat, there (token :: (rest ++ [i.repr])) = some (path' ++ [i.repr])) :
    Goes there back (.obj f) (.obj g) where
  place {path w} hat := by
    cases path with
    | nil => exact ⟨[], .obj g, hthere, hback, rfl, by rw [← Option.some.inj hat]; rfl, id⟩
    | cons token rest =>
      obtain ⟨part, hpart, hbelow⟩ := Option.bind_eq_some_iff.1 hat
      obtain ⟨token', rest', w', h⟩ := hplace hpart hbelow
      exact ⟨token' :: rest', w', h.1, h.2.1, h.2.2.1, h.2.2.2, fun hnil => by cases hnil⟩
  element {path es} hat := by
    cases path with
    | nil => cases hat
    | cons token rest =>
      obtain ⟨part, hpart, hbelow⟩ := Option.bind_eq_some_iff.1 hat
      exact helement hpart hbelow

/-- Members that change their names at most. -/
private theorem of_renamed {f g : String → Option Tree} (rename : String → String) (hthere : there [] = some [])
    (hback : back [] = some []) (hg : ∀ name part, f name = some part → g (rename name) = some part)
    (hthere' : ∀ name part rest, f name = some part → there (name :: rest) = some (rename name :: rest))
    (hback' : ∀ name part rest, f name = some part → back (rename name :: rest) = some (name :: rest)) :
    Goes there back (.obj f) (.obj g) :=
  .of_members hthere hback (fun {token rest part w} hpart hw =>
      ⟨rename token, rest, w, hthere' token part rest hpart, hback' token part rest hpart, by
        rw [at?, hg token part hpart]; exact hw, rfl⟩)
    fun {token rest part es} hpart _ =>
      ⟨rename token :: rest, hthere' token part rest hpart, fun i => hthere' token part _ hpart⟩

end Tree.Goes

private theorem ne_of_absent {f : String → Option Tree} {name token : String} {part : Tree}
    (hnone : f name = none) (hpart : f token = some part) : name ≠ token := by
  rintro rfl
  rw [hnone] at hpart
  cases hpart

namespace LensOp

/-- Where no member is moved, every place stays. -/
private theorem goes_unmoved {op op' : LensOp} {f : String → Option Tree}
    (hthere : ∀ name part rest, f name = some part → op.route (name :: rest) = some (name :: rest))
    (hback : ∀ name part rest, f name = some part → op'.route (name :: rest) = some (name :: rest)) :
    Goes op.route op'.route (.obj f) (.obj f) :=
  .of_renamed id op.route_root op'.route_root (fun _ _ => id) hthere hback

private theorem goes_rename (source destination : String) {f g : String → Option Tree}
    (hnew : f destination = none) (hg : ∀ name, name ≠ source → name ≠ destination → g name = f name)
    (hmoved : g destination = f source) :
    Goes (LensOp.rename (.str source) (.str destination)).route
      (LensOp.rename (.str destination) (.str source)).route (.obj f) (.obj g) := by
  have hne : ∀ {name part}, f name = some part → name ≠ destination := fun hpart =>
    (ne_of_absent hnew hpart).symm
  refine .of_renamed (fun name => if source = name then destination else name) rfl rfl ?_ ?_ ?_
  · intro name part hpart
    by_cases hsource : source = name
    · rw [if_pos hsource, hmoved, hsource, hpart]
    · rw [if_neg hsource, hg name (Ne.symm hsource) (hne hpart), hpart]
  · intro name part rest _
    rw [route_rename, apply_ite (· :: rest)]
  · intro name part rest hpart
    rw [route_rename]
    by_cases hsource : source = name
    · simp [hsource]
    · simp [hsource, Ne.symm (hne hpart)]

section Hoist

variable {host name : String} {f inner : String → Option Tree}

private def lifted (host name : String) (f inner : String → Option Tree) : String → Option Tree :=
  update (update f host (some (.obj (update inner name none)))) name (inner name)

private theorem lifted_of_ne {token : String} (hhost : token ≠ host) (hname : token ≠ name) :
    lifted host name f inner token = f token := by
  rw [lifted, Function.update_of_ne hname, Function.update_of_ne hhost]

private theorem lifted_host (hne : name ≠ host) :
    lifted host name f inner host = some (.obj (update inner name none)) := by
  rw [lifted, Function.update_of_ne hne.symm, Function.update_self]

private theorem lifted_name : lifted host name f inner name = inner name := by
  rw [lifted, Function.update_self]

private theorem goes_hoist (hnew : f name = none) (hhost : f host = some (.obj inner)) (hne : name ≠ host) :
    Goes (LensOp.hoist (.str host) (.str name)).route (LensOp.plunge (.str host) (.str name)).route
      (.obj f) (.obj (lifted host name f inner)) := by
  have hname : ∀ {token part}, f token = some part → name ≠ token := fun hpart => ne_of_absent hnew hpart
  refine .of_members rfl rfl (fun {token rest part w} hpart hw => ?_) fun {token rest part es} hpart hes => ?_
  · by_cases htoken : host = token
    · subst htoken
      obtain rfl := Option.some.inj (hhost.symm.trans hpart)
      cases rest with
      | nil =>
        obtain rfl := Option.some.inj hw
        exact ⟨host, [], .obj (update inner name none), by simp [route_hoist], by simp [route_plunge, hne],
          by simp [at?, lifted_host hne], rfl⟩
      | cons next below =>
        by_cases hnext : next = name
        · subst hnext
          exact ⟨next, below, w, by simp [route_hoist], by simp [route_plunge], by
            rw [at?, lifted_name]; exact hw, rfl⟩
        · refine ⟨host, next :: below, w, by simp [route_hoist, hnext], by simp [route_plunge, hne], ?_, rfl⟩
          rw [at?, lifted_host hne, Option.bind_some, at?, Function.update_of_ne hnext]
          exact hw
    · refine ⟨token, rest, w, by simp [route_hoist, htoken], by simp [route_plunge, hname hpart], ?_, rfl⟩
      rw [at?, lifted_of_ne (Ne.symm htoken) (Ne.symm (hname hpart)), hpart]
      exact hw
  · by_cases htoken : host = token
    · subst htoken
      obtain rfl := Option.some.inj (hhost.symm.trans hpart)
      cases rest with
      | nil => cases hes
      | cons next below =>
        by_cases hnext : next = name
        · exact ⟨next :: below, by simp [route_hoist, hnext], fun i => by simp [route_hoist, hnext]⟩
        · exact ⟨host :: next :: below, by simp [route_hoist, hnext], fun i => by simp [route_hoist, hnext]⟩
    · exact ⟨token :: rest, by simp [route_hoist, htoken], fun i => by simp [route_hoist, htoken]⟩

private theorem goes_plunge (hnew : f name = none) (hhost : f host = some (.obj inner)) (hne : name ≠ host) :
    Goes (LensOp.plunge (.str host) (.str name)).route (LensOp.hoist (.str host) (.str name)).route
      (.obj (lifted host name f inner)) (.obj f) := by
  refine .of_members rfl rfl (fun {token rest part w} hpart hw => ?_) fun {token rest part es} hpart hes => ?_
  · by_cases hname : name = token
    · subst hname
      rw [lifted_name] at hpart
      refine ⟨host, name :: rest, w, by simp [route_plunge], by simp [route_hoist], ?_, rfl⟩
      rw [at?, hhost, Option.bind_some, at?, hpart]
      exact hw
    by_cases htoken : host = token
    · subst htoken
      obtain rfl := Option.some.inj ((lifted_host hne).symm.trans hpart)
      cases rest with
      | nil =>
        obtain rfl := Option.some.inj hw
        exact ⟨host, [], .obj inner, by simp [route_plunge, hne], by simp [route_hoist],
          by simp [at?, hhost], rfl⟩
      | cons next below =>
        have hnext : next ≠ name := by
          rintro rfl
          simp [at?] at hw
        rw [at?, Function.update_of_ne hnext] at hw
        refine ⟨host, next :: below, w, by simp [route_plunge, hne], by simp [route_hoist, hnext], ?_, rfl⟩
        rw [at?, hhost]
        exact hw
    · rw [lifted_of_ne (Ne.symm htoken) (Ne.symm hname)] at hpart
      refine ⟨token, rest, w, by simp [route_plunge, hname], by simp [route_hoist, htoken], ?_, rfl⟩
      rw [at?, hpart]
      exact hw
  · by_cases hname : name = token
    · exact ⟨host :: token :: rest, by simp [route_plunge, hname], fun i => by simp [route_plunge, hname]⟩
    · exact ⟨token :: rest, by simp [route_plunge, hname], fun i => by simp [route_plunge, hname]⟩

end Hoist

section Nested

variable {there back : Path → Option Path} {lens lens' : Lens} {part part' : Tree}

private theorem goes_inside {name : String} {f : String → Option Tree} (hpart : f name = some part)
    (h : Goes (Lens.route · lens) (Lens.route · lens') part part') :
    Goes (LensOp.inside (.str name) lens).route (LensOp.inside (.str name) lens').route (.obj f)
      (.obj (update f name (some part'))) := by
  refine .of_members rfl rfl (fun {token rest found w} hfound hw => ?_)
    fun {token rest found es} hfound hes => ?_
  · by_cases hname : name = token
    · subst hname
      obtain rfl := Option.some.inj (hpart.symm.trans hfound)
      obtain ⟨rest', w', hthere, hback, hat, hhollow, -⟩ := h.place hw
      exact ⟨name, rest', w', by simp [route_inside, hthere], by simp [route_inside, hback],
        by simpa [at?] using hat, hhollow⟩
    · refine ⟨token, rest, w, by simp [route_inside, hname], by simp [route_inside, hname], ?_, rfl⟩
      rw [at?, Function.update_of_ne (Ne.symm hname), hfound]
      exact hw
  · by_cases hname : name = token
    · subst hname
      obtain rfl := Option.some.inj (hpart.symm.trans hfound)
      obtain ⟨rest', hthere, helement⟩ := h.element hes
      exact ⟨name :: rest', by simp [route_inside, hthere], fun i => by simp [route_inside, helement i]⟩
    · exact ⟨token :: rest, by simp [route_inside, hname], fun i => by simp [route_inside, hname]⟩

private theorem goes_each {es es' : List Tree}
    (h : List.Forall₂ (fun e e' => Goes (Lens.route · lens) (Lens.route · lens') e e') es es') :
    Goes (LensOp.each lens).route (LensOp.each lens').route (.arr es) (.arr es') where
  place {path w} hat := by
    cases path with
    | nil =>
      obtain rfl := Option.some.inj hat
      exact ⟨[], .arr es', rfl, rfl, rfl, rfl, id⟩
    | cons token rest =>
      obtain ⟨i, hi, hbelow⟩ := Option.bind_eq_some_iff.1 hat
      obtain rfl := Pointer.eq_repr_of_position? hi
      obtain ⟨e, he, hw⟩ := Option.bind_eq_some_iff.1 hbelow
      obtain ⟨e', he', hgoes⟩ := forall₂_getElem? h he
      obtain ⟨rest', w', hthere, hback, hat', hhollow, -⟩ := hgoes.place hw
      have hindex := Pointer.isIndex_repr i
      exact ⟨i.repr :: rest', w', by rw [route_each hindex, hthere]; rfl,
        by rw [route_each hindex, hback]; rfl, by simp [at?, he', hat'], hhollow, fun hnil => by cases hnil⟩
  element {path fs} hat := by
    cases path with
    | nil => exact ⟨[], rfl, fun i => by simp [route_each (Pointer.isIndex_repr i)]⟩
    | cons token rest =>
      obtain ⟨i, hi, hbelow⟩ := Option.bind_eq_some_iff.1 hat
      obtain rfl := Pointer.eq_repr_of_position? hi
      obtain ⟨e, he, hw⟩ := Option.bind_eq_some_iff.1 hbelow
      obtain ⟨e', -, hgoes⟩ := forall₂_getElem? h he
      obtain ⟨rest', hthere, helement⟩ := hgoes.element hw
      have hindex := Pointer.isIndex_repr i
      exact ⟨i.repr :: rest', by rw [route_each hindex, hthere]; rfl, fun j => by
        rw [List.cons_append, route_each hindex, helement j]; rfl⟩

end Nested

end LensOp

private theorem Lens.route_append (first second : Lens) (path : Path) :
    Lens.route path (first ++ second) = (Lens.route path first).bind fun next => Lens.route next second := by
  induction first generalizing path with
  | nil => rfl
  | cons op rest ih =>
    rw [List.cons_append, Lens.route, Lens.route, Option.bind_assoc]
    exact congrArg _ (funext ih)

theorem Lens.route_singleton (op : LensOp) (path : Path) : Lens.route path [op] = op.route path := by
  simp [Lens.route]

private theorem Lens.isMoving_append (first second : Lens) :
    Lens.isMoving (first ++ second) = (first.isMoving && second.isMoving) := by
  induction first with
  | nil => rfl
  | cons op rest ih => rw [List.cons_append, Lens.isMoving, Lens.isMoving, ih, Bool.and_assoc]

mutual

theorem LensOp.isMoving_reverse (op : LensOp) (h : op.isMoving = true) : op.reverse.isMoving = true := by
  match op with
  | .rename (.str _) (.str _) | .hoist (.str _) (.str _) | .plunge (.str _) (.str _) => rfl
  | .inside (.str _) lens => exact Lens.isMoving_reverse lens h
  | .each lens => exact Lens.isMoving_reverse lens h

theorem Lens.isMoving_reverse (lens : Lens) (h : lens.isMoving = true) : lens.reverse.isMoving = true := by
  match lens with
  | [] => rfl
  | op :: rest =>
    rw [Lens.isMoving, Bool.and_eq_true] at h
    rw [Lens.reverse, Lens.isMoving_append, Lens.isMoving_reverse rest h.2, Lens.isMoving, Lens.isMoving,
      LensOp.isMoving_reverse op h.1]
    rfl

end

mutual

private theorem LensOp.goes (op : LensOp) (hop : op.isMoving = true) {t u : Tree} (h : op.recast t = some u) :
    Goes op.route op.reverse.route t u ∧ Goes op.reverse.route op.route u t := by
  match op with
  | .rename (.str source) (.str destination) =>
    obtain ⟨f, rfl, hnew, rfl⟩ := renameMember_eq_some.1 h
    refine ⟨LensOp.goes_rename source destination hnew (fun name hsource hdestination => by
        rw [Function.update_of_ne hdestination, Function.update_of_ne hsource]) (Function.update_self ..),
      LensOp.goes_rename destination source ?_ (fun name hdestination hsource => by
        rw [Function.update_of_ne hdestination, Function.update_of_ne hsource]) (by rw [Function.update_self])⟩
    by_cases hsame : source = destination
    · rw [hsame, Function.update_self, hnew]
    · rw [Function.update_of_ne hsame, Function.update_self]
  | .hoist (.str host) (.str name) =>
    obtain ⟨f, rfl, hname, ⟨hhost, rfl⟩ | ⟨inner, hhost, rfl⟩⟩ := hoistMember_eq_some.1 h
    · exact ⟨LensOp.goes_unmoved (fun token part rest hpart => by
          simp [LensOp.route_hoist, ne_of_absent hhost hpart]) fun token part rest hpart => by
          simp [LensOp.reverse, LensOp.route_plunge, ne_of_absent hname hpart],
        LensOp.goes_unmoved (fun token part rest hpart => by
          simp [LensOp.reverse, LensOp.route_plunge, ne_of_absent hname hpart]) fun token part rest hpart => by
          simp [LensOp.route_hoist, ne_of_absent hhost hpart]⟩
    · have hne : name ≠ host := by
        rintro rfl
        rw [hname] at hhost
        cases hhost
      exact ⟨LensOp.goes_hoist hname hhost hne, LensOp.goes_plunge hname hhost hne⟩
  | .inside (.str name) lens =>
    obtain ⟨f, rfl, ⟨hnone, rfl⟩ | ⟨part, part', hpart, hpart', rfl⟩⟩ := rewriteMember_eq_some.1 h
    · exact ⟨LensOp.goes_unmoved (fun token part rest hpart => by
          simp [LensOp.route_inside, ne_of_absent hnone hpart]) fun token part rest hpart => by
          simp [LensOp.reverse, LensOp.route_inside, ne_of_absent hnone hpart],
        LensOp.goes_unmoved (fun token part rest hpart => by
          simp [LensOp.reverse, LensOp.route_inside, ne_of_absent hnone hpart]) fun token part rest hpart => by
          simp [LensOp.route_inside, ne_of_absent hnone hpart]⟩
    · obtain ⟨hthere, hback⟩ := Lens.goes lens hop hpart'
      refine ⟨LensOp.goes_inside hpart hthere, ?_⟩
      have hagain := LensOp.goes_inside (f := update f name (some part')) (Function.update_self ..) hback
      rwa [Function.update_idem, ← hpart, Function.update_eq_self] at hagain
  | .each lens =>
    obtain ⟨es, es', rfl, hes, rfl⟩ := rewriteElements_eq_some.1 h
    exact ⟨LensOp.goes_each (hes.imp fun e e' he => (Lens.goes lens hop he).1),
      LensOp.goes_each (hes.flip.imp fun e' e he => (Lens.goes lens hop he).2)⟩

/-- A lens that moves members takes the places of a document one to one to those of what it makes of it, and
the reversed lens takes them back. -/
theorem Lens.goes (lens : Lens) (hlens : lens.isMoving = true) {t u : Tree} (h : lens.recast t = some u) :
    Goes (Lens.route · lens) (Lens.route · lens.reverse) t u ∧
      Goes (Lens.route · lens.reverse) (Lens.route · lens) u t := by
  match lens with
  | [] =>
    obtain rfl := Option.some.inj h
    exact ⟨.refl t, .refl t⟩
  | op :: rest =>
    rw [Lens.isMoving, Bool.and_eq_true] at hlens
    obtain ⟨mid, hmid, hu⟩ := Lens.recast_cons_eq_some.1 h
    obtain ⟨hthere, hback⟩ := LensOp.goes op hlens.1 hmid
    obtain ⟨hthere', hback'⟩ := Lens.goes rest hlens.2 hu
    have hreverse : (Lens.route · (Lens.reverse (op :: rest))) = fun path =>
        (Lens.route path (Lens.reverse rest)).bind op.reverse.route := by
      funext path
      rw [Lens.reverse, Lens.route_append]
      exact congrArg _ (funext (Lens.route_singleton op.reverse))
    rw [hreverse]
    exact ⟨hthere.comp hthere', hback'.comp hback⟩

end

namespace Json

variable {there : Path → Option Path} {v : Json}

def layoutAt (there : Path → Option Path) (v : Json) : List (Path × Json) :=
  v.layout.filterMap fun b => (there b.1).map fun path => (path, b.2)

private theorem mem_layoutAt {c : Path × Json} :
    c ∈ v.layoutAt there ↔ ∃ b ∈ v.layout, there b.1 = some c.1 ∧ b.2 = c.2 := by
  simp [layoutAt, Prod.ext_iff]

theorem spots_layoutAt : (v.layoutAt there).map Prod.fst = v.spots.filterMap there := by
  simp [layoutAt, spots, List.map_filterMap, List.filterMap_map, Function.comp_def]

theorem edits_layoutAt {ws : Patch}
    (hws : List.Forall₂ (fun w b => ∃ path, there b.1 = some path ∧ w.Edits (.add b.2) path) ws v.layout) :
    List.Forall₂ (fun w b => w.Edits (.add b.2) b.1) ws (v.layoutAt there) := by
  rw [layoutAt, ← List.filterMap_some (l := ws)]
  refine forall₂_filterMap hws fun w b hwb => ?_
  obtain ⟨path, hthere, hedits⟩ := hwb
  exact ⟨w, (path, b.2), rfl, by rw [hthere, Option.map_some], hedits⟩

end Json

namespace Tree.Goes

variable {there back : Path → Option Path} {t u : Tree} {v : Json}

/-- What goes to places that need one another, but not to one above the other, comes from such places. -/
private theorem needs (h : Goes there back t u) (h' : Goes back there u t) {path other path' other' : Path}
    {w w' : Tree} (hat : t.at? path = some w) (hat' : t.at? other = some w') (hthere : there path = some path')
    (hthere' : there other = some other') (hneeds : u.Needs path' other') :
    other' <+: path' ∨ t.Needs path other := by
  cases hneeds with
  | above h => exact .inl h
  | @earlier above es i j array hpath hother hlt =>
    obtain ⟨_, _, hplace, hback, -⟩ := h.place hat
    obtain rfl := Option.some.inj (hthere.symm.trans hplace)
    obtain ⟨_, _, hplace', hback', -⟩ := h.place hat'
    obtain rfl := Option.some.inj (hthere'.symm.trans hplace')
    obtain ⟨above', habove, helement⟩ := h'.element array
    obtain ⟨_, w₁, hback₁, -, hat₁, hhollow, -⟩ := h'.place array
    obtain rfl := Option.some.inj (habove.symm.trans hback₁)
    obtain ⟨fs, rfl⟩ := exists_arr_of_hollow hhollow
    rw [hpath, helement i] at hback
    rw [hother, helement j] at hback'
    exact .inr (.earlier hat₁ (Option.some.inj hback).symm (Option.some.inj hback').symm hlt)

/-- What is first made at the places of a document is first made at the places where they go. -/
theorem starts (h : Goes there back v.tree u) (hv : v.isDocument = true) {b : Path × Json} (hb : b ∈ v.layoutAt there) :
    u.Starts b := by
  obtain ⟨c, hc, hthere, htext⟩ := Json.mem_layoutAt.1 hb
  obtain ⟨-, hhollow, part, hpart, htree⟩ := (Json.mem_layout v hv c).1 hc
  obtain ⟨_, w, hgone, -, hat, hsame, -⟩ := h.place hpart
  obtain rfl := Option.some.inj (hthere.symm.trans hgone)
  exact ⟨htext ▸ hhollow, w, hat, by rw [← htext, htree, hsame]⟩

/-- No two places of a document go to one place. -/
theorem nodup (h : Goes there back v.tree u) (hv : v.isDocument = true) : (v.spots.filterMap there).Nodup := by
  rw [List.Nodup, List.pairwise_filterMap]
  refine (Json.pairwise_spots v hv).imp_of_mem fun {p q} hp hq hneeds p' hp' q' hq' heq => ?_
  obtain ⟨w, hw⟩ := Option.isSome_iff_exists.1 ((Json.mem_spots hv).1 hp).2
  obtain ⟨w', hw'⟩ := Option.isSome_iff_exists.1 ((Json.mem_spots hv).1 hq).2
  obtain ⟨_, _, hgone, hback, -⟩ := h.place hw
  obtain ⟨_, _, hgone', hback', -⟩ := h.place hw'
  obtain rfl := Option.some.inj (hp'.symm.trans hgone)
  obtain rfl := Option.some.inj (hq'.symm.trans hgone')
  rw [heq, hback'] at hback
  exact hneeds (.above (Option.some.inj hback ▸ List.prefix_refl _))

/-- What goes to the places of a tree makes it, unless something comes before what it stands in. -/
theorem grows (h : Goes there back v.tree u) (h' : Goes back there u v.tree) (hv : v.isDocument = true)
    (horder : (v.spots.filterMap there).Pairwise fun p q => ¬ q <+: p) {ws : Patch}
    (hws : List.Forall₂ (fun w b => ∃ path, there b.1 = some path ∧ w.Edits (.add b.2) path) ws v.layout) :
    Grows u.hollow ws u := by
  refine (Part.hollow u).grows_of_order (v.edits_layoutAt hws) (fun c hc => h.starts hv hc) ?_ fun path => ?_
  · rw [Json.spots_layoutAt]
    rw [List.pairwise_filterMap] at horder ⊢
    refine (horder.and (Json.pairwise_spots v hv)).imp_of_mem fun {p q} hp hq hpq p' hp' q' hq' hneeds => ?_
    obtain ⟨w, hw⟩ := Option.isSome_iff_exists.1 ((Json.mem_spots hv).1 hp).2
    obtain ⟨w', hw'⟩ := Option.isSome_iff_exists.1 ((Json.mem_spots hv).1 hq).2
    exact (h.needs h' hw hw' hp' hq' hneeds).elim (hpq.1 p' hp' q' hq') hpq.2
  · rw [Json.spots_layoutAt, isSome_at?_hollow, List.mem_filterMap]
    constructor
    · rintro rfl
      refine ⟨rfl, fun ⟨path, hpath, hthere⟩ => ?_⟩
      obtain ⟨hne, hsome⟩ := (Json.mem_spots hv).1 hpath
      obtain ⟨w, hw⟩ := Option.isSome_iff_exists.1 hsome
      obtain ⟨_, _, hgone, -, -, -, hroot⟩ := h.place hw
      exact hne (hroot (Option.some.inj (hgone.symm.trans hthere)))
    · rintro ⟨hsome, hmem⟩
      obtain ⟨w, hw⟩ := Option.isSome_iff_exists.1 hsome
      obtain ⟨start, w', -, hthere, hat, -, hroot⟩ := h'.place hw
      by_contra hne
      exact hmem ⟨start, (Json.mem_spots hv).2 ⟨mt hroot hne, by rw [hat]; rfl⟩, hthere⟩

end Tree.Goes

end EditLens
