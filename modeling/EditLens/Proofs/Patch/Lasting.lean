import EditLens.Proofs.Patch.Ordered

/-! Additions that are made one after another, in whatever order. Main statement: if all that was made is there at
the end, nothing was made before what it stands in. -/
namespace EditLens

open EditLens.Tree

namespace Edit

/-- An addition in a document that has room for it writes the place in its tree. -/
theorem write_of_apply {v doc doc' : Json} {path : Path} (h : (Edit.add v).apply path doc = .ok doc')
    (hroom : ∀ above token es, path = above ++ [token] → doc.tree.at? above = some (.arr es) →
      ∃ i : Nat, token = i.repr ∧ es[i]? = none) : Tree.write v.tree path (some doc.tree) = some doc'.tree := by
  induction path generalizing doc doc' with
  | nil =>
    obtain rfl := Except.ok.inj h
    rfl
  | cons token rest ih =>
  cases doc with
  | scalar s =>
    rw [apply_cons_scalar] at h
    cases h
  | obj ms =>
    obtain ⟨result, hresult, rfl⟩ := apply_cons_obj_eq_ok.1 h
    rw [Json.tree_obj, Tree.write_cons_obj, Members.trees]
    cases hmember : Members.get? ms token with
    | none =>
      rw [hmember] at hresult
      obtain ⟨rfl, -⟩ := onMemberAt_none hresult
      obtain rfl := Except.ok.inj hresult
      simp [Tree.write, Members.change, Members.trees_put]
    | some part =>
      rw [hmember] at hresult
      rcases onMemberAt_some hresult with ⟨-, hremove, -⟩ | ⟨part', rfl, hpart⟩
      · cases hremove
      have hwrite := ih hpart fun above last es hpath hes => by
        refine hroom (token :: above) last es (by rw [hpath]; rfl) ?_
        rw [Json.tree_obj, Tree.at?, Members.trees, hmember]
        exact hes
      simp [hwrite, Members.change, Members.trees_put]
  | arr es =>
    rw [Json.tree_arr, Tree.write_cons_arr_eq_some]
    cases rest with
    | nil =>
      obtain ⟨i, rfl, hi⟩ := hroom [] token (es.map Json.tree) rfl (by rw [Json.tree_arr]; rfl)
      obtain ⟨es', rfl, ⟨hdash, -⟩ | ⟨j, hj, helement⟩⟩ := apply_arr_eq_ok.1 h
      · have hnone := Pointer.position?_repr i
        rw [hdash] at hnone
        cases hnone
      obtain rfl := Pointer.repr_injective hj
      rw [onElement] at helement
      split at helement
      · rename_i hle
        obtain rfl := Except.ok.inj helement
        obtain rfl : i = es.length := Nat.le_antisymm hle (by simpa using hi)
        exact ⟨es.length, v.tree, rfl, by simp, by simp, rfl, by
          rw [← List.length_map (f := Json.tree), Tree.putElement_length]; simp⟩
      · cases helement
    | cons next below =>
      obtain ⟨i, part, part', rfl, hpart, hpart', rfl⟩ := apply_cons_cons_arr_eq_ok.1 h
      have hlt : i < es.length := (List.getElem?_eq_some_iff.1 hpart).1
      have hfound : (es.map Json.tree)[i]? = some part.tree := by rw [List.getElem?_map, hpart, Option.map_some]
      have hwrite := ih hpart' fun above last es' hpath hes => by
        refine hroom (i.repr :: above) last es' (by rw [hpath]; rfl) ?_
        rw [Json.tree_arr, Tree.at?, Pointer.position?_repr, Option.bind_some, hfound]
        exact hes
      refine ⟨i, part'.tree, rfl, by simpa using hlt.le, by simp; omega, by rw [hfound, hwrite], ?_⟩
      rw [Json.tree_arr, List.map_set, Tree.putElement_of_lt (by simpa using hlt)]

end Edit

namespace Tree

inductive Writes : Tree → List Path → Tree → Prop
  | nil (t : Tree) : Writes t [] t
  | cons {v : Json} {path : Path} {paths : List Path} {t t₁ t' : Tree} (hollow : v.isHollow = true)
    (write : Tree.write v.tree path (some t) = some t₁) (others : Writes t₁ paths t') : Writes t (path :: paths) t'

namespace Writes

variable {t t' : Tree} {path host : Path} {paths : List Path}

/-- What is not there does not come unless it is written. -/
private theorem at?_eq_none (h : Writes t paths t') (hnone : t.at? path = none) (hpath : path ∉ paths) :
    t'.at? path = none := by
  induction h with
  | nil t => exact hnone
  | cons hhollow hwrite _ ih =>
    rw [List.mem_cons, not_or] at hpath
    refine ih ?_ hpath.2
    rw [← Option.not_isSome_iff_eq_none, isSome_at?_write hhollow hwrite]
    simp [hpath.1, hnone]

/-- What stands in a place that is written is lost unless it is written again. -/
private theorem at?_eq_none_of_mem (h : Writes t paths t') (hhost : host ∈ paths) (hbelow : host <+: path)
    (hpath : path ∉ paths) : t'.at? path = none := by
  induction h with
  | nil t => cases hhost
  | cons hhollow hwrite hothers ih =>
    rw [List.mem_cons, not_or] at hpath
    rcases List.mem_cons.1 hhost with rfl | hhost
    · refine hothers.at?_eq_none ?_ hpath.2
      rw [← Option.not_isSome_iff_eq_none, isSome_at?_write hhollow hwrite]
      simp [hpath.1, hbelow]
    · exact ih hhost hpath.2

/-- If all that is written is there in the end, nothing is written before what it stands in. -/
theorem pairwise (h : Writes t paths t') (hnodup : paths.Nodup)
    (hall : ∀ path ∈ paths, (t'.at? path).isSome = true) : paths.Pairwise fun p q => ¬ q <+: p := by
  induction h with
  | nil t => exact .nil
  | cons _ _ hothers ih =>
    obtain ⟨hnew, hnodup⟩ := List.nodup_cons.1 hnodup
    obtain ⟨hfirst, hall⟩ := List.forall_mem_cons.1 hall
    refine List.pairwise_cons.2 ⟨fun host hhost hbelow => ?_, ih hnodup hall⟩
    rw [hothers.at?_eq_none_of_mem hhost hbelow hnew] at hfirst
    cases hfirst

end Writes

/-- Whether the elements at some places are still to come to the arrays that they are for. -/
def HasRoom (t : Tree) (paths : List Path) : Prop :=
  ∀ ⦃above : Path⦄ ⦃token : String⦄ ⦃es : List Tree⦄, above ++ [token] ∈ paths → t.at? above = some (.arr es) →
    ∃ i : Nat, token = i.repr ∧ es[i]? = none

variable {t t₁ : Tree} {v : Json} {path : Path} {paths : List Path}

/-- A write leaves room for the others, if members are written into no array. -/
private theorem HasRoom.write (h : t.HasRoom (path :: paths)) (hv : v.isHollow = true)
    (hwrite : Tree.write v.tree path (some t) = some t₁) (hpath : path ∉ paths)
    (helements : v = .arr [] → ∀ token, path ++ [token] ∈ paths → ∃ i : Nat, token = i.repr) : t₁.HasRoom paths := by
  intro above token es hmem hes
  have hhollow := hollow_at?_write hv hwrite above
  have hplace := isSome_at?_write hv hwrite (above ++ [token])
  have hne : above ++ [token] ≠ path := fun heq => hpath (heq ▸ hmem)
  rw [hes, Option.map_some] at hhollow
  rw [at?_append, hes, Option.bind_some] at hplace
  split_ifs at hhollow with hsame hbelow
  · subst hsame
    have hvalue : v = .arr [] := Json.eq_hollow (v := .arr []) hv (Option.some.inj hhollow).symm
    obtain ⟨i, rfl⟩ := helements hvalue token hmem
    exact ⟨i, rfl, by simpa [at?] using hplace⟩
  · rw [Option.bind_some] at hhollow
    obtain ⟨w, hw, hkind⟩ := Option.map_eq_some_iff.1 hhollow.symm
    obtain ⟨fs, rfl⟩ := exists_arr_of_hollow hkind
    obtain ⟨i, rfl, hi⟩ := h (List.mem_cons_of_mem _ hmem) hw
    rw [Option.bind_some, at?_append, hw] at hplace
    exact ⟨i, rfl, by simpa [at?, hi, hne] using hplace⟩

/-- Below an array of a tree stand only elements. -/
private theorem exists_repr_of_starts {whole : Tree} {b : Path × Json} {token : String} (hb : whole.Starts b)
    (harray : b.2 = .arr []) (hsome : (whole.at? (b.1 ++ [token])).isSome = true) : ∃ i : Nat, token = i.repr := by
  obtain ⟨-, part, hpart, htree⟩ := hb
  rw [harray] at htree
  cases part with
  | arr es =>
    obtain ⟨w, hw⟩ := Option.isSome_iff_exists.1 hsome
    rw [at?_append, hpart, Option.bind_some] at hw
    obtain ⟨i, hi, -⟩ := Option.bind_eq_some_iff.1 hw
    exact ⟨i, Pointer.eq_repr_of_position? hi⟩
  | _ => cases htree

end Tree

namespace Patch

variable {ws : Patch} {bits : List (Path × Json)} {whole : Tree} {doc doc' : Json}

/-- Additions at places of a tree, each of what is first made there, write these places if there is room for them. -/
theorem writes_of_apply (hws : List.Forall₂ (fun w b => w.Edits (.add b.2) b.1) ws bits)
    (hstarts : ∀ b ∈ bits, whole.Starts b) (hnodup : (bits.map Prod.fst).Nodup)
    (hroom : doc.tree.HasRoom (bits.map Prod.fst)) (happly : Patch.apply ws doc = .ok doc') :
    Writes doc.tree (bits.map Prod.fst) doc'.tree := by
  induction hws generalizing doc with
  | nil =>
    obtain rfl := Except.ok.inj happly
    exact .nil _
  | @cons w b ws bits hedits _ ih =>
    obtain ⟨hfirst, hrest⟩ := List.forall_mem_cons.1 hstarts
    rw [List.map_cons] at hnodup hroom ⊢
    obtain ⟨hnew, hnodup⟩ := List.nodup_cons.1 hnodup
    rw [Patch.apply, List.foldlM_cons, hedits.apply_eq] at happly
    cases hadd : (Edit.add b.2).apply b.1 doc with
    | error fault => rw [hadd] at happly; cases happly
    | ok doc₁ =>
    rw [hadd] at happly
    have hwrite := Edit.write_of_apply hadd fun above token es hpath hes =>
      hroom (hpath ▸ List.mem_cons_self) hes
    refine .cons hfirst.1 hwrite (ih hrest hnodup (hroom.write hfirst.1 hwrite hnew fun harray token hmem => ?_) happly)
    obtain ⟨c, hc, hpath⟩ := List.mem_map.1 hmem
    obtain ⟨-, part, hpart, -⟩ := hrest c hc
    exact exists_repr_of_starts hfirst harray (by rw [← hpath, hpart]; rfl)

/-- Additions of documents keep a document a document. -/
theorem isDocument_apply (hws : ∀ w ∈ ws, ∃ v path, w.Edits (.add v) path ∧ v.isDocument = true)
    (hdoc : doc.isDocument = true) (happly : Patch.apply ws doc = .ok doc') : doc'.isDocument = true := by
  induction ws generalizing doc with
  | nil =>
    obtain rfl := Except.ok.inj happly
    exact hdoc
  | cons w rest ih =>
    obtain ⟨⟨v, path, hedits, hv⟩, hrest⟩ := List.forall_mem_cons.1 hws
    rw [Patch.apply, List.foldlM_cons, hedits.apply_eq] at happly
    cases hadd : (Edit.add v).apply path doc with
    | error fault => rw [hadd] at happly; cases happly
    | ok doc₁ =>
      rw [hadd] at happly
      exact ih hrest (Edit.isDocument_add hv hdoc hadd) happly

end Patch

end EditLens
