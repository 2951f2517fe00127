import EditLens.Convert
import EditLens.Proofs.Json.Document
import EditLens.Proofs.Lens.Growing
import EditLens.Proofs.Lens.Convert

/-! Patches of additions that let a document grow from nothing. Main statements: the small steps that
make a document let it grow place by place, and what a lens makes of them lets the rewritten document
grow. -/
namespace EditLens

open EditLens.Tree

def Json.hollow : Json → Json
  | .scalar s => .scalar s
  | .arr _ => .arr []
  | .obj _ => .obj []

theorem Json.isHollow_hollow (v : Json) : v.hollow.isHollow = true := by
  cases v <;> rfl

/-- A run of additions, each of which adds a scalar or an empty container at a new place. -/
inductive Tree.Grows : Tree → Patch → Tree → Prop
  | nil (t : Tree) : Grows t [] t
  | cons {p : PatchOp} {v : Json} {path : Path} {t t₁ t' : Tree} {rest : Patch}
    (edits : p.Edits (.add v) path) (hollow : v.isHollow = true) (part : Part t t₁)
    (write : Tree.write v.tree path (some t) = some t₁) (grows : Grows t₁ rest t') :
    Grows t (p :: rest) t'

namespace Tree.Grows

variable {t t₁ t' : Tree} {ws ws' : Patch}

theorem part (h : Grows t ws t') : Part t t' := by
  induction h with
  | nil t => exact .refl t
  | cons _ _ hpart _ _ ih => exact hpart.trans ih

private theorem append (h : Grows t ws t₁) (h' : Grows t₁ ws' t') : Grows t (ws ++ ws') t' := by
  induction h with
  | nil t => exact h'
  | cons hedits hhollow hpart hwrite _ ih => exact .cons hedits hhollow hpart hwrite (ih h')

theorem edits (h : Grows t ws t') : ∀ w ∈ ws, ∃ e path, w.Edits e path := by
  induction h with
  | nil t => simp
  | cons hedits _ _ _ _ ih => exact List.forall_mem_cons.2 ⟨⟨_, _, hedits⟩, ih⟩

/-- Each scalar of a document that has grown was there before or was added. -/
theorem exists_edits (h : Grows t ws t') {path : Path} {s : Scalar}
    (hat : t'.at? path = some (.scalar s)) :
    t.at? path = some (.scalar s) ∨ ∃ w ∈ ws, w.Edits (.add (.scalar s)) path := by
  induction h with
  | nil t => exact .inl hat
  | @cons p v path' t t₁ t' rest hedits hhollow hpart hwrite _ ih =>
    rcases ih hat with hat | ⟨w, hw, hwe⟩
    · have hv : ∀ found, v.tree.at? found = some (.scalar s) → found = [] := by
        intro found hfound
        cases found with
        | nil => rfl
        | cons token below =>
          cases v with
          | scalar r => cases hfound
          | arr es =>
            obtain rfl := List.isEmpty_iff.1 hhollow
            simp [at?] at hfound
          | obj ms =>
            obtain rfl := List.isEmpty_iff.1 hhollow
            cases hfound
      rcases at?_write hwrite hv hat with hat | ⟨rfl, hvalue⟩
      · exact .inl hat
      · obtain rfl : v = .scalar s := by
          cases v <;> simp_all
        exact .inr ⟨p, List.mem_cons_self, hedits⟩
    · exact .inr ⟨w, List.mem_cons_of_mem _ hw, hwe⟩

end Tree.Grows

/-- What a lens makes of a growing document grows by what it makes of the additions. -/
theorem Lens.grows_carryAll {lens : Lens} {t t' u' : Tree} {ws : Patch} (h : Grows t ws t')
    (hu' : lens.recast t' = some u') : ∃ u ws', lens.recast t = some u ∧
      (lens.carryAll ws).outcome = .ok ws' ∧ Grows u ws' u' := by
  induction h with
  | nil t => exact ⟨u', [], hu', rfl, .nil u'⟩
  | cons hedits hhollow hpart hwrite _ ih =>
    obtain ⟨u₁, ws', hu₁, hws', hgrows⟩ := ih hu'
    obtain ⟨u, hu, hpart'⟩ := Lens.monotone lens hpart hu₁
    rw [outcome_carryAll_cons, hws']
    rcases Lens.follows lens hedits hhollow hpart hwrite hu hu₁ with
      ⟨hdropped, rfl⟩ | ⟨q, path', v', hq, hqe, hv', -, hwrite'⟩
    · exact ⟨_, ws', hu, by rw [hdropped]; rfl, hgrows⟩
    · exact ⟨u, q :: ws', hu, by rw [hq]; rfl, .cons hqe hv' hpart' hwrite' hgrows⟩

namespace PatchOp

theorem edits_add (path : Path) (v : Json) : (PatchOp.add path v).Edits (.add v) path :=
  ⟨edit_add v, by simp [PatchOp.path, add, Members.demand, Members.get?_cons]⟩

end PatchOp

def Write.below (w : Write) (path : Path) : Json → Patch
  | .scalar _ => []
  | .arr es => w.elementSteps path 0 es
  | .obj ms => w.memberSteps path ms

theorem Write.steps_eq (w : Write) (path : Path) (v : Json) :
    w.steps path v = w.toOp path v.hollow :: w.below path v := by
  cases v <;> rfl

mutual

/-- The steps that write a value let it grow in its place. -/
theorem Write.grows_steps (v : Json) (hv : v.isDocument = true) {path : Path} {t : Tree}
    {C : Tree → Tree} (hC : IsContext path (some t) C)
    (hstart : Part t (C v.hollow.tree)) : Grows t (Write.add.steps path v) (C v.tree) := by
  match v with
  | .scalar s => exact .cons (PatchOp.edits_add path _) rfl hstart (hC.write _) (.nil _)
  | .arr es =>
    rw [Json.tree_arr]
    exact .cons (PatchOp.edits_add path _) rfl hstart (hC.write _)
      (Write.grows_elementSteps es (Json.isDocument_arr.1 hv) [] hC)
  | .obj ms =>
    rw [Json.tree_obj]
    rw [Json.isDocument_obj] at hv
    exact .cons (PatchOp.edits_add path _) rfl hstart (hC.write _)
      (Write.grows_memberSteps ms hv (fun _ => none) (fun _ _ => rfl) hC (fun k => by simp))

/-- The elements are added behind those that are there. -/
private theorem Write.grows_elementSteps (es : List Json) (hes : ∀ e ∈ es, e.isDocument = true)
    (done : List Tree) {path : Path} {o : Option Tree} {C : Tree → Tree} (hC : IsContext path o C) :
    Grows (C (.arr done))
      (Write.add.elementSteps path done.length es) (C (.arr (done ++ es.map Json.tree))) := by
  match es with
  | [] =>
    rw [List.map_nil, List.append_nil]
    exact .nil _
  | e :: rest =>
    rw [List.forall_mem_cons] at hes
    have hlast := hC.comp (by simp) (IsContext.last done)
    have hstart : Part (C (.arr done)) (C (.arr (done ++ [e.hollow.tree]))) :=
      hC.mono (.arr (.append_right done [e.hollow.tree]))
    have hrest := Write.grows_elementSteps rest hes.2 (done ++ [e.tree]) hC
    rw [List.length_append, List.append_assoc] at hrest
    exact (Write.grows_steps e hes.1 hlast hstart).append hrest

/-- The members are added to others with other names. -/
private theorem Write.grows_memberSteps (ms : List (Scalar × Json)) (hms : Members.AreDocument ms)
    (f : String → Option Tree) (hfree : ∀ name : String, Members.has ms name = true → f name = none)
    {path : Path} {o : Option Tree} {C : Tree → Tree} (hC : IsContext path o C)
    {g : String → Option Tree}
    (hg : ∀ k, g k = (Members.trees ms k).or (f k)) :
    Grows (C (.obj f)) (Write.add.memberSteps path ms) (C (.obj g)) := by
  match ms with
  | [] =>
    obtain rfl : f = g := funext fun k => by simp [hg]
    exact .nil _
  | (k, v) :: rest =>
    obtain ⟨name, rfl, hname, hv, hrest⟩ := Members.areOf_cons.1 hms
    have hmember := hC.comp (by simp) (IsContext.member f name)
    have hf : f name = none := hfree name (by simp [Members.has, Members.get?_cons])
    have hstart : Part (C (.obj f)) (C (.obj (Function.update f name (some v.hollow.tree)))) := by
      refine hC.mono ?_
      nth_rewrite 1 [← Function.update_eq_self name f]
      rw [hf]
      exact .update (.absent _)
    refine (Write.grows_steps v hv hmember hstart).append
      (Write.grows_memberSteps rest hrest _ (fun other hother => ?_) hC fun other => ?_)
    · have hne : other ≠ name := by
        rintro rfl
        rw [Members.has_eq_false.2 hname] at hother
        cases hother
      rw [Function.update_of_ne hne]
      refine hfree other ?_
      rwa [Members.has, Members.get?_cons, if_neg (by simpa using Ne.symm hne)]
    · rw [hg, Members.trees_cons]
      by_cases hother : other = name
      · subst hother
        simp [Members.trees, hname]
      · simp [hother]

end

/-- The parts grow in a value that is without them. -/
theorem Write.grows_below {v : Json} (hv : v.isDocument = true) {path : Path} {o : Option Tree}
    {C : Tree → Tree} (hC : Tree.IsContext path o C) :
    Tree.Grows (C v.hollow.tree) (Write.add.below path v) (C v.tree) := by
  cases v with
  | scalar s => exact .nil _
  | arr es =>
    rw [Json.tree_arr]
    exact Write.grows_elementSteps es (Json.isDocument_arr.1 hv) [] hC
  | obj ms =>
    rw [Json.tree_obj]
    exact Write.grows_memberSteps ms (Json.isDocument_obj.1 hv) (fun _ => none) (fun _ _ => rfl) hC
      fun k => by simp

/-- The small steps of the patch that makes an object are those of its members. -/
theorem Patch.expand_creating (ms : Members) :
    Patch.expand ((Patch.creating (.obj ms)).map PatchOp.toJson) =
      .ok (Write.add.memberSteps [] ms) := by
  rw [creating]
  induction ms with
  | nil => rfl
  | cons m rest ih =>
    obtain ⟨k, v⟩ := m
    rw [Write.memberSteps, List.map_cons, List.map_cons]
    refine Patch.expand_cons ?_ ih
    have hp := PatchOp.edits_add [k.plain] v
    have hverb := PatchOp.verb_of_edit hp.edit
    have hvalue := PatchOp.value_of_edit hp.edit (v := v) rfl
    simp only [PatchOp.expand, hverb, hvalue, hp.path]
    cases v <;> rfl

/-- An object grows from nothing by the small steps of the patch that makes it. -/
theorem Patch.grows_creating {ms : Members} (hms : ms.AreDocument) :
    Grows (.obj fun _ => none) (Write.add.memberSteps [] ms) (.obj ms.trees) :=
  Write.grows_memberSteps ms hms (fun _ => none) (fun _ _ => rfl) (IsContext.root none)
    fun k => by simp

end EditLens
