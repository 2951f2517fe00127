import EditLens.Proofs.Lens.Landing
import EditLens.Proofs.Patch.Parts
import EditLens.Proofs.Schema.Simple
import EditLens.Proofs.Schema.Stepwise

/-! Documents made anew by the steps that come out of a lens, with defaults among them. Main statement: a
document that a simple schema admits becomes one that is admitted by the schema that comes out. -/
namespace EditLens

open Form Schema EditLens.Tree

/-- What an edit and the defaults below it make of a document. -/
def Makes (written : Json) (e : Edit) (path : Path) (doc : Json) (holds : Tree → Prop) : Prop :=
  ∀ q : PatchOp, q.Edits e path → ∃ qs doc', (filledOp written q).outcome = .ok qs ∧
    (∀ r ∈ qs, ∃ e path, r.Edits e path) ∧ (Patch.applyIfThere doc qs).outcome = .ok doc' ∧
    doc'.isDocument = true ∧ holds doc'.tree

/-- What the steps of a patch make of a document once a lens has taken them and defaults are filled in. A
table may not have a key that is looked up. -/
inductive Replays (lens : Lens) (written : Json) (steps : Patch) (doc : Json) (holds : Tree → Prop) : Prop
  | unmapped {key : String} (missing : Lens.Misses lens key)
    (h : (lens.carryAll steps).outcome = .error (.unmapped key)) : Replays lens written steps doc holds
  | done {ps qs : Patch} {doc' : Json} (carried : (lens.carryAll steps).outcome = .ok ps)
    (filled : (Schema.filled written ps).outcome = .ok qs) (edits : ∀ r ∈ qs, ∃ e path, r.Edits e path)
    (applied : (Patch.applyIfThere doc qs).outcome = .ok doc') (document : doc'.isDocument = true)
    (h : holds doc'.tree) : Replays lens written steps doc holds

private theorem Patch.outcome_applyIfThere_append (doc : Json) (ps qs : Patch) :
    (Patch.applyIfThere doc (ps ++ qs)).outcome = (do
      (Patch.applyIfThere (← (Patch.applyIfThere doc ps).outcome) qs).outcome) := by
  induction ps generalizing doc with
  | nil => rfl
  | cons p rest ih =>
    rw [List.cons_append, applyIfThere, applyIfThere, Noted.outcome_bind, Noted.outcome_bind]
    cases (p.applyIfThere doc).outcome with
    | error fault => rfl
    | ok doc' => exact ih doc'

namespace Replays

variable {lens : Lens} {written doc : Json} {ps qs steps : Patch} {p : PatchOp} {e : Edit} {path : Path}
  {holds holds' : Tree → Prop}

private theorem nil (hdoc : doc.isDocument = true) (h : holds doc.tree) : Replays lens written [] doc holds :=
  .done rfl rfl (by simp) rfl hdoc h

private theorem mono (h : Replays lens written steps doc holds) (himp : ∀ t, holds t → holds' t) :
    Replays lens written steps doc holds' := by
  cases h with
  | unmapped hmissing h => exact .unmapped hmissing h
  | done hcarried hfilled hedits happlied hdoc h => exact .done hcarried hfilled hedits happlied hdoc (himp _ h)

private theorem append (h : Replays lens written ps doc holds)
    (h' : ∀ doc' : Json, doc'.isDocument = true → holds doc'.tree → Replays lens written qs doc' holds') :
    Replays lens written (ps ++ qs) doc holds' := by
  cases h with
  | unmapped hmissing h => exact .unmapped hmissing (by rw [Lens.outcome_carryAll_append, h]; rfl)
  | @done ps₁ qs₁ doc₁ hcarried hfilled hedits happlied hdoc h =>
    cases h' _ hdoc h with
    | unmapped hmissing h' =>
      exact .unmapped hmissing (by rw [Lens.outcome_carryAll_append, hcarried, h']; rfl)
    | @done ps₂ qs₂ doc₂ hcarried' hfilled' hedits' happlied' hdoc' h' =>
      have hall : (lens.carryAll (ps ++ qs)).outcome = .ok (ps₁ ++ ps₂) := by
        rw [Lens.outcome_carryAll_append, hcarried, hcarried']
        rfl
      have hfills : (Schema.filled written (ps₁ ++ ps₂)).outcome = .ok (qs₁ ++ qs₂) := by
        rw [outcome_filled_append, hfilled, hfilled']
        rfl
      refine .done hall hfills (List.forall_mem_append.2 ⟨hedits, hedits'⟩) ?_ hdoc' h'
      rw [Patch.outcome_applyIfThere_append, happlied]
      exact happlied'

/-- A step that is left makes what its edit makes. -/
private theorem landed {e' : Edit} {path' : Path} (hp : p.Edits e path)
    (htake : Lens.take e path lens = .ok (some (e', path'))) (hmakes : Makes written e' path' doc holds) :
    Replays lens written [p] doc holds := by
  have hcomes := Lens.comes lens hp
  rw [htake] at hcomes
  generalize hcarry : (Lens.carry p lens).outcome = carried at hcomes
  cases hcomes with
  | @carried q _ _ hq =>
    obtain ⟨qs, doc', hfilled, hedits, happlied, hdoc', h⟩ := hmakes _ hq
    have hcarried : (lens.carryAll [p]).outcome = .ok [q] := by
      rw [Lens.outcome_carryAll_cons, hcarry]
      rfl
    refine .done hcarried ?_ hedits happlied hdoc' h
    simp [Schema.filled, Noted.gather, hfilled]

/-- One step does what is made of its edit. -/
private theorem single {places : Path → Edit → Prop} (hp : p.Edits e path) (hdoc : doc.isDocument = true)
    (hlands : Lands places (Lens.Misses lens) (Lens.take e path lens)) (hdropped : holds doc.tree)
    (hmakes : ∀ path e, places path e → Makes written e path doc holds) :
    Replays lens written [p] doc holds := by
  generalize htake : Lens.take e path lens = taken at hlands
  cases hlands with
  | lands h => exact landed hp htake (hmakes _ _ h)
  | unmapped hkey =>
    have hcomes := Lens.comes lens hp
    rw [htake] at hcomes
    refine .unmapped hkey ?_
    rw [Lens.outcome_carryAll_cons]
    generalize (Lens.carry p lens).outcome = carried at hcomes
    cases hcomes with
    | unmapped => rfl
  | dropped =>
    have hcomes := Lens.comes lens hp
    rw [htake] at hcomes
    have hcarried : (Lens.carryAll lens [p]).outcome = .ok [] := by
      rw [Lens.outcome_carryAll_cons]
      generalize (Lens.carry p lens).outcome = carried at hcomes
      cases hcomes with
      | dropped => rfl
    exact .done hcarried rfl (by simp) rfl hdoc hdropped

/-- Steps that are dropped do nothing. -/
private theorem dropped (hdoc : doc.isDocument = true) (h : holds doc.tree)
    (hsteps : ∀ p ∈ steps, ∃ e path, p.Edits e path ∧ (Lens.take e path lens = .ok none ∨
      ∃ key, Lens.Misses lens key ∧ Lens.take e path lens = .error (.unmapped key))) :
    Replays lens written steps doc holds := by
  induction steps generalizing doc with
  | nil => exact .nil hdoc h
  | cons p rest ih =>
    obtain ⟨⟨e, path, hp, htake⟩, hrest⟩ := List.forall_mem_cons.1 hsteps
    have hlands : Lands (fun _ _ => False) (Lens.Misses lens) (Lens.take e path lens) := by
      rcases htake with htake | ⟨key, hkey, htake⟩
      · rw [htake]
        exact .dropped
      · rw [htake]
        exact .unmapped hkey
    exact (single hp hdoc hlands h fun _ _ => False.elim).append fun doc' hdoc' h' => ih hdoc' h' hrest

end Replays

/-- A part that is made anew at a place below which a lens of its own takes the edits. The schema of the new
shape tells the form at the place. -/
structure Framed (lens : Lens) (written : Json) (above place : Path) (inner : Lens) (τ τ' : Form) : Prop where
  take : ∀ rest e, τ.Permits rest e →
    Lens.take e (above ++ rest) lens = behind place (Lens.take e rest inner)
  reforms : Lens.Reforms inner τ τ'
  fewer : ∀ key, Lens.Misses inner key → Lens.Misses lens key
  told : ∃ whole, HasForm written whole ∧ whole.at? place = some τ'

/-- A place below what stands at a place, or that place itself. -/
private theorem Tree.IsContext.exists_comp {C D : Tree → Tree} {path rest : Path} {o : Option Tree} {a : Tree}
    (hC : IsContext path o C) (hD : IsContext rest (some a) D) : ∃ o, IsContext (path ++ rest) o (C ∘ D) := by
  cases rest with
  | nil =>
    obtain rfl : id = D := funext fun v => Option.some.inj (hD.write v)
    exact ⟨o, by rwa [List.append_nil]⟩
  | cons token rest => exact ⟨_, hC.comp (by simp) hD⟩

private theorem Form.Permits.of_reaches {σ τ : Form} {path : Path} {e : Edit} (h : σ.Permits path e)
    (hreach : Reaches σ path τ) : ∃ v, e = .add v ∧ τ.Allows v := by
  induction hreach with
  | here σ =>
    cases h with
    | here h => exact ⟨_, rfl, h⟩
    | free _ h => exact ⟨_, rfl, h⟩
  | member described below ih =>
    obtain ⟨υ, hυ, h⟩ := permits_obj.1 h
    exact ih (by rwa [Option.some.inj (described.symm.trans hυ)])

namespace Framed

variable {lens inner : Lens} {written doc v : Json} {above place rest path : Path} {τ τ' υ : Form} {C : Tree → Tree}
  {o : Option Tree} {t : Tree} {e : Edit}

/-- An addition with the defaults below it makes a part of the form that is told. -/
private theorem makes_add (h : Framed lens written above place inner τ τ') (hat : τ'.at? rest = some υ)
    (hC : IsContext (place ++ rest) (some doc.tree) C) (hdoc : doc.isDocument = true) (hv : υ.Allows v) :
    Makes written (.add v) (place ++ rest) doc fun u => ∃ w, u = C w ∧ υ.Fits true w ∧
      (v ≠ .emptyObject ∨ υ = .any → w = v.tree) := by
  intro q hq
  obtain ⟨whole, hform, hwhole⟩ := h.told
  obtain ⟨fillings, w, hfilled, hbelow, hw⟩ := hform.shaped.exists_filledOp hq
  obtain ⟨doc₁, happly, htree₁⟩ := Edit.exists_apply_of_write (hC.write v.tree)
  have hdoc₁ := Edit.isDocument_add (Json.isDocument_of_isHollow hv.isHollow) hdoc happly
  obtain ⟨doc', hfillings, hdoc', htree'⟩ := hbelow.exists_apply hC hdoc₁ htree₁
  refine ⟨q :: fillings, doc', hfilled, List.forall_mem_cons.2 ⟨⟨_, _, hq⟩, hbelow.edits⟩,
    Patch.outcome_applyIfThere (Patch.apply_cons (by rw [hq.apply_eq, happly]) hfillings), hdoc', w, htree', ?_⟩
  rcases hw with ⟨hne, rfl⟩ | ⟨rfl, part, f, hpart, hblank, rfl⟩
  · exact ⟨hv.fits hne, fun _ => rfl⟩
  · obtain ⟨part', hpart', hforms⟩ := hform.locate_eq (show whole.at? (place ++ rest) = some υ by
      rw [Form.at?_append, hwhole, Option.bind_some, hat])
    obtain rfl := Except.ok.inj (hpart'.symm.trans hpart)
    rcases hforms with hpartform | ⟨rfl, rfl⟩
    · cases υ with
      | obj g => exact ⟨hpartform.blank rfl hblank, by simp⟩
      | any => cases hpartform
      | leaf type => cases hv
      | arr wraps σ => cases hv
    · -- Nothing is filled in where nothing is described.
      refine ⟨.any _, fun _ => ?_⟩
      cases hblank with
      | mk members _ others =>
      obtain rfl := Except.ok.inj (show Except.ok [] = _ from members)
      rw [show Json.emptyObject.tree = .obj fun _ => none from Json.tree_obj []]
      exact congrArg Tree.obj (funext fun name => others name rfl)

/-- The first element of an array of scalars can be added, and removed if there is one. -/
private theorem makes_first {wraps : Bool} {type : String} (hpermits : (Form.arr wraps (.leaf type)).Permits ["0"] e)
    (hC : IsContext path o C) (hdoc : doc.isDocument = true) (htree : doc.tree = C t)
    (hfits : (Form.arr wraps (.leaf type)).Fits true t) :
    Makes written e (path ++ ["0"]) doc fun u => ∃ w, u = C w ∧ (Form.arr wraps (.leaf type)).Fits true w := by
  intro q hq
  obtain ⟨part, hpart, rfl, hput⟩ := hC.exists_part htree
  obtain ⟨js, rfl⟩ : ∃ js, part = .arr js := by
    cases part with
    | arr js => exact ⟨js, rfl⟩
    | scalar s => cases hfits
    | obj ms => rw [Json.tree_obj] at hfits; cases hfits
  rw [Json.tree_arr, Fits.arr_iff] at hfits
  have hjs := Json.isDocument_arr.1 (Json.isDocument_partAt hdoc hpart)
  have hresult : ∃ ks, e.applyIfThere ["0"] (.arr js) = .ok (.arr ks) ∧ (∀ k ∈ ks, k.isDocument = true) ∧
      (∀ k ∈ ks, (Form.leaf type).Fits true k.tree) ∧ e.written? ≠ some .emptyObject := by
    have hjs' : ∀ k ∈ js, (Form.leaf type).Fits true k.tree := fun k hk => hfits _ (List.mem_map_of_mem hk)
    generalize hpath : ["0"] = front at hpermits
    cases hpermits with
    | here => cases hpath
    | null i =>
      rw [← hpath]
      cases js with
      | nil => exact ⟨[], rfl, by simp, by simp, by simp [Edit.written?]⟩
      | cons j js =>
        rw [List.forall_mem_cons] at hjs hjs'
        exact ⟨js, rfl, hjs.2, hjs'.2, by simp [Edit.written?]⟩
    | element i below =>
      obtain rfl := (List.cons.inj hpath).2
      rw [← hpath]
      cases below with
      | @here _ v hv =>
        have hne : v ≠ .emptyObject := by
          rintro rfl
          cases hv
        refine ⟨v :: js, rfl, List.forall_mem_cons.2 ⟨Json.isDocument_of_isHollow hv.isHollow, hjs⟩,
          List.forall_mem_cons.2 ⟨hv.fits hne, hjs'⟩, by simpa [Edit.written?] using hne⟩
  obtain ⟨ks, happly, hks, hksfits, hne⟩ := hresult
  have hplain : (filledOp written q).outcome = .ok [q] := outcome_filledOp_of_ne written hq hne
  refine ⟨[q], Json.putAt (.arr ks) path doc, hplain, by simpa using ⟨e, _, hq⟩, ?_,
    Json.isDocument_putAt hdoc (Json.isDocument_arr.2 hks) path, _, hput _, ?_⟩
  · simp [Patch.applyIfThere, hq.outcome_applyIfThere,
      Edit.applyIfThere_append hpart (List.cons_ne_nil "0" []), happly]
  · rw [Json.tree_arr, Fits.arr_iff]
    intro u hu
    obtain ⟨k, hk, rfl⟩ := List.mem_map.1 hu
    exact hksfits k hk

/-- An edit at a place of the form that is told keeps the form. -/
private theorem makes_near (h : Framed lens written above place inner τ τ') (hC : IsContext place o C)
    (hdoc : doc.isDocument = true) (htree : doc.tree = C t) (hfits : τ'.Fits true t)
    (hplaces : τ'.Places True path e) (hne : path ≠ []) :
    Makes written e (place ++ path) doc fun u => ∃ t', u = C t' ∧ τ'.Fits true t' := by
  rcases (hplaces.2 trivial).cases with ⟨υ, hreach⟩ | ⟨front, wraps, type, rfl, hreach⟩
  · obtain ⟨v, rfl, hv⟩ := hplaces.1.of_reaches hreach
    obtain ⟨a, D, hD, rfl, ha, hput⟩ := hfits.exists_context hreach
    have hcomp := hC.comp hne hD
    rw [← htree] at hcomp
    intro q hq
    obtain ⟨qs, doc', hfilled, hedits, happlied, hdoc', w, hw, hwfits, -⟩ :=
      h.makes_add hreach.at? hcomp hdoc hv q hq
    exact ⟨qs, doc', hfilled, hedits, happlied, hdoc', D w, hw, hput w hwfits⟩
  · obtain ⟨a, D, hD, rfl, ha, hput⟩ := hfits.exists_context hreach
    obtain ⟨o', hcomp⟩ := hC.exists_comp hD
    have hpermits := hplaces.1.of_append hreach.at? (by simp)
    rw [← List.append_assoc]
    intro q hq
    obtain ⟨qs, doc', hfilled, hedits, happlied, hdoc', w, hw, hwfits⟩ :=
      makes_first hpermits hcomp hdoc htree ha q hq
    exact ⟨qs, doc', hfilled, hedits, happlied, hdoc', D w, hw, hput w hwfits⟩

/-- The first step for a part makes the part, and one whose parts go with it is made without them. -/
private theorem replays_first (h : Framed lens written above place inner τ τ')
    (hC : IsContext place (some doc.tree) C) (hdoc : doc.isDocument = true) (hallows : τ.Allows v) :
    Replays lens written [Write.add.toOp above v] doc fun u =>
      ∃ w, u = C w ∧ τ'.Fits true w ∧ (τ.IsWhole → w = v.tree) := by
  have htake := h.take [] (.add v) (.here hallows)
  rw [Lens.take_root] at htake
  have hmakes := h.makes_add at?_nil (by rwa [List.append_nil]) hdoc (h.reforms.allows hallows)
  refine .landed (PatchOp.edits_add above v) (by rwa [List.append_nil] at htake) ?_
  intro q hq
  obtain ⟨qs, doc', hfilled, hedits, happlied, hdoc', w, hw, hfits, heq⟩ := hmakes q hq
  refine ⟨qs, doc', hfilled, hedits, happlied, hdoc', w, hw, hfits, fun hwhole => heq ?_⟩
  rcases hwhole with rfl | ⟨wraps, σ, rfl⟩
  · exact .inr (h.reforms.eq_of_flat (.inl rfl)).2
  · refine .inl ?_
    rintro rfl
    cases hallows

/-- A step at a place in an object keeps the form. -/
private theorem replays_near (h : Framed lens written above place inner τ τ') (hC : IsContext place o C)
    (hdoc : doc.isDocument = true) (htree : doc.tree = C t) (hfits : τ'.Fits true t)
    (hreach : Reaches τ rest υ) (hrest : rest ≠ []) (hallows : υ.Allows v) :
    Replays lens written [Write.add.toOp (above ++ rest) v] doc fun u => ∃ t', u = C t' ∧ τ'.Fits true t' := by
  have hpermits : τ.Permits rest (.add v) := by
    rw [← List.append_nil rest]
    exact Permits.append hreach.at? (.here hallows)
  have hlands : Lands (fun path e => ∃ rest, path = place ++ rest ∧ rest ≠ [] ∧ τ'.Places True rest e)
      (Lens.Misses lens) (Lens.take (.add v) (above ++ rest) lens) := by
    have hplaces : τ.Places True rest (.add v) := ⟨hpermits, fun _ => hreach.near⟩
    have hmoves := Lens.moves inner h.reforms hplaces
    have hne : ∀ e' path', Lens.take (.add v) rest inner = .ok (some (e', path')) → path' ≠ [] :=
      fun _ _ => Lens.ne_nil_of_take hrest
    rw [h.take rest _ hpermits]
    generalize Lens.take (.add v) rest inner = taken at hmoves hne
    cases hmoves with
    | unmapped hkey => exact .unmapped (h.fewer _ hkey)
    | dropped => exact .dropped
    | lands hplaces => exact .lands ⟨_, rfl, hne _ _ rfl, hplaces⟩
  refine .single (PatchOp.edits_add _ v) hdoc hlands ⟨t, htree, hfits⟩ ?_
  rintro _ e ⟨below, rfl, hbelow, hplaces⟩
  exact h.makes_near hC hdoc htree hfits hplaces hbelow

/-- Where anything goes, a value grows as it is. -/
private theorem replays_grows {ps qs : Patch} {t t' : Tree} (h : Framed lens written above place [] .any .any)
    (hgrows : Grows t qs t') (hshifted : List.Forall₂ (Shifted above place) ps qs)
    (hdoc : doc.isDocument = true) (htree : doc.tree = t) :
    Replays lens written ps doc fun u => u = t' := by
  induction hgrows generalizing ps doc with
  | nil t =>
    cases hshifted
    exact .nil hdoc htree
  | @cons q v path t t₁ t' qs hedits hhollow _ hwrite _ ih =>
    cases hshifted with
    | @cons p _ ps _ hstep hsteps =>
    obtain ⟨w, rest, hp, hq⟩ := hstep
    obtain ⟨rfl⟩ : v = w := by simpa [hedits.edit] using hq.edit
    obtain rfl : path = place ++ rest := by simpa [hedits.path] using hq.path
    obtain ⟨D, hD⟩ := exists_context hwrite
    obtain rfl := Option.some.inj ((hD.write v.tree).symm.trans hwrite)
    have hmakes := h.makes_add at?_any (htree.symm ▸ hD) hdoc (v := v) hhollow
    have hfirst : Replays lens written [p] doc fun u => u = D v.tree := by
      refine .landed hp (h.take rest (.add v) (.free rest hhollow)) fun q hq => ?_
      obtain ⟨qs, doc', hfilled, hqs, happlied, hdoc', w, hw, -, heq⟩ := hmakes q hq
      exact ⟨qs, doc', hfilled, hqs, happlied, hdoc', by rw [hw, heq (.inr rfl)]⟩
    exact hfirst.append fun doc' hdoc' htree' => ih hsteps hdoc' htree'

end Framed

/-- The steps below a value, at a place that members of a part lead to, keep the form of the part. What goes to
a place together is the part itself, and has been made without its parts. -/
def Keeps (lens : Lens) (written v : Json) : Prop :=
  ∀ {above place rest : Path} {inner : Lens} {τ τ' σ : Form} {o : Option Tree} {C : Tree → Tree} {doc : Json}
    {t : Tree}, Framed lens written above place inner τ τ' → Reaches τ rest σ →
    (σ.IsWhole → rest = [] ∧ t = v.hollow.tree) → σ.Fits false v.tree → IsContext place o C →
    doc.isDocument = true → doc.tree = C t → τ'.Fits true t →
    Replays lens written (Write.add.below (above ++ rest) v) doc fun u => ∃ t', u = C t' ∧ τ'.Fits true t'

namespace Framed

variable {lens inner : Lens} {written doc v : Json} {above place rest : Path} {τ τ' σ : Form} {C : Tree → Tree}
  {o : Option Tree} {t : Tree}

/-- A value of which nothing is known grows as it is. -/
private theorem keeps_any (h : Framed lens written above place inner .any τ') (hv : v.isDocument = true)
    (hC : IsContext place o C) (hdoc : doc.isDocument = true) (htree : doc.tree = C v.hollow.tree) :
    Replays lens written (Write.add.below above v) doc fun u => ∃ t', u = C t' ∧ τ'.Fits true t' := by
  obtain ⟨rfl, rfl⟩ := h.reforms.eq_of_flat (.inl rfl)
  refine (h.replays_grows (Write.grows_below hv hC) (Write.shifted_below v above place) hdoc htree).mono ?_
  rintro _ rfl
  exact ⟨v.tree, rfl, .any _⟩

/-- A part that goes elsewhere together with what is below it is made anew there. -/
private theorem keeps_whole (h : Framed lens written above place inner τ τ') (ih : Keeps lens written v)
    (hτ : ¬ τ'.IsWhole) (hv : v.isDocument = true) (hreach : Reaches τ rest σ) (hwhole : σ.IsWhole)
    (hfits : σ.Fits false v.tree) (hC : IsContext place o C) (hdoc : doc.isDocument = true)
    (htree : doc.tree = C t) (ht : τ'.Fits true t) :
    Replays lens written (Write.add.steps (above ++ rest) v) doc fun u => ∃ t', u = C t' ∧ τ'.Fits true t' := by
  have hstep : ∀ below e, σ.Permits below e →
      Lens.take e ((above ++ rest) ++ below) lens = behind place (Lens.take e (rest ++ below) inner) :=
    fun below e hpermits => by rw [List.append_assoc, h.take _ e (hpermits.append hreach.at?)]
  cases Lens.relocates inner h.reforms hreach hwhole with
  | dropped hdropped =>
    refine .dropped hdoc ⟨t, htree, ht⟩ fun p hp => ?_
    obtain ⟨w, below, hedits, hpermits⟩ := Write.permitted_steps v hv hfits (above ++ rest) p hp
    refine ⟨_, _, hedits, ?_⟩
    rw [hstep below _ hpermits]
    rcases hdropped below _ hpermits with hnone | ⟨key, hkey, herror⟩
    · exact .inl (by rw [hnone]; rfl)
    · exact .inr ⟨key, h.fewer key hkey, by rw [herror]; rfl⟩
  | @moved place' inner' υ reach reforms fewer hmoved =>
    have hplace : place' ≠ [] := by
      rintro rfl
      cases reach with
      | here => exact hτ (reforms.isWhole hwhole)
    obtain ⟨whole, hform, hat⟩ := h.told
    have hframed : Framed lens written (above ++ rest) (place ++ place') inner' σ υ :=
      ⟨fun below e hpermits => by rw [hstep below e hpermits, hmoved below e hpermits, behind_append], reforms,
        fun key hkey => h.fewer key (fewer key hkey),
        whole, hform, by rw [Form.at?_append, hat, Option.bind_some, reach.at?]⟩
    obtain ⟨a, D, hD, rfl, ha, hput⟩ := ht.exists_context reach
    have hcomp := hC.comp hplace hD
    rw [Write.steps_eq, ← List.singleton_append]
    refine (hframed.replays_first (htree.symm ▸ hcomp) hdoc hfits.allows).append fun doc' hdoc' hmade => ?_
    obtain ⟨w, hw, hwfits, heq⟩ := hmade
    have hbelow := ih hframed (.here σ) (fun hwhole => ⟨rfl, heq hwhole⟩) hfits hcomp hdoc' hw hwfits
    rw [List.append_nil] at hbelow
    refine hbelow.mono ?_
    rintro _ ⟨t', rfl, ht'⟩
    exact ⟨D t', rfl, hput t' ht'⟩

/-- The steps for a member of an object, and those below it, keep the form of the whole. -/
private theorem keeps_member (h : Framed lens written above place inner τ τ') (ih : Keeps lens written v)
    (hτ : ¬ τ'.IsWhole) (hv : v.isDocument = true) (hreach : Reaches τ rest σ) (hrest : rest ≠ [])
    (hfits : σ.Fits false v.tree) (hC : IsContext place o C) (hdoc : doc.isDocument = true)
    (htree : doc.tree = C t) (ht : τ'.Fits true t) :
    Replays lens written (Write.add.steps (above ++ rest) v) doc fun u => ∃ t', u = C t' ∧ τ'.Fits true t' := by
  by_cases hwhole : σ.IsWhole
  · exact h.keeps_whole ih hτ hv hreach hwhole hfits hC hdoc htree ht
  · rw [Write.steps_eq, ← List.singleton_append]
    refine (h.replays_near hC hdoc htree ht hreach hrest hfits.allows).append fun doc' hdoc' hmade => ?_
    obtain ⟨t', htree', ht'⟩ := hmade
    exact ih h hreach (fun h => absurd h hwhole) hfits hC hdoc' htree' ht'

end Framed

mutual

/-- The steps below a value keep the form of what it becomes a part of. -/
theorem keeps (lens : Lens) (written : Json) (v : Json) (hv : v.isDocument = true) :
    Keeps lens written v := by
  match v with
  | .scalar s =>
    intro above place rest inner τ τ' σ o C doc t h hreach hstart hfits hC hdoc htree ht
    exact .nil hdoc ⟨t, htree, ht⟩
  | .arr es =>
    intro above place rest inner τ τ' σ o C doc t h hreach hstart hfits hC hdoc htree ht
    rw [Json.tree_arr] at hfits
    cases hfits with
    | any =>
      obtain ⟨rfl, rfl⟩ := hstart (.inl rfl)
      cases hreach with
      | here =>
      rw [List.append_nil]
      exact h.keeps_any hv hC hdoc htree
    | @arr wraps σ _ elements =>
      obtain ⟨rfl, rfl⟩ := hstart (.inr ⟨wraps, σ, rfl⟩)
      cases hreach with
      | here =>
      obtain ⟨υ, inner', rfl, hreforms, hmisses, htake⟩ := h.reforms.exists_elements
      obtain ⟨whole, hform, hat⟩ := h.told
      have hframes : ∀ i : Nat, Framed lens written (above ++ [i.repr]) (place ++ [i.repr]) inner' σ υ :=
        fun i => ⟨fun below e hpermits => by
            rw [List.append_assoc, List.singleton_append, h.take _ e (.element i hpermits), htake, behind_append],
          hreforms, fun key hkey => h.fewer key (hmisses key hkey),
          whole, hform, by rw [Form.at?_append, hat, Option.bind_some, at?_arr, at?_nil]⟩
      rw [List.append_nil]
      exact keepsElements lens written es (Json.isDocument_arr.1 hv) wraps
        (fun e he => elements _ (List.mem_map_of_mem he)) hframes hC hdoc []
        (htree.trans (by rw [Json.hollow, Json.tree_arr]; rfl)) (by simp)
  | .obj ms =>
    intro above place rest inner τ τ' σ o C doc t h hreach hstart hfits hC hdoc htree ht
    rw [Json.tree_obj] at hfits
    cases hfits with
    | any =>
      obtain ⟨rfl, rfl⟩ := hstart (.inl rfl)
      cases hreach with
      | here =>
      rw [List.append_nil]
      exact h.keeps_any hv hC hdoc htree
    | @obj f _ known filled parts =>
      have hms := Json.isDocument_obj.1 hv
      refine keepsMembers lens written ms hms (fun name v hv => ?_) h hreach hC hdoc htree ht
      have htree' : Members.trees ms name = some v.tree := by
        rw [Members.trees, Members.get?_of_mem hms.distinct hv, Option.map_some]
      obtain ⟨σ, hσ, hfits⟩ := (Fits.obj known filled parts).exists_form htree'
      exact ⟨σ, hσ, hfits⟩

private theorem keepsElements (lens : Lens) (written : Json) (es : List Json)
    (hes : ∀ e ∈ es, e.isDocument = true) (wraps : Bool) {σ υ : Form} (hfits : ∀ e ∈ es, σ.Fits false e.tree)
    {above place : Path} {inner : Lens}
    (h : ∀ i : Nat, Framed lens written (above ++ [i.repr]) (place ++ [i.repr]) inner σ υ)
    {o : Option Tree} {C : Tree → Tree} (hC : IsContext place o C) {doc : Json} (hdoc : doc.isDocument = true)
    (done : List Tree) (htree : doc.tree = C (.arr done)) (hdone : ∀ t ∈ done, υ.Fits true t) :
    Replays lens written (Write.add.elementSteps above done.length es) doc fun u =>
      ∃ t', u = C t' ∧ (Form.arr wraps υ).Fits true t' := by
  match es with
  | [] => exact .nil hdoc ⟨_, htree, .arr hdone⟩
  | e :: rest =>
    rw [List.forall_mem_cons] at hes hfits
    have hlast := hC.comp (by simp) (IsContext.last done)
    rw [Write.elementSteps, Write.steps_eq, ← List.singleton_append, List.append_assoc]
    refine ((h done.length).replays_first (htree.symm ▸ hlast) hdoc hfits.1.allows).append
      fun doc' hdoc' hmade => ?_
    obtain ⟨w, hw, hwfits, heq⟩ := hmade
    have hbelow := keeps lens written e hes.1 (h done.length) (.here σ) (fun hwhole => ⟨rfl, heq hwhole⟩) hfits.1
      hlast hdoc' hw hwfits
    rw [List.append_nil] at hbelow
    refine hbelow.append fun doc' hdoc' hmade => ?_
    obtain ⟨t, ht, htfits⟩ := hmade
    have hrest := keepsElements lens written rest hes.2 wraps hfits.2 h hC hdoc' (done ++ [t]) ht
      (List.forall_mem_append.2 ⟨hdone, by simpa using htfits⟩)
    rwa [List.length_append] at hrest

private theorem keepsMembers (lens : Lens) (written : Json) (ms : List (Scalar × Json))
    (hms : Members.AreDocument ms) {f : String → Option Form}
    (hfits : ∀ (name : String) (v : Json), (Scalar.str name, v) ∈ ms → ∃ σ, f name = some σ ∧ σ.Fits false v.tree)
    {above place rest : Path} {inner : Lens} {τ τ' : Form} (h : Framed lens written above place inner τ τ')
    (hreach : Reaches τ rest (.obj f)) {o : Option Tree} {C : Tree → Tree} (hC : IsContext place o C) {doc : Json}
    (hdoc : doc.isDocument = true) {t : Tree} (htree : doc.tree = C t) (ht : τ'.Fits true t) :
    Replays lens written (Write.add.memberSteps (above ++ rest) ms) doc fun u =>
      ∃ t', u = C t' ∧ τ'.Fits true t' := by
  match ms with
  | [] => exact .nil hdoc ⟨t, htree, ht⟩
  | (k, v) :: others =>
    obtain ⟨name, rfl, -, hv, hothers⟩ := Members.areOf_cons.1 hms
    obtain ⟨σ, hσ, hfit⟩ := hfits name v List.mem_cons_self
    rw [Write.memberSteps, List.append_assoc]
    have hmember := hreach.append (.member hσ (.here σ))
    refine (h.keeps_member (keeps lens written v hv) (h.reforms.not_isWhole hreach) hv hmember (by simp) hfit hC
      hdoc htree ht).append fun doc' hdoc' hmade => ?_
    obtain ⟨t', htree', ht'⟩ := hmade
    exact keepsMembers lens written others hothers (fun name v hv => hfits name v (List.mem_cons_of_mem _ hv)) h
      hreach hC hdoc' htree' ht'

end

end EditLens
