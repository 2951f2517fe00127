import EditLens.Proofs.Lens.Convert

/-! A reversed lens takes back what a lens did to a patch. The conditions are about each operation
of the patch by itself, at each step of the lens; main statement: under them, going right and then
left gives the patch back. -/
namespace EditLens

namespace Json

def isString : Json → Bool
  | .str _ => true
  | _ => false

theorem isString_iff {v : Json} : v.isString = true ↔ ∃ s, v = .str s := by
  constructor
  · intro h
    unfold isString at h
    split at h
    · exact ⟨_, rfl⟩
    · cases h
  · rintro ⟨s, rfl⟩
    rfl

end Json

mutual

def LensOp.isTextual : LensOp → Bool
  | .rename source destination => source.isString && destination.isString
  | .hoist host name => host.isString && name.isString
  | .plunge host name => host.isString && name.isString
  | .wrap name => name.isString
  | .head name => name.isString
  | .add property => property.name.isString
  | .remove property => property.name.isString
  | .inside name lens => name.isString && Lens.isTextual lens
  | .each lens => Lens.isTextual lens
  | .convert name _ _ _ => name.isString

def Lens.isTextual : Lens → Bool
  | [] => true
  | op :: rest => op.isTextual && Lens.isTextual rest

end

/-- Whether the forward table leads from a value to a plain one, and the backward table from there
back to the value. -/
def Mapping.Restores (m : Mapping) (v : Json) : Prop :=
  ∃ w, m.recode? v = some w ∧ w.isPlain = true ∧ ∃ u, m.reverse.recode? w = some u ∧ u.Alike v

mutual

/-- Whether a write of a value at a path meets the condition under which a lens operation can be
taken back: no token may be there already that the way back would take for the lens's own. -/
def LensOp.CanUndo (w : Write) (path : Path) (v : Json) : LensOp → Prop
  | .rename source destination => path.startsWith destination = true → source = destination
  | .hoist host name => path.startsWith name = true →
    path.startsWith host = true ∧ Path.startsWith path.tail name = true
  | .plunge host name => path.startsWith host = true → Path.startsWith path.tail name = true →
    path.startsWith name = true
  | .wrap _ => True
  | .head name => path.startsWith name = true → path.tail.head? = some "0"
  | .add property => path.startsWith property.name = false
  | .remove property => path.startsWith property.name = false
  | .inside name lens => path.startsWith name = true → Lens.CanUndo w path.tail v lens
  | .each lens => ∀ above below, path.cutAtIndex? = some (above, below) →
    Lens.CanUndo w below v lens
  | .convert name mapping _ _ => path = [name.plain] → mapping.Restores v

def Lens.CanUndo (w : Write) (path : Path) (v : Json) : Lens → Prop
  | [] => True
  | op :: rest => op.CanUndo w path v ∧ ∀ q path' v',
    (LensOp.carry (w.toOp path v) path op).outcome = .ok (some q) → q.Writes w path' v' →
      Lens.CanUndo w path' v' rest

end

/-- The condition at a step that makes one write of another. -/
private theorem Lens.canUndo_cons {op : LensOp} {rest : Lens} {w : Write} {path : Path} {v : Json}
    {q : PatchOp} (path' : Path) (v' : Json) (hop : op.CanUndo w path v)
    (hcarry : (LensOp.carry (w.toOp path v) path op).outcome = .ok (some q))
    (hq : q.Writes w path' v') (hrest : Lens.CanUndo w path' v' rest) :
    Lens.CanUndo w path v (op :: rest) := by
  refine ⟨hop, fun q₁ path₁ v₁ hcarry₁ hq₁ => ?_⟩
  obtain rfl : q = q₁ := by simpa [hcarry] using hcarry₁
  obtain ⟨rfl, rfl⟩ := hq.unique hq₁
  exact hrest

/-- A write that goes one way, with the value it takes along, and comes back by another lens. -/
structure RoundTrip (there back : PatchOp → Path → Noted (Option PatchOp)) (w : Write)
    (path : Path) (v : Json) (path' : Path) (v' : Json) : Prop where
  plain : v'.isPlain = true
  below : path ≠ [] → path' ≠ []
  right : ∀ ⦃p⦄, p.Writes w path v →
    ∃ q, (there p path).outcome = .ok (some q) ∧ q.Writes w path' v'
  left : ∀ ⦃q u⦄, q.Writes w path' u → u.Alike v' →
    ∃ p u', (back q path').outcome = .ok (some p) ∧ p.Writes w path u' ∧ u'.Alike v

def LensOp.Undone (op : LensOp) : Prop :=
  op.isTextual = true → ∀ ⦃w path v⦄, v.isPlain = true → op.CanUndo w path v →
    ∃ path' v', RoundTrip (LensOp.carry · · op) (LensOp.carry · · op.reverse) w path v path' v'

def Lens.Undone (lens : Lens) : Prop :=
  lens.isTextual = true → ∀ ⦃w path v⦄, v.isPlain = true → lens.CanUndo w path v →
    ∃ path' v', RoundTrip (fun p _ => Lens.carry p lens) (fun q _ => Lens.carry q lens.reverse)
      w path v path' v'

namespace RoundTrip

variable {there back : PatchOp → Path → Noted (Option PatchOp)} {w : Write} {path path' : Path}
  {v : Json}

/-- A write that both ways leave as it is. -/
private theorem unmoved (hv : v.isPlain = true)
    (hthere : ∀ ⦃p⦄, p.Writes w path v → (there p path).outcome = .ok (some p))
    (hback : ∀ ⦃q u⦄, q.Writes w path u → u.Alike v → (back q path).outcome = .ok (some q)) :
    RoundTrip there back w path v path v where
  plain := hv
  below := id
  right p hp := ⟨p, hthere hp, hp⟩
  left q u hq hu := ⟨q, u, hback hq hu, hq, hu⟩

/-- A write that goes to another path with its value, and comes back from there. -/
private theorem moved (hv : v.isPlain = true) (hne : path' ≠ [])
    (hthere : ∀ ⦃p⦄, p.Writes w path v →
      ∃ q, (there p path).outcome = .ok (some q) ∧ q.Writes w path' v)
    (hback : ∀ ⦃q u⦄, q.Writes w path' u → u.Alike v →
      ∃ p, (back q path').outcome = .ok (some p) ∧ p.Writes w path u) :
    RoundTrip there back w path v path' v where
  plain := hv
  below _ := hne
  right := hthere
  left q u hq hu := by
    obtain ⟨p, hp, hpw⟩ := hback hq hu
    exact ⟨p, u, hp, hpw, hu⟩

/-- The way through a lens and back is the way through its first operation with the way through the
others in between. -/
private theorem cons {op : LensOp} {rest : Lens} {path₁ path₂ : Path} {v₁ v₂ : Json}
    (hop : RoundTrip (LensOp.carry · · op) (LensOp.carry · · op.reverse) w path v path₁ v₁)
    (hrest : RoundTrip (fun p _ => Lens.carry p rest) (fun q _ => Lens.carry q rest.reverse)
      w path₁ v₁ path₂ v₂) :
    RoundTrip (fun p _ => Lens.carry p (op :: rest))
      (fun q _ => Lens.carry q (Lens.reverse (op :: rest))) w path v path₂ v₂ where
  plain := hrest.plain
  below hne := hrest.below (hop.below hne)
  right p hp := by
    obtain ⟨q₁, hq₁, hqw₁⟩ := hop.right hp
    obtain ⟨q₂, hq₂, hqw₂⟩ := hrest.right hqw₁
    refine ⟨q₂, ?_, hqw₂⟩
    rw [Lens.outcome_carry_cons hp.edits.path, hq₁]
    exact hq₂
  left q u hq hu := by
    obtain ⟨p₁, u₁, hp₁, hpw₁, hu₁⟩ := hrest.left hq hu
    obtain ⟨p, u', hp, hpw, hu'⟩ := hop.left hpw₁ hu₁
    refine ⟨p, u', ?_, hpw, hu'⟩
    rw [Lens.reverse, Lens.outcome_carry_append, hp₁]
    simp [Lens.outcome_carry_cons hpw₁.edits.path, hp, bind, Except.bind]

end RoundTrip

namespace LensOp

/-- No operation is about the whole document, nor is its reverse. -/
private theorem undone_root {op : LensOp} {w : Write} {v : Json} (hv : v.isPlain = true) :
    ∃ path' v', RoundTrip (LensOp.carry · · op) (LensOp.carry · · op.reverse) w [] v path' v' :=
  ⟨[], v, .unmoved hv (fun _ hp => outcome_carry_root hp.edits.edit op)
    fun _ _ hq _ => outcome_carry_root hq.edits.edit op.reverse⟩

private theorem undone_rename (source destination : String) :
    (LensOp.rename (.str source) (.str destination)).Undone := by
  intro _ w path v hv hcan
  cases path with
  | nil => exact undone_root hv
  | cons token rest =>
  simp only [CanUndo, Path.startsWith_cons, decide_eq_true_eq, Json.scalar.injEq, Scalar.str.injEq]
    at hcan
  by_cases hsource : source = token
  · subst hsource
    refine ⟨destination :: rest, v, .moved hv (by simp) ?_ ?_⟩
    · intro p hp
      rw [outcome_carry_rename hp.edits.edit]
      simpa using hp.withPath _
    · intro q u hq hu
      rw [reverse, outcome_carry_rename hq.edits.edit]
      simpa using hq.withPath _
  · have hdestination : destination ≠ token := fun h => hsource ((hcan h).trans h)
    refine ⟨token :: rest, v, .unmoved hv ?_ ?_⟩
    · intro p hp
      rw [outcome_carry_rename hp.edits.edit]
      simp [hsource]
    · intro q u hq hu
      rw [reverse, outcome_carry_rename hq.edits.edit]
      simp [hdestination]

private theorem undone_hoist (host name : String) : (LensOp.hoist (.str host) (.str name)).Undone := by
  intro _ w path v hv hcan
  cases path with
  | nil => exact undone_root hv
  | cons token rest =>
  by_cases hmoves : host = token ∧ rest.head? = some name
  · obtain ⟨rfl, hhead⟩ := hmoves
    obtain ⟨below, rfl⟩ := List.head?_eq_some_iff.1 hhead
    refine ⟨name :: below, v, .moved hv (by simp) ?_ ?_⟩
    · intro p hp
      rw [outcome_carry_hoist]
      simpa using hp.withPath _
    · intro q u hq hu
      rw [reverse, outcome_carry_plunge]
      simpa using hq.withPath _
  · have hname : name ≠ token := by
      rintro rfl
      simp only [CanUndo, Path.startsWith_cons, decide_true, List.tail_cons, true_implies,
        decide_eq_true_eq] at hcan
      cases rest with
      | nil => simp at hcan
      | cons inner below => exact hmoves ⟨hcan.1, by simpa [eq_comm] using hcan.2⟩
    refine ⟨token :: rest, v, .unmoved hv ?_ ?_⟩
    · intro p hp
      rw [outcome_carry_hoist, if_neg hmoves]
    · intro q u hq hu
      rw [reverse, outcome_carry_plunge, if_neg hname]

private theorem undone_plunge (host name : String) :
    (LensOp.plunge (.str host) (.str name)).Undone := by
  intro _ w path v hv hcan
  cases path with
  | nil => exact undone_root hv
  | cons token rest =>
  by_cases hname : name = token
  · subst hname
    refine ⟨host :: name :: rest, v, .moved hv (by simp) ?_ ?_⟩
    · intro p hp
      rw [outcome_carry_plunge]
      simpa using hp.withPath _
    · intro q u hq hu
      rw [reverse, outcome_carry_hoist]
      simpa using hq.withPath _
  · have hmoves : ¬ (host = token ∧ rest.head? = some name) := by
      rintro ⟨rfl, hhead⟩
      obtain ⟨below, rfl⟩ := List.head?_eq_some_iff.1 hhead
      simp [CanUndo, hname] at hcan
    refine ⟨token :: rest, v, .unmoved hv ?_ ?_⟩
    · intro p hp
      rw [outcome_carry_plunge, if_neg hname]
    · intro q u hq hu
      rw [reverse, outcome_carry_hoist, if_neg hmoves]

private theorem value_isNull {p : PatchOp} {w : Write} {path : Path} {u v : Json}
    (hp : p.Writes w path u) (hu : u.Alike v) (hv : v.isPlain = true) : p.value.isNull = false := by
  rw [PatchOp.value_of_edit hp.edits.edit (w.written?_edit u), hu.isNull_eq_false hv]

private theorem undone_wrap (name : String) : (LensOp.wrap (.str name)).Undone := by
  intro _ w path v hv _
  cases path with
  | nil => exact undone_root hv
  | cons token rest =>
  by_cases hname : name = token
  · subst hname
    refine ⟨name :: "0" :: rest, v, .moved hv (by simp) ?_ ?_⟩
    · intro p hp
      rw [outcome_carry_wrap hp.edits.edit, value_isNull hp (.refl_of_isPlain hv) hv]
      simpa using hp.withPath _
    · intro q u hq hu
      rw [reverse, outcome_carry_head_first hq.edits.edit]
      exact ⟨_, rfl, .anew w _ u⟩
  · refine ⟨token :: rest, v, .unmoved hv ?_ ?_⟩
    · intro p hp
      rw [outcome_carry_wrap hp.edits.edit, if_neg hname]
    · intro q u hq hu
      rw [reverse, outcome_carry_head_of_ne hname]

private theorem undone_head (name : String) : (LensOp.head (.str name)).Undone := by
  intro _ w path v hv hcan
  cases path with
  | nil => exact undone_root hv
  | cons token rest =>
  by_cases hname : name = token
  · subst hname
    simp only [CanUndo, Path.startsWith_cons, decide_true, List.tail_cons, true_implies] at hcan
    obtain ⟨below, rfl⟩ := List.head?_eq_some_iff.1 hcan
    refine ⟨name :: below, v, .moved hv (by simp) ?_ ?_⟩
    · intro p hp
      rw [outcome_carry_head_first hp.edits.edit]
      exact ⟨_, rfl, .anew w _ v⟩
    · intro q u hq hu
      rw [reverse, outcome_carry_wrap hq.edits.edit, value_isNull hq hu hv]
      simpa using hq.withPath _
  · refine ⟨token :: rest, v, .unmoved hv ?_ ?_⟩
    · intro p hp
      rw [outcome_carry_head_of_ne hname]
    · intro q u hq hu
      rw [reverse, outcome_carry_wrap hq.edits.edit, if_neg hname]

private theorem undone_add {property : Property} {name : String}
    (hproperty : property.name = .str name) : (LensOp.add property).Undone := by
  intro _ w path v hv hcan
  cases path with
  | nil => exact undone_root hv
  | cons token rest =>
  have hname : name ≠ token := by simpa [CanUndo, hproperty] using hcan
  refine ⟨token :: rest, v, .unmoved hv ?_ ?_⟩
  · intro p hp
    exact outcome_carry_add _
  · intro q u hq hu
    rw [reverse, outcome_carry_remove hq.edits.edit property name token rest hproperty,
      if_neg hname]

private theorem undone_remove {property : Property} {name : String}
    (hproperty : property.name = .str name) : (LensOp.remove property).Undone := by
  intro _ w path v hv hcan
  cases path with
  | nil => exact undone_root hv
  | cons token rest =>
  have hname : name ≠ token := by simpa [CanUndo, hproperty] using hcan
  refine ⟨token :: rest, v, .unmoved hv ?_ ?_⟩
  · intro p hp
    rw [outcome_carry_remove hp.edits.edit property name token rest hproperty, if_neg hname]
  · intro q u hq hu
    exact outcome_carry_add _

/-- The way back looks up by the key of the value, so like values come back alike. -/
private theorem undone_convert (name : String) (mapping : Mapping) (s d : Json) :
    (LensOp.convert (.str name) mapping s d).Undone := by
  intro _ w path v hv hcan
  by_cases hpath : path = [name]
  · subst hpath
    obtain ⟨t, ht, htplain, back, hback, halike⟩ := hcan rfl
    refine ⟨[name], t, htplain, fun _ => by simp, ?_, ?_⟩
    · intro p hp
      rw [outcome_carry_convert_self hp.edits.edit name mapping s d (w.written?_edit v), ht]
      exact ⟨_, rfl, hp.withValue t⟩
    · intro q u hq hu
      have hu' : mapping.reverse.recode? u = some back := by
        rw [← hback, Mapping.recode?, Mapping.recode?, hu.2]
      rw [reverse, outcome_carry_convert_self hq.edits.edit name mapping.reverse d s
        (w.written?_edit u), hu']
      exact ⟨_, back, rfl, hq.withValue back, halike⟩
  · refine ⟨path, v, .unmoved hv ?_ ?_⟩
    · intro p hp
      exact outcome_carry_convert_of_ne hp.edits.edit _ _ _ fun _ => hpath
    · intro q u hq hu
      exact outcome_carry_convert_of_ne hq.edits.edit _ _ _ fun _ => hpath

private theorem undone_inside (name : String) {lens : Lens} (ih : lens.Undone) :
    (LensOp.inside (.str name) lens).Undone := by
  intro htext w path v hv hcan
  cases path with
  | nil => exact undone_root hv
  | cons token rest =>
  by_cases hname : name = token
  · subst hname
    simp only [CanUndo, Path.startsWith_cons, decide_true, List.tail_cons, true_implies] at hcan
    obtain ⟨path', v', h⟩ := ih htext hv hcan
    refine ⟨name :: path', v', h.plain, fun _ => by simp, ?_, ?_⟩
    · intro p hp
      obtain ⟨q, hq, hqw⟩ := h.right (hp.withPath rest)
      refine ⟨q.withPath (name :: path'), ?_, hqw.withPath _⟩
      rw [outcome_carry_inside, if_pos rfl, hq]
      simp [hqw.edits.path, bind, Except.bind, pure, Except.pure]
    · intro q u hq hu
      obtain ⟨p, u', hp, hpw, hu'⟩ := h.left (hq.withPath path') hu
      refine ⟨p.withPath (name :: rest), u', ?_, hpw.withPath _, hu'⟩
      rw [reverse, outcome_carry_inside, if_pos rfl, hp]
      simp [hpw.edits.path, bind, Except.bind, pure, Except.pure]
  · refine ⟨token :: rest, v, .unmoved hv ?_ ?_⟩
    · intro p hp
      rw [outcome_carry_inside, if_neg hname]
    · intro q u hq hu
      rw [reverse, outcome_carry_inside, if_neg hname]

/-- The way back cuts a path at the same index, whatever the lens made of what is below. -/
private theorem undone_each {lens : Lens} (ih : lens.Undone) : (LensOp.each lens).Undone := by
  intro htext w path v hv hcan
  cases hcut : path.cutAtIndex? with
  | none =>
    refine ⟨path, v, .unmoved hv ?_ ?_⟩
    · intro p hp
      rw [outcome_carry_each, hcut]
    · intro q u hq hu
      rw [reverse, outcome_carry_each, hcut]
  | some cut =>
    obtain ⟨above, below⟩ := cut
    obtain ⟨hpath, hbelow, habove⟩ := Path.cutAtIndex?_eq_some hcut
    obtain ⟨path', v', h⟩ := ih htext hv (hcan above below hcut)
    refine ⟨above ++ path', v', h.plain, fun _ => ?_, ?_, ?_⟩
    · exact List.append_ne_nil_of_right_ne_nil above (h.below hbelow)
    · intro p hp
      obtain ⟨q, hq, hqw⟩ := h.right (hp.withPath below)
      refine ⟨q.withPath (above ++ path'), ?_, hqw.withPath _⟩
      rw [outcome_carry_each, hcut]
      simp [hq, hqw.edits.path, bind, Except.bind, pure, Except.pure]
    · intro q u hq hu
      obtain ⟨p, u', hp, hpw, hu'⟩ := h.left (hq.withPath path') hu
      refine ⟨p.withPath path, u', ?_, hpw.withPath _, hu'⟩
      rw [reverse, outcome_carry_each, habove (h.below hbelow)]
      simp [hp, hpw.edits.path, hpath, bind, Except.bind, pure, Except.pure]

end LensOp

mutual

theorem LensOp.undone (op : LensOp) : op.Undone := by
  intro htext
  match op with
  | .rename source destination =>
    obtain ⟨⟨s, rfl⟩, d, rfl⟩ := by simpa [LensOp.isTextual, Json.isString_iff] using htext
    exact LensOp.undone_rename s d htext
  | .hoist host name =>
    obtain ⟨⟨h, rfl⟩, n, rfl⟩ := by simpa [LensOp.isTextual, Json.isString_iff] using htext
    exact LensOp.undone_hoist h n htext
  | .plunge host name =>
    obtain ⟨⟨h, rfl⟩, n, rfl⟩ := by simpa [LensOp.isTextual, Json.isString_iff] using htext
    exact LensOp.undone_plunge h n htext
  | .wrap name =>
    obtain ⟨n, rfl⟩ := Json.isString_iff.1 htext
    exact LensOp.undone_wrap n htext
  | .head name =>
    obtain ⟨n, rfl⟩ := Json.isString_iff.1 htext
    exact LensOp.undone_head n htext
  | .add property =>
    obtain ⟨n, hn⟩ := Json.isString_iff.1 htext
    exact LensOp.undone_add hn htext
  | .remove property =>
    obtain ⟨n, hn⟩ := Json.isString_iff.1 htext
    exact LensOp.undone_remove hn htext
  | .inside name lens =>
    obtain ⟨⟨n, rfl⟩, -⟩ := by simpa [LensOp.isTextual, Json.isString_iff] using htext
    exact LensOp.undone_inside n (Lens.undone lens) htext
  | .each lens => exact LensOp.undone_each (Lens.undone lens) htext
  | .convert name mapping s d =>
    obtain ⟨n, rfl⟩ := Json.isString_iff.1 htext
    exact LensOp.undone_convert n mapping s d htext

private theorem Lens.undone (lens : Lens) : lens.Undone := by
  match lens with
  | [] =>
    intro _ w path v hv _
    exact ⟨path, v, .unmoved hv (fun _ _ => rfl) fun _ _ _ _ => rfl⟩
  | op :: rest =>
    intro htext w path v hv hcan
    simp only [Lens.isTextual, Bool.and_eq_true] at htext
    obtain ⟨path₁, v₁, hop⟩ := LensOp.undone op htext.1 hv hcan.1
    obtain ⟨q₁, hq₁, hqw₁⟩ := hop.right (.toOp w path v)
    obtain ⟨path₂, v₂, hrest⟩ := Lens.undone rest htext.2 hop.plain (hcan.2 q₁ path₁ v₁ hq₁ hqw₁)
    exact ⟨path₂, v₂, hop.cons hrest⟩

end

/-- A patch of plain writes each of which can be undone goes through a lens and back as it is. -/
private theorem Lens.carryAll_reverse {lens : Lens} {patch : Patch} (htext : lens.isTextual = true)
    (hpatch : ∀ p ∈ patch, ∃ w path v, p.Writes w path v ∧ v.isPlain = true ∧
      lens.CanUndo w path v) :
    ∃ steps there steps' back, Patch.expand (patch.map PatchOp.toJson) = .ok steps ∧
      (lens.carryAll steps).outcome = .ok there ∧
      Patch.expand (there.map PatchOp.toJson) = .ok steps' ∧
      (lens.reverse.carryAll steps').outcome = .ok back ∧
      Json.sameElements (back.map PatchOp.toJson) (patch.map PatchOp.toJson) = true := by
  induction patch with
  | nil => exact ⟨[], [], [], [], rfl, rfl, rfl, rfl, rfl⟩
  | cons p rest ih =>
    obtain ⟨steps, there, steps', back, hsteps, hthere, hsteps', hback, hsame⟩ :=
      ih fun q hq => hpatch q (List.mem_cons_of_mem p hq)
    obtain ⟨w, path, v, hp, hv, hcan⟩ := hpatch p (by simp)
    obtain ⟨path', v', trip⟩ := Lens.undone lens htext hv hcan
    obtain ⟨step, hstep, hstepw⟩ := hp.expand hv
    obtain ⟨q, hq, hqw⟩ := trip.right hstepw
    obtain ⟨step', hstep', hstepw'⟩ := hqw.expand trip.plain
    obtain ⟨r, u, hr, hrw, hu⟩ := trip.left hstepw' (.refl_of_isPlain trip.plain)
    refine ⟨step :: steps, q :: there, step' :: steps', r :: back, Patch.expand_cons hstep hsteps,
      ?_, Patch.expand_cons hstep' hsteps', ?_, ?_⟩
    · rw [outcome_carryAll_cons, hq, hthere]
      rfl
    · rw [outcome_carryAll_cons, hr, hback]
      rfl
    · rw [List.map_cons, List.map_cons, Json.sameElements, hrw.same hp hu.1, hsame]
      rfl

/-- Going right and then left through a compiled lens gives a patch back, when its operations write
scalars other than null or empty containers, have no fields but those of a write, and can be undone.
Defaults are not filled in, so neither schema matters. -/
theorem Lens.convertPatch_left_right {lens : Lens} {patch : Patch} (htext : lens.isTextual = true)
    (hpatch : ∀ p ∈ patch, ∃ w path v, p.Writes w path v ∧ v.isPlain = true ∧
      lens.CanUndo w path v) (schema schema' : Json) :
    ∃ there back,
      (lens.compile.right.convertPatch false schema (.arr (patch.map PatchOp.toJson))).outcome =
        .ok there ∧
      (lens.compile.left.convertPatch false schema' (.arr (there.map PatchOp.toJson))).outcome =
        .ok back ∧
      (Json.arr (back.map PatchOp.toJson)).same (.arr (patch.map PatchOp.toJson)) = true := by
  obtain ⟨steps, there, steps', back, hsteps, hthere, hsteps', hback, hsame⟩ :=
    carryAll_reverse htext hpatch
  refine ⟨there, back, ?_, ?_, hsame⟩
  · rw [compile, outcome_convertPatch_plain schema hsteps, hthere]
  · rw [compile, outcome_convertPatch_plain schema' hsteps', hback]

/-- A recoded and wrapped value below an index, and a member that is renamed and plunged. -/
theorem Lens.convertPatch_left_right_items :
    let mapping : Mapping := ⟨[("x", .bool false)], [("false", .str "x")]⟩
    let lens : Lens := [.rename (.str "n") (.str "t"),
      .inside (.str "a") [.each [.convert (.str "s") mapping .null .null, .wrap (.str "s")]],
      .plunge (.str "h") (.str "t")]
    let patch : Patch := [.replace ["a", "0", "s"] (.str "x"), .add ["n"] (.obj [])]
    ∃ there back,
      (lens.compile.right.convertPatch false .null (.arr (patch.map PatchOp.toJson))).outcome =
        .ok there ∧
      (lens.compile.left.convertPatch false .null (.arr (there.map PatchOp.toJson))).outcome =
        .ok back ∧
      (Json.arr (back.map PatchOp.toJson)).same (.arr (patch.map PatchOp.toJson)) = true := by
  refine Lens.convertPatch_left_right rfl ?_ .null .null
  intro p hp
  rcases List.mem_cons.1 hp with rfl | hp
  · refine ⟨.replace, ["a", "0", "s"], .str "x", .toOp .replace _ _, rfl, ?_⟩
    refine canUndo_cons ["a", "0", "s"] (.str "x") (by simp [LensOp.CanUndo]) rfl
      (.toOp .replace _ _) ?_
    refine canUndo_cons ["a", "0", "s", "0"] (.bool false) ?_ rfl (.refl _) ?_
    · intro _
      refine canUndo_cons ["0", "s", "0"] (.bool false) ?_ rfl (.refl _) trivial
      intro above below hcut
      obtain ⟨rfl, rfl⟩ : (["0"], ["s"]) = (above, below) := Option.some.inj hcut
      refine canUndo_cons ["s"] (.bool false) ?_ rfl (.refl _)
        (canUndo_cons ["s", "0"] (.bool false) trivial rfl (.refl _) trivial)
      intro _
      exact ⟨.bool false, rfl, rfl, .str "x", rfl, .refl_of_isPlain rfl⟩
    · exact canUndo_cons ["a", "0", "s", "0"] (.bool false) (by simp [LensOp.CanUndo]) rfl (.refl _)
        trivial
  · obtain rfl := List.mem_singleton.1 hp
    refine ⟨.add, ["n"], .obj [], .toOp .add _ _, rfl, ?_⟩
    refine canUndo_cons ["t"] (.obj []) (by simp [LensOp.CanUndo]) rfl (.refl _) ?_
    refine canUndo_cons ["t"] (.obj []) (by simp [LensOp.CanUndo]) rfl (.refl _) ?_
    exact canUndo_cons ["h", "t"] (.obj []) (by simp [LensOp.CanUndo]) rfl (.refl _) trivial

end EditLens
