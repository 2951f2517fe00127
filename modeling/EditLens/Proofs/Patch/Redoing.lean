import EditLens.Proofs.Patch.Parts

/-! Patches that are applied once more to what they have made. Main statement: what a patch made stays as it is
if each operation writes below what the patch itself has written before, or has objects alone on its way both
times, or removes what is not there in the end. -/
namespace EditLens

namespace Json

/-- Whether objects alone stand on the way along a path; what the path leads to is left open. -/
def IsOpen : Path → Option Json → Prop
  | [], _ => True
  | token :: rest, part => ∃ ms, part = some (.obj ms) ∧ IsOpen rest (Members.get? ms token)

end Json

namespace Edit

variable {e : Edit} {path : Path} {part doc doc' : Json} {current result : Option Json}

def atMember (e : Edit) (path : Path) (current : Option Json) : Except Fault (Option Json) :=
  match e.onMemberAt path current with
  | .ok result => .ok result
  | .error fault => if fault.isMisfit = true ∧ e = .remove then .ok current else .error fault

theorem applyIfThere_cons_obj (e : Edit) (key : String) (path : Path) (ms : Members) :
    e.applyIfThere (key :: path) (.obj ms) = (do
      return .obj (ms.change key (← e.atMember path (ms.get? key)))) := by
  rw [applyIfThere, apply_cons_obj, atMember]
  cases e.onMemberAt path (ms.get? key) with
  | ok result => rfl
  | error fault =>
    simp only [bind, Except.bind]
    split
    · exact congrArg (fun ms => Except.ok (Json.obj ms)) (ms.change_get? key).symm
    · rfl

theorem atMember_cons (token : String) (rest : Path) (part : Json) :
    e.atMember (token :: rest) (some part) = (e.applyIfThere (token :: rest) part).map some := by
  rw [atMember, applyIfThere, onMemberAt]
  cases e.apply (token :: rest) part with
  | ok part' => rfl
  | error fault =>
    simp only [bind, Except.bind]
    split <;> rfl

private theorem atMember_obj (token : String) (rest : Path) (ms : Members) :
    e.atMember (token :: rest) (some (.obj ms)) = (do
      return some (.obj (ms.change token (← e.atMember rest (ms.get? token))))) := by
  rw [atMember_cons, applyIfThere_cons_obj]
  cases e.atMember rest (ms.get? token) <;> rfl

/-- A removal either takes out what is there, or does not fit. -/
private theorem remove_cases (path : Path) (doc : Json) :
    ((∃ doc', Edit.remove.apply path doc = .ok doc') ∧ doc.partAt? path ≠ none) ∨
      ∃ fault, Edit.remove.apply path doc = .error fault ∧ fault.isMisfit = true := by
  induction path generalizing doc with
  | nil => exact .inr ⟨.absentTarget, rfl, rfl⟩
  | cons token rest ih =>
    cases rest with
    | nil =>
      cases doc with
      | scalar s => exact .inr ⟨.badPointer, rfl, rfl⟩
      | obj ms =>
        cases hget : Members.get? ms token with
        | none =>
          refine .inr ⟨.absentTarget, ?_, rfl⟩
          simp [apply, onPart, onMember, Members.has, hget, bind, Except.bind]
        | some v =>
          refine .inl ⟨⟨.obj (Members.without ms token), ?_⟩, ?_⟩
          · simp [apply, onPart, onMember, Members.has, hget, bind, Except.bind, pure, Except.pure]
          · simp [Json.partAt?, Json.child?, hget]
      | arr es =>
        by_cases hdash : token = "-"
        · subst hdash
          exact .inr ⟨.badPointer, rfl, rfl⟩
        cases hposition : Pointer.position? token with
        | none => exact .inr ⟨.badPointer, by simp [apply, onPart, hdash, hposition], rfl⟩
        | some i =>
          by_cases hi : i < es.length
          · refine .inl ⟨⟨.arr (es.eraseIdx i), ?_⟩, ?_⟩
            · simp [apply, onPart, onElement, hdash, hposition, hi, bind, Except.bind, pure, Except.pure]
            · simp [Json.partAt?, Json.child?, hposition, hi]
          · refine .inr ⟨.absentTarget, ?_, rfl⟩
            simp [apply, onPart, onElement, hdash, hposition, hi, bind, Except.bind]
    | cons next rest =>
      cases hchild : doc.child? token with
      | none => exact .inr ⟨.badPointer, by simp [apply, hchild], rfl⟩
      | some child =>
        rcases ih child with ⟨⟨part, hpart⟩, hthere⟩ | ⟨fault, hfault, hmisfit⟩
        · refine .inl ⟨⟨doc.setChild token part, by simp [apply, hchild, hpart]⟩, ?_⟩
          rwa [Json.partAt?, hchild]
        · exact .inr ⟨fault, by simp [apply, hchild, hfault], hmisfit⟩

/-- Where there is nothing, there is nothing to remove. -/
private theorem atMember_remove (h : current.bind (Json.partAt? path) = none) :
    Edit.remove.atMember path current = .ok current := by
  cases current with
  | none => cases path <;> rfl
  | some part =>
    cases path with
    | nil => cases h
    | cons token rest =>
      rw [atMember_cons, applyIfThere]
      rcases remove_cases (token :: rest) part with ⟨-, hthere⟩ | ⟨fault, hfault, hmisfit⟩
      · exact absurd h hthere
      · simp [hfault, hmisfit, Except.map]

end Edit

namespace Json

/-- How far an edit of a document is redone in what the document becomes: a place that was written is the same
again, and what was not written yet is as it will be in the end. -/
inductive Redone : (Path → Prop) → Option Json → Option Json → Option Json → Prop
  | settled {written : Path → Prop} {now last : Option Json} : Redone written now now last
  | pending {written : Path → Prop} {now last : Option Json} (h : ∀ path, ¬ written path) :
    Redone written now last last
  | object {written : Path → Prop} {ms ns os : Members} (root : ¬ written []) (names : ns.AreOf fun _ => True)
    (members : ∀ name : String, Redone (fun path => written (name :: path)) (ms.get? name) (ns.get? name)
      (os.get? name)) :
    Redone written (some (.obj ms)) (some (.obj ns)) (some (.obj os))

end Json

namespace Edit

inductive Repeats (e : Edit) (path : Path) (written : Path → Prop) (now last : Option Json) : Prop
  | below {above rest : Path} (h : written above) (hpath : path = above ++ rest) (hrest : rest ≠ [])
  | objects (hnow : Json.IsOpen path now) (hlast : Json.IsOpen path last)
    (hreplace : (∃ v, e = .replace v) → last.bind (Json.partAt? path) ≠ none)
  | gone (he : e = .remove) (h : last.bind (Json.partAt? path) = none)

variable {e : Edit} {path : Path} {written : Path → Prop} {now now' again last : Option Json}

def writes (e : Edit) (path : Path) (written : Path → Prop) (other : Path) : Prop :=
  written other ∨ (e.written?.isSome = true ∧ other = path)

private theorem writes_below (token : String) (rest : Path) :
    (fun path => e.writes (token :: rest) written (token :: path)) =
      e.writes rest (fun path => written (token :: path)) := by
  funext other
  simp [writes]

private theorem writes_beside {token name : String} (hne : name ≠ token) (rest : Path) :
    (fun path => e.writes (token :: rest) written (name :: path)) = fun path => written (name :: path) := by
  funext other
  simp [writes, hne]

/-- Below a member, an edit of an object does the same again if it does so at the member. -/
private theorem Repeats.member {token : String} {rest : Path} {ms os : Members}
    (h : e.Repeats (token :: rest) written (some (.obj ms)) (some (.obj os))) (hroot : ¬ written []) :
    e.Repeats rest (fun path => written (token :: path)) (ms.get? token) (os.get? token) := by
  cases h with
  | @below above below habove hpath hbelow =>
    cases above with
    | nil => exact absurd habove hroot
    | cons first above =>
      obtain ⟨rfl, hrest⟩ := List.cons.inj hpath
      exact .below habove hrest hbelow
  | objects hnow hlast hreplace =>
    obtain ⟨ms', hms', hnow⟩ := hnow
    obtain ⟨os', hos', hlast⟩ := hlast
    cases hms'
    cases hos'
    exact .objects hnow hlast hreplace
  | gone he h => exact .gone he h

/-- At the place itself, an edit makes the same of anything that is there. -/
private theorem atMember_nil (h : e.atMember [] now = .ok now') (hagain : (∃ v, e = .replace v) → again ≠ none) :
    e.atMember [] again = .ok now' := by
  cases e with
  | add v => cases now <;> cases again <;> exact h
  | remove => cases now <;> cases again <;> exact h
  | replace v =>
    obtain ⟨part, rfl⟩ := Option.ne_none_iff_exists'.1 (hagain ⟨v, rfl⟩)
    cases now with
    | none => cases h
    | some old => exact h

/-- Where objects are edited, their members are redone one by one. -/
private theorem redone_object {token : String} {rest : Path} {ms ns os : Members}
    (ih : ∀ {written : Path → Prop} {now now' again last : Option Json}, Json.Redone written now again last →
      e.atMember rest now = .ok now' → (∀ v, last = some v → v.isDocument = true) →
      e.Repeats rest written now last →
      ∃ again', e.atMember rest again = .ok again' ∧ Json.Redone (e.writes rest written) now' again' last)
    (root : ¬ written []) (names : ns.AreOf fun _ => True)
    (members : ∀ name : String, Json.Redone (fun path => written (name :: path)) (ms.get? name) (ns.get? name)
      (os.get? name))
    (hnow : e.atMember (token :: rest) (some (.obj ms)) = .ok now') (hlast : (Json.obj os).isDocument = true)
    (hrepeats : e.Repeats (token :: rest) written (some (.obj ms)) (some (.obj os))) :
    ∃ again', e.atMember (token :: rest) (some (.obj ns)) = .ok again' ∧
      Json.Redone (e.writes (token :: rest) written) now' again' (some (.obj os)) := by
  rw [atMember_obj] at hnow
  obtain ⟨result, hresult, hnow⟩ := Except.exists_of_bind hnow
  obtain rfl := Except.ok.inj hnow
  obtain ⟨result', hresult', hredone⟩ := ih (members token) hresult
    (fun v hv => (Json.isDocument_obj.1 hlast).part hv) (hrepeats.member root)
  refine ⟨some (.obj (ns.change token result')), by rw [atMember_obj, hresult']; rfl, .object ?_ ?_ fun name => ?_⟩
  · rintro (h | ⟨-, h⟩)
    · exact root h
    · cases h
  · exact names.change token fun _ _ => trivial
  · rw [Members.get?_change, Members.get?_change]
    by_cases hname : name = token
    · subst hname
      rw [writes_below]
      simpa using hredone
    · rw [writes_beside hname]
      simpa [Ne.symm hname] using members name

/-- One edit is redone. -/
private theorem redone_atMember (h : Json.Redone written now again last) (hnow : e.atMember path now = .ok now')
    (hlast : ∀ v, last = some v → v.isDocument = true) (hrepeats : e.Repeats path written now last) :
    ∃ again', e.atMember path again = .ok again' ∧ Json.Redone (e.writes path written) now' again' last := by
  induction path generalizing written now now' again last with
  | nil =>
    refine ⟨now', atMember_nil hnow ?_, .settled⟩
    rintro ⟨v, rfl⟩
    cases h with
    | settled =>
      rintro rfl
      cases hnow
    | pending =>
      cases hrepeats with
      | below _ hpath hrest => exact absurd (List.append_eq_nil_iff.1 hpath.symm).2 hrest
      | objects _ _ hreplace =>
        rintro rfl
        exact hreplace ⟨v, rfl⟩ rfl
      | gone he => cases he
    | object => simp
  | cons token rest ih =>
    cases h with
    | settled => exact ⟨now', hnow, .settled⟩
    | pending h =>
      cases hrepeats with
      | below habove => exact absurd habove (h _)
      | gone he hgone =>
        subst he
        exact ⟨_, atMember_remove hgone, .pending (by simpa [writes, Edit.written?] using h)⟩
      | objects hnowOpen hlastOpen hreplace =>
        obtain ⟨ms, rfl, hms⟩ := hnowOpen
        obtain ⟨os, rfl, hos⟩ := hlastOpen
        have hdocument := Json.isDocument_obj.1 (hlast _ rfl)
        exact redone_object ih (h []) ⟨hdocument.distinct, hdocument.text, fun _ _ => trivial⟩
          (fun name => .pending fun path => h _) hnow (hlast _ rfl)
          (.objects ⟨ms, rfl, hms⟩ ⟨os, rfl, hos⟩ hreplace)
    | object root names members => exact redone_object ih root names members hnow (hlast _ rfl) hrepeats

private theorem writes_remove (path : Path) (written : Path → Prop) : Edit.remove.writes path written = written := by
  funext other
  simp [writes, Edit.written?]

/-- One edit of a document is redone. -/
theorem redone_applyIfThere {doc doc' part last : Json} (h : Json.Redone written (some doc) (some part) (some last))
    (hdoc : e.applyIfThere path doc = .ok doc') (hlast : last.isDocument = true)
    (hrepeats : e.Repeats path written (some doc) (some last)) :
    ∃ part', e.applyIfThere path part = .ok part' ∧
      Json.Redone (e.writes path written) (some doc') (some part') (some last) := by
  cases path with
  | nil =>
    cases e with
    | add v =>
      obtain rfl := Except.ok.inj hdoc
      exact ⟨v, rfl, .settled⟩
    | replace v =>
      obtain rfl := Except.ok.inj hdoc
      exact ⟨v, rfl, .settled⟩
    | remove =>
      obtain rfl := Except.ok.inj hdoc
      exact ⟨part, rfl, (writes_remove [] written).symm ▸ h⟩
  | cons token rest =>
    obtain ⟨result, hresult, hredone⟩ := redone_atMember h (by rw [atMember_cons, hdoc]; rfl)
      (by rintro v ⟨⟩; exact hlast) hrepeats
    rw [atMember_cons] at hresult
    cases hpart : e.applyIfThere (token :: rest) part with
    | error fault =>
      rw [hpart] at hresult
      cases hresult
    | ok part' =>
      rw [hpart] at hresult
      obtain rfl := Except.ok.inj hresult
      exact ⟨part', rfl, hredone⟩

end Edit

/-- What is redone entirely is as it was. -/
private theorem Json.Redone.same_tree {written : Path → Prop} {now again last : Option Json}
    (h : Redone written now again last) (heq : now = last) (hlast : ∀ v, last = some v → v.isDocument = true) :
    again.map Json.tree = last.map Json.tree ∧ ∀ v, again = some v → v.isDocument = true := by
  induction h with
  | settled => exact ⟨congrArg _ heq, heq ▸ hlast⟩
  | pending => exact ⟨rfl, hlast⟩
  | @object written ms ns os root names members ih =>
    obtain rfl : ms = os := Json.obj.inj (Option.some.inj heq)
    have hparts : ∀ name : String, (ns.get? name).map Json.tree = (ms.get? name).map Json.tree ∧
        ∀ v, ns.get? name = some v → v.isDocument = true :=
      fun name => ih name rfl fun v hv => (Json.isDocument_obj.1 (hlast _ rfl)).part hv
    constructor
    · rw [Option.map_some, Option.map_some, Json.tree_obj, Json.tree_obj]
      exact congrArg (some ∘ Tree.obj) (funext fun name => (hparts name).1)
    · rintro v ⟨⟩
      refine Json.isDocument_obj.2 ⟨names.distinct, names.text, fun m hm => ?_⟩
      obtain ⟨name, hname⟩ := names.text m hm
      exact (hparts name).2 m.2 (hname ▸ Members.get?_of_mem names.distinct hm)

namespace Patch

inductive Repeats (last : Json) : (Path → Prop) → Json → Patch → Prop
  | nil {written : Path → Prop} {doc : Json} : Repeats last written doc []
  | cons {written : Path → Prop} {doc doc' : Json} {p : PatchOp} {e : Edit} {path : Path} {rest : Patch}
    (edits : p.Edits e path) (applies : e.applyIfThere path doc = .ok doc')
    (repeats : e.Repeats path written (some doc) (some last))
    (others : Repeats last (e.writes path written) doc' rest) : Repeats last written doc (p :: rest)

/-- A patch is redone operation by operation. -/
theorem Repeats.redone {written : Path → Prop} {doc again last : Json} {ps : Patch} (h : Repeats last written doc ps)
    (hredone : Json.Redone written (some doc) (some again) (some last)) (hlast : last.isDocument = true)
    (hrun : (Patch.applyIfThere doc ps).outcome = .ok last) :
    ∃ result, (Patch.applyIfThere again ps).outcome = .ok result ∧ result.isDocument = true ∧
      result.tree = last.tree := by
  induction h generalizing again with
  | nil =>
    obtain rfl := Except.ok.inj hrun
    obtain ⟨htree, hdocument⟩ := hredone.same_tree rfl (by rintro v ⟨⟩; exact hlast)
    exact ⟨again, rfl, hdocument _ rfl, Option.some.inj htree⟩
  | cons edits applies repeats _ ih =>
    obtain ⟨again', hagain', hredone'⟩ := Edit.redone_applyIfThere hredone applies hlast repeats
    simp only [Patch.applyIfThere, Noted.outcome_bind, edits.outcome_applyIfThere, applies, hagain',
      Except.bind_ok] at hrun ⊢
    exact ih hredone' hrun

variable {written written' : Path → Prop} {p : PatchOp} {path : Path} {ps qs : Patch}

/-- Additions to the members of an object, or below places that were written before. -/
inductive Anchored : (Path → Prop) → Patch → Prop
  | nil {written : Path → Prop} : Anchored written []
  | cons {written : Path → Prop} {p : PatchOp} {v : Json} {path : Path} {rest : Patch} (edits : p.Edits (.add v) path)
    (place : (∃ token, path = [token]) ∨ ∃ above below, path = above ++ below ∧ below ≠ [] ∧ written above)
    (others : Anchored ((Edit.add v).writes path written) rest) : Anchored written (p :: rest)

private theorem Anchored.mono (h : Anchored written ps) (hwritten : ∀ path, written path → written' path) :
    Anchored written' ps := by
  induction h generalizing written' with
  | nil => exact .nil
  | cons edits place _ ih =>
    refine .cons edits ?_ (ih fun path hpath => hpath.imp (hwritten path) id)
    exact place.imp id fun ⟨above, below, hpath, hbelow, habove⟩ => ⟨above, below, hpath, hbelow, hwritten _ habove⟩

theorem Anchored.append (hps : Anchored written ps) (hqs : Anchored written qs) : Anchored written (ps ++ qs) := by
  induction hps with
  | nil => exact hqs
  | cons edits place _ ih => exact .cons edits place (ih (hqs.mono fun _ => .inl))

/-- Where an object stays an object to the end, additions to its members and below what was written do the same
again. -/
theorem Anchored.repeats {ms os : Members} (h : Anchored written ps)
    (hrun : (Patch.applyIfThere (.obj ms) ps).outcome = .ok (.obj os)) :
    Repeats (.obj os) written (.obj ms) ps := by
  induction h generalizing ms with
  | nil => exact .nil
  | @cons written p v path rest edits place _ ih =>
    obtain ⟨token, below, rfl⟩ : ∃ token below, path = token :: below := by
      rcases place with ⟨token, rfl⟩ | ⟨above, below, rfl, hbelow, -⟩
      · exact ⟨token, [], rfl⟩
      · exact List.exists_cons_of_ne_nil (by simp [hbelow])
    simp only [Patch.applyIfThere, Noted.outcome_bind, edits.outcome_applyIfThere] at hrun
    obtain ⟨doc, hdoc, hrun⟩ := Except.exists_of_bind hrun
    have happlies := hdoc
    rw [Edit.applyIfThere_cons_obj] at hdoc
    obtain ⟨result, -, hdoc⟩ := Except.exists_of_bind hdoc
    obtain rfl := Except.ok.inj hdoc
    refine .cons edits happlies ?_ (ih hrun)
    rcases place with ⟨name, hname⟩ | ⟨above, below, hpath, hbelow, habove⟩
    · obtain ⟨rfl, rfl⟩ := List.cons.inj hname
      exact .objects ⟨ms, rfl, trivial⟩ ⟨os, rfl, trivial⟩ (by simp)
    · exact .below habove hpath hbelow

end Patch

end EditLens
