import EditLens.Proofs.Lens.Composing
import EditLens.Proofs.Lens.Local

/-! Lenses about names that are apart. Main statement: two such lenses can change places. -/
namespace EditLens

/-- Names that neither a path nor an object takes for one. -/
def Json.Apart (a b : Json) : Prop := a.plain ≠ b.plain ∧ a.same b = false

private theorem Json.apart_text {a b : String} : (Json.str a).Apart (.str b) ↔ a ≠ b := by
  simp [Apart, Json.same, eq_comm]

def Path.Below (names : List Json) (path : Path) : Prop := ∃ name ∈ names, ∃ below, path = name.plain :: below

variable {p q : PatchOp} {path : Path} {verb : Verb} {names : List Json}

private theorem Path.below_of_startsWith {name : Json} (hname : name ∈ names) (h : path.startsWith name = true) :
    path.Below names := by
  obtain ⟨below, heq, -⟩ := Path.exists_eq_of_startsWith h
  exact ⟨name, hname, below, heq⟩

namespace LensOp

variable {op : LensOp}

private theorem carryFlat_beside (hverb : p.verb = .ok verb) (h : ¬ path.Below op.names) :
    op.carryFlat p path = .ok (some p) := by
  have hnot : ∀ name ∈ op.names, path.startsWith name = false := fun name hname =>
    Bool.eq_false_iff.2 fun hstarts => h (Path.below_of_startsWith hname hstarts)
  cases op with
  | rename source destination =>
    rw [carryFlat, hverb, Except.bind_ok, hnot source (by simp [LensOp.names]), Bool.and_false,
      if_neg Bool.false_ne_true]
    rfl
  | hoist host name =>
    simp only [carryFlat]
    split
    · rename_i outer inner below
      have hhost : host.isText outer = false := hnot host (by simp [LensOp.names])
      rw [hhost, Bool.false_and, if_neg Bool.false_ne_true]
      rfl
    · rfl
  | plunge host name =>
    rw [carryFlat, hnot name (by simp [LensOp.names]), if_neg Bool.false_ne_true]
    rfl
  | wrap name =>
    rw [carryFlat, carryWrap.eq_def]
    split
    · rename_i token below
      have hname : name.isText token = false := hnot name List.mem_cons_self
      rw [hname]
      rfl
    · rfl
  | head name =>
    rw [carryFlat, carryHead.eq_def]
    split
    · rename_i token below
      have hname : name.isText token = false := hnot name List.mem_cons_self
      rw [hname]
      rfl
    · rename_i token below _
      have hname : name.isText token = false := hnot name List.mem_cons_self
      rw [hname]
      rfl
    · rfl
  | add property => rfl
  | remove property =>
    rw [carryFlat, hverb, Except.bind_ok]
    split
    · rfl
    · rw [hnot property.name List.mem_cons_self]
      rfl
  | inside name lens => rfl
  | each lens => rfl
  | convert name mapping source destination =>
    simp only [carryFlat, carryConvert, hverb, Except.bind_ok]
    split
    · rfl
    split
    · rename_i token
      have hname : name.isText token = false := hnot name List.mem_cons_self
      rw [hname]
      rfl
    · rfl

/-- An operation about other names leaves what is to be carried as it is. -/
theorem outcome_carry_beside (heach : ∀ lens, op ≠ .each lens) (hverb : p.verb = .ok verb)
    (h : ¬ path.Below op.names) : (LensOp.carry p path op).outcome = .ok (some p) := by
  by_cases hinside : ∃ name lens, op = .inside name lens
  · obtain ⟨name, lens, rfl⟩ := hinside
    exact outcome_carry_inside_of_not lens fun hstarts => h (Path.below_of_startsWith List.mem_cons_self hstarts)
  · rw [outcome_carry_flat op (fun name lens hop => hinside ⟨name, lens, hop⟩) heach]
    exact carryFlat_beside hverb h

private theorem Yields.exists_verb (h : op.Yields p q) (hverb : p.verb = .ok verb) : ∃ verb', q.verb = .ok verb' := by
  cases h with
  | kept => exact ⟨verb, hverb⟩
  | recoded v => exact ⟨verb, PatchOp.verb_withValue.trans hverb⟩
  | moved hname below => exact ⟨verb, PatchOp.verb_withPath.trans hverb⟩
  | written hname w v below => exact ⟨_, PatchOp.verb_withPath.trans rfl⟩
  | removed hname below => exact ⟨_, rfl⟩

private theorem exists_verb_flat (op : LensOp) (hinside : ∀ name lens, op ≠ .inside name lens)
    (heach : ∀ lens, op ≠ .each lens) (hverb : p.verb = .ok verb)
    (h : (LensOp.carry p path op).outcome = .ok (some q)) : ∃ verb', q.verb = .ok verb' := by
  rw [outcome_carry_flat op hinside heach] at h
  exact (yields_of_carryFlat h).exists_verb hverb

end LensOp

mutual

/-- What comes out of an operation says what it does if what went in did. -/
theorem LensOp.exists_verb {op : LensOp} {p q : PatchOp} {path : Path} {verb : Verb} (hverb : p.verb = .ok verb)
    (h : (LensOp.carry p path op).outcome = .ok (some q)) : ∃ verb', q.verb = .ok verb' := by
  match op with
  | .inside name lens =>
    by_cases hname : path.startsWith name = true
    · rw [LensOp.outcome_carry_within lens hname] at h
      obtain ⟨found, hfound, h⟩ := Except.exists_of_bind h
      cases found with
      | none => cases h
      | some found =>
        obtain ⟨below, -, h⟩ := Except.exists_of_bind h
        obtain rfl := Option.some.inj (Except.ok.inj h)
        rw [PatchOp.verb_withPath]
        exact Lens.exists_verb (PatchOp.verb_withPath.trans hverb) hfound
    · rw [LensOp.outcome_carry_inside_of_not lens hname] at h
      exact ⟨verb, Option.some.inj (Except.ok.inj h) ▸ hverb⟩
  | .each lens =>
    rw [LensOp.outcome_carry_each] at h
    split at h
    · exact ⟨verb, Option.some.inj (Except.ok.inj h) ▸ hverb⟩
    · obtain ⟨found, hfound, h⟩ := Except.exists_of_bind h
      cases found with
      | none => cases h
      | some found =>
        obtain ⟨below, -, h⟩ := Except.exists_of_bind h
        obtain rfl := Option.some.inj (Except.ok.inj h)
        rw [PatchOp.verb_withPath]
        exact Lens.exists_verb (PatchOp.verb_withPath.trans hverb) hfound
  | .rename source destination => exact LensOp.exists_verb_flat (.rename source destination) nofun nofun hverb h
  | .hoist host name => exact LensOp.exists_verb_flat (.hoist host name) nofun nofun hverb h
  | .plunge host name => exact LensOp.exists_verb_flat (.plunge host name) nofun nofun hverb h
  | .wrap name => exact LensOp.exists_verb_flat (.wrap name) nofun nofun hverb h
  | .head name => exact LensOp.exists_verb_flat (.head name) nofun nofun hverb h
  | .add property => exact LensOp.exists_verb_flat (.add property) nofun nofun hverb h
  | .remove property => exact LensOp.exists_verb_flat (.remove property) nofun nofun hverb h
  | .convert name mapping source destination =>
    exact LensOp.exists_verb_flat (.convert name mapping source destination) nofun nofun hverb h

private theorem Lens.exists_verb {lens : Lens} {p q : PatchOp} {verb : Verb} (hverb : p.verb = .ok verb)
    (h : (Lens.carry p lens).outcome = .ok (some q)) : ∃ verb', q.verb = .ok verb' := by
  match lens with
  | [] => exact ⟨verb, Option.some.inj (Except.ok.inj h) ▸ hverb⟩
  | op :: rest =>
    cases hpath : p.path with
    | error fault =>
      rw [Lens.outcome_carry_pathless hpath] at h
      cases h
    | ok path =>
    rw [Lens.outcome_carry_cons hpath] at h
    obtain ⟨found, hfound, h⟩ := Except.exists_of_bind h
    cases found with
    | none => cases h
    | some found =>
      obtain ⟨mid, hmid⟩ := LensOp.exists_verb hverb hfound
      exact Lens.exists_verb hmid h

end

namespace Lens

variable {lens first second : Lens}

/-- A lens about other names leaves what is to be carried as it is. -/
theorem outcome_carry_beside (heach : ∀ inner, .each inner ∉ lens) (hpath : p.path = .ok path)
    (hverb : p.verb = .ok verb) (h : ¬ path.Below lens.names) : (Lens.carry p lens).outcome = .ok (some p) := by
  induction lens with
  | nil => rfl
  | cons op rest ih =>
    have hop : ¬ path.Below op.names := fun ⟨name, hname, hbelow⟩ =>
      h ⟨name, List.mem_append_left _ hname, hbelow⟩
    have hrest : ¬ path.Below (names rest) := fun ⟨name, hname, hbelow⟩ =>
      h ⟨name, List.mem_append_right _ hname, hbelow⟩
    rw [outcome_carry_cons hpath,
      LensOp.outcome_carry_beside (fun inner heq => heach inner (heq ▸ List.mem_cons_self)) hverb hop, Except.bind_ok]
    exact ih (fun inner hmem => heach inner (List.mem_cons_of_mem _ hmem)) hrest

/-- What is below a name of a lens stays below its names. -/
theorem below_of_carry (heach : ∀ inner, .each inner ∉ lens) (hnames : ∀ name ∈ lens.names, name ∈ names)
    (hpath : p.path = .ok path) (hbelow : path.Below names) (h : (Lens.carry p lens).outcome = .ok (some q)) :
    ∃ path', q.path = .ok path' ∧ path'.Below names := by
  induction lens generalizing p path with
  | nil => exact ⟨path, Option.some.inj (Except.ok.inj h) ▸ hpath, hbelow⟩
  | cons op rest ih =>
    rw [outcome_carry_cons hpath] at h
    obtain ⟨found, hfound, h⟩ := Except.exists_of_bind h
    cases found with
    | none => cases h
    | some found =>
      have hrest {path : Path} (hpath : found.path = .ok path) (hbelow : path.Below names) :=
        ih (fun inner hmem => heach inner (List.mem_cons_of_mem _ hmem))
          (fun name hname => hnames name (List.mem_append_right _ hname)) hpath hbelow h
      obtain heq | ⟨name, hname, below, heq⟩ :=
        LensOp.path_of_carry (fun inner heq => heach inner (heq ▸ List.mem_cons_self)) hfound
      · exact hrest (heq.trans hpath) hbelow
      · exact hrest heq ⟨name, hnames name (List.mem_append_left _ hname), below, rfl⟩

/-- Below a name of one lens, the other one has nothing to do, before it or behind it. -/
theorem outcome_carry_below (hfirst : ∀ inner, .each inner ∉ first) (hsecond : ∀ inner, .each inner ∉ second)
    (hapart : ∀ a ∈ first.names, ∀ b ∈ second.names, a.plain ≠ b.plain) (hpath : p.path = .ok path)
    (hverb : p.verb = .ok verb) (hbelow : path.Below first.names) :
    (Lens.carry p (first ++ second)).outcome = (Lens.carry p first).outcome ∧
      (Lens.carry p (second ++ first)).outcome = (Lens.carry p first).outcome := by
  have hbeside {path : Path} (hbelow : path.Below first.names) : ¬ path.Below second.names := by
    obtain ⟨a, ha, below, rfl⟩ := hbelow
    rintro ⟨b, hb, below', heq⟩
    exact hapart a ha b hb (List.cons.inj heq).1
  constructor
  · rw [outcome_carry_append]
    cases hfound : (Lens.carry p first).outcome with
    | error fault => rfl
    | ok found =>
    cases found with
    | none => rfl
    | some q =>
    obtain ⟨path', hpath', hbelow'⟩ := below_of_carry hfirst (fun _ h => h) hpath hbelow hfound
    obtain ⟨verb', hverb'⟩ := exists_verb hverb hfound
    exact outcome_carry_beside hsecond hpath' hverb' (hbeside hbelow')
  · rw [outcome_carry_append, outcome_carry_beside hsecond hpath hverb (hbeside hbelow)]
    rfl

private theorem carry_commute (hfirst : ∀ inner, .each inner ∉ first) (hsecond : ∀ inner, .each inner ∉ second)
    (hapart : ∀ a ∈ first.names, ∀ b ∈ second.names, a.Apart b) (hpath : p.path = .ok path)
    (hverb : p.verb = .ok verb) :
    (Lens.carry p (first ++ second)).outcome = (Lens.carry p (second ++ first)).outcome := by
  by_cases hbelow : path.Below first.names
  · obtain ⟨hleft, hright⟩ := outcome_carry_below hfirst hsecond (fun a ha b hb => (hapart a ha b hb).1) hpath
      hverb hbelow
    rw [hleft, hright]
  by_cases hbelow' : path.Below second.names
  · obtain ⟨hleft, hright⟩ := outcome_carry_below hsecond hfirst (fun b hb a ha => (hapart a ha b hb).1.symm) hpath
      hverb hbelow'
    rw [hleft, hright]
  · rw [outcome_carry_append, outcome_carry_append, outcome_carry_beside hfirst hpath hverb hbelow,
      outcome_carry_beside hsecond hpath hverb hbelow']
    exact (outcome_carry_beside hsecond hpath hverb hbelow').trans
      (outcome_carry_beside hfirst hpath hverb hbelow).symm

end Lens

inductive Json.Shuffled : Json → Json → Prop
  | refl (v : Json) : Shuffled v v
  | obj {ms ns : Members} (h : ms.Perm ns) : Shuffled (.obj ms) (.obj ns)
  | arr {vs ws : List Json} (h : vs.Perm ws) : Shuffled (.arr vs) (.arr ws)

namespace Schema

/-- Schemas that differ in the order in which they describe and require members at most. -/
structure Reordered (ms ns : Members) : Prop where
  properties : Option.Rel Json.Shuffled (ms.get? "properties") (ns.get? "properties")
  required : Option.Rel Json.Shuffled (ms.get? "required") (ns.get? "required")
  beside : ∀ key : Scalar, key ≠ "properties" → key ≠ "required" → ms.get? key = ns.get? key

inductive AlikeOutcomes : Except Fault Json → Except Fault Json → Prop
  | schemas {ms ns : Members} (h : Reordered ms ns) : AlikeOutcomes (.ok (.obj ms)) (.ok (.obj ns))
  | faults (fault fault' : Fault) : AlikeOutcomes (.error fault) (.error fault')

variable {ms : Members}

private theorem Reordered.refl (ms : Members) : Reordered ms ms where
  properties := by cases ms.get? "properties" with
    | none => exact .none
    | some v => exact .some (.refl v)
  required := by cases ms.get? "required" with
    | none => exact .none
    | some v => exact .some (.refl v)
  beside _ _ _ := rfl

def Revision.shape : Revision → Revision
  | none => none
  | described _ => described []
  | told _ _ => told [] []

private theorem Revision.shape_only (sel : Selection) (r : Revision) : (r.only sel).shape = r.shape := by
  cases r <;> rfl

private theorem Revision.shape_followedBy (first second : Revision) :
    (first.followedBy second).shape = first.shape.followedBy second.shape := by
  cases second <;> cases first <;> rfl

private theorem Revision.followedBy_shape_comm (first second : Revision) :
    first.shape.followedBy second.shape = second.shape.followedBy first.shape := by
  cases second <;> cases first <;> rfl

private theorem perm_of_filter {sel : Selection} {names names' : List Json}
    (hchosen : names.filter sel.chosen = names'.filter sel.chosen)
    (hothers : names.filter sel.others.chosen = names'.filter sel.others.chosen) : names.Perm names' :=
  (List.filter_append_perm sel.chosen names).symm.trans
    (hchosen ▸ hothers ▸ List.filter_append_perm sel.chosen names')

private theorem reordered_describe {props props' : Members} (hperm : props.Perm props') :
    Reordered (withProperties ms props) (withProperties ms props') where
  properties := by simpa [withProperties] using Option.Rel.some (.obj hperm)
  required := by
    rw [get?_withProperties (by simp), get?_withProperties (by simp)]
    exact (Reordered.refl ms).required
  beside key hprops _ := by simp [withProperties, Members.get?_put, hprops]

private theorem reordered_tell {props props' : Members} {names names' : List Json} (hperm : props.Perm props')
    (hnames : names.Perm names') :
    Reordered (withRequired (withProperties ms props) names) (withRequired (withProperties ms props') names') where
  properties := by
    rw [get?_withRequired _ (by simp), get?_withRequired _ (by simp)]
    exact (reordered_describe hperm).properties
  required := by simpa [withRequired] using Option.Rel.some (.arr hnames)
  beside key hprops hrequired := by simp [withProperties, withRequired, Members.get?_put, hprops, hrequired]

/-- Revisions that say the same anew about chosen members and about the others differ in the order of members. -/
private theorem Revision.reordered {r r' : Revision} {sel : Selection} (hchosen : r.only sel = r'.only sel)
    (hothers : r.only sel.others = r'.only sel.others) : Reordered (r.write ms) (r'.write ms) := by
  cases r with
  | none =>
    cases r' with
    | none => exact .refl ms
    | _ => cases hchosen
  | described props =>
    cases r' with
    | described props' =>
      exact reordered_describe
        (Members.perm_of_only (Revision.described.inj hchosen) (Revision.described.inj hothers))
    | _ => cases hchosen
  | told props names =>
    cases r' with
    | told props' names' =>
      obtain ⟨hprops, hnames⟩ := Revision.told.inj hchosen
      obtain ⟨hprops', hnames'⟩ := Revision.told.inj hothers
      exact reordered_tell (Members.perm_of_only hprops hprops') (perm_of_filter hnames hnames')
    | _ => cases hchosen

/-- Where the same is said in the end, revisions of one shape have said the same anew. -/
private theorem Revision.only_eq_of_after {sel : Selection} {said : Roster} {r r' : Revision}
    (hshape : r.shape = r'.shape)
    (h : (said.after r).only sel = (said.after r').only sel) : r.only sel = r'.only sel := by
  obtain ⟨hprops, hnames⟩ := Roster.mk.inj h
  cases r with
  | none => cases r' with
    | none => rfl
    | _ => cases hshape
  | described props => cases r' with
    | described props' => exact congrArg Revision.described (Except.ok.inj hprops)
    | _ => cases hshape
  | told props names => cases r' with
    | told props' names' => exact congrArg₂ Revision.told (Except.ok.inj hprops) (Except.ok.inj hnames)
    | _ => cases hshape

/-- Objects that are read as members have one for each key. -/
private theorem distinct_of_asMembers {v : Json} {props : Members} (hv : ∀ ps : Members, v = .obj ps → ps.Distinct)
    (h : v.asMembers = .ok props) : props.Distinct := by
  cases v with
  | obj ps => exact Except.ok.inj h ▸ hv ps rfl
  | _ =>
    obtain ⟨vs, -, h⟩ := Except.exists_of_bind h
    obtain ⟨entries, -, h⟩ := Except.exists_of_bind h
    exact Except.ok.inj h ▸ Members.Distinct.putAll .nil entries

private theorem roster_distinct (h : ∀ props : Members, ms.get? "properties" = some (.obj props) → props.Distinct) :
    (roster ms).Distinct := fun props hprops => by
  refine distinct_of_asMembers (fun ps hps => ?_) hprops
  rw [Json.orElse] at hps
  split at hps
  · refine h ps ?_
    rw [Members.valueOf] at hps
    cases hget : ms.get? "properties" with
    | none => rw [hget] at hps; cases hps
    | some v => rw [hget] at hps; exact congrArg some hps
  · cases hps
    exact .nil

end Schema

namespace Lens

open Schema

variable {first second : Lens} {ms : Members}

private theorem eq_ok_of_map {α β : Type} {f : α → β} {x y : Except Fault α} {a : α} (h : f <$> x = f <$> y)
    (hy : y = .ok a) : ∃ b, x = .ok b ∧ f b = f a := by
  subst hy
  cases x with
  | error fault => cases h
  | ok b => exact ⟨b, rfl, Except.ok.inj h⟩

private theorem eq_error_of_map {α β : Type} {f : α → β} {x y : Except Fault α} {fault : Fault}
    (h : f <$> x = f <$> y) (hy : y = .error fault) : x = .error fault := by
  subst hy
  cases x with
  | error fault' => exact congrArg Except.error (Except.error.inj h)
  | ok b => cases h

private theorem covers_ofNames (names : List Json) : Covers (.ofNames names) names := fun key hkey =>
  List.any_eq_true.2 ⟨.scalar key, hkey, by simp [Json.same]⟩

private theorem avoids_ofNames {names others : List Json} (h : ∀ a ∈ names, ∀ b ∈ others, a.Apart b) :
    Avoids (.ofNames names) others := fun key hkey => by
  refine List.any_eq_false.2 fun name hname => ?_
  have hne := (h name hname _ hkey).2
  cases name with
  | scalar s => simpa [Json.same, Scalar.same_comm] using hne
  | _ => simp [Json.same]

private theorem follow_commute (hfirst : ∀ inner, .each inner ∉ first) (hsecond : ∀ inner, .each inner ∉ second)
    (hapart : ∀ a ∈ first.names, ∀ b ∈ second.names, a.Apart b)
    (hdistinct : ∀ props : Members, ms.get? "properties" = some (.obj props) → props.Distinct) :
    AlikeOutcomes (Lens.follow (.obj ms) (first ++ second)).outcome
      (Lens.follow (.obj ms) (second ++ first)).outcome := by
  have hsaid := roster_distinct hdistinct
  -- The names of the first lens are chosen, so the others have those of the second one.
  let sel := Selection.ofNames first.names
  have hcovers : Covers sel first.names := covers_ofNames _
  have havoids : Avoids sel second.names := avoids_ofNames hapart
  have hcovers' : Covers sel.others second.names := fun key hkey => by simp [Selection.others, havoids key hkey]
  have havoids' : Avoids sel.others first.names := fun key hkey => by simp [Selection.others, hcovers key hkey]
  rw [outcome_follow_append, outcome_follow_append, outcome_follow_eq hfirst, outcome_follow_eq hsecond]
  cases h₁ : Lens.revise (roster ms) first with
  | error fault =>
    cases h₂ : Lens.revise (roster ms) second with
    | error fault' => exact .faults fault fault'
    | ok r₂ =>
      have h₂₁ := eq_error_of_map (revise_after hcovers havoids hsaid h₂) h₁
      simp only [Except.map, Except.bind_ok, outcome_follow_eq hfirst, roster_write, h₂₁]
      exact .faults fault fault
  | ok r₁ =>
    cases h₂ : Lens.revise (roster ms) second with
    | error fault =>
      have h₁₂ := eq_error_of_map (revise_after hcovers' havoids' hsaid h₁) h₂
      simp only [Except.map, Except.bind_ok, outcome_follow_eq hsecond, roster_write, h₁₂]
      exact .faults fault fault
    | ok r₂ =>
      obtain ⟨r₁₂, h₁₂, honly₁₂⟩ := eq_ok_of_map (revise_after hcovers' havoids' hsaid h₁) h₂
      obtain ⟨r₂₁, h₂₁, honly₂₁⟩ := eq_ok_of_map (revise_after hcovers havoids hsaid h₂) h₁
      simp only [Except.map, Except.bind_ok, outcome_follow_eq hfirst, outcome_follow_eq hsecond, roster_write, h₁₂,
        h₂₁]
      have hshape : (r₁.followedBy r₁₂).shape = (r₂.followedBy r₂₁).shape := by
        rw [Revision.shape_followedBy, Revision.shape_followedBy, ← Revision.shape_only sel.others r₁₂, honly₁₂,
          Revision.shape_only, ← Revision.shape_only sel r₂₁, honly₂₁, Revision.shape_only,
          Revision.followedBy_shape_comm]
      obtain ⟨hframe₁, hsaid₁⟩ := revise_frame havoids' hsaid h₁
      obtain ⟨hframe₂, hsaid₂⟩ := revise_frame havoids hsaid h₂
      -- The chosen members are those of the first lens, whichever of the two comes first.
      have hchosen : ((roster ms).after (r₁.followedBy r₁₂)).only sel =
          ((roster ms).after (r₂.followedBy r₂₁)).only sel := by
        rw [Roster.after_followedBy, Roster.after_followedBy, (revise_frame havoids hsaid₁ h₁₂).1,
          Roster.only_after r₁, Roster.only_after r₂₁, hframe₂, honly₂₁]
      have hothers : ((roster ms).after (r₁.followedBy r₁₂)).only sel.others =
          ((roster ms).after (r₂.followedBy r₂₁)).only sel.others := by
        rw [Roster.after_followedBy, Roster.after_followedBy, (revise_frame havoids' hsaid₂ h₂₁).1,
          Roster.only_after r₁₂, Roster.only_after r₂, hframe₁, honly₁₂]
      rw [← Revision.write_followedBy, ← Revision.write_followedBy]
      exact .schemas (Revision.reordered (Revision.only_eq_of_after hshape hchosen)
        (Revision.only_eq_of_after hshape hothers))

/-- Lenses that share no name can change places: what is carried through both comes out the same, or is dropped or
stops for the same reason, and a schema gets the same members, in some order. -/
theorem append_comm_of_apart (hfirst : ∀ inner, .each inner ∉ first) (hsecond : ∀ inner, .each inner ∉ second)
    (hapart : ∀ a ∈ first.names, ∀ b ∈ second.names, a.Apart b) :
    (∀ {p : PatchOp} {path : Path} {verb : Verb}, p.path = .ok path → p.verb = .ok verb →
      (Lens.carry p (first ++ second)).outcome = (Lens.carry p (second ++ first)).outcome) ∧
    ∀ ms : Members, (∀ props : Members, ms.get? "properties" = some (.obj props) → props.Distinct) →
      AlikeOutcomes (Lens.follow (.obj ms) (first ++ second)).outcome
        (Lens.follow (.obj ms) (second ++ first)).outcome :=
  ⟨carry_commute hfirst hsecond hapart, fun _ => follow_commute hfirst hsecond hapart⟩

/-- A name that leaves its host, and another one that goes into a host, among members of which both kinds are
required. -/
theorem append_comm_hoist_plunge :
    let first : Lens := [.hoist (.str "author") (.str "name"), .rename (.str "name") (.str "byline")]
    let second : Lens := [.add ⟨.str "tags", .str "array", .null, .null, .null⟩, .plunge (.str "meta") (.str "size")]
    let p : PatchOp := .add ["author", "name"] (.str "x")
    let author : Members :=
      [("properties", .obj [("name", .obj [("type", .str "string")])]), ("required", .arr [.str "name"])]
    let props : Members := [("size", .obj [("type", .str "integer")]), ("author", .obj author), ("meta", .obj [])]
    let ms : Members := [("required", .arr [.str "meta", .str "size"]), ("properties", .obj props)]
    (∀ a ∈ Lens.names first, ∀ b ∈ Lens.names second, a.Apart b) ∧ p.path = .ok ["author", "name"] ∧
      p.verb = .ok .add ∧ (Lens.carry p (first ++ second)).outcome = (Lens.carry p (second ++ first)).outcome ∧
      (∃ next, (Lens.follow (.obj ms) (first ++ second)).outcome = .ok next) ∧
      AlikeOutcomes (Lens.follow (.obj ms) (first ++ second)).outcome
        (Lens.follow (.obj ms) (second ++ first)).outcome := by
  intro first second p author props ms
  have hfirst : ∀ inner, LensOp.each inner ∉ first := by simp [first]
  have hsecond : ∀ inner, LensOp.each inner ∉ second := by simp [second]
  have hapart : ∀ a ∈ Lens.names first, ∀ b ∈ Lens.names second, a.Apart b := by
    simp [first, second, Lens.names, LensOp.names, Json.apart_text]
  have hdistinct : ∀ ps : Members, ms.get? "properties" = some (.obj ps) → ps.Distinct := fun ps hps => by
    obtain rfl : props = ps := by simpa [ms, Members.get?_cons] using hps
    simp [Members.Distinct, props]
  have hedits := (PatchOp.Writes.toOp .add ["author", "name"] (.str "x")).edits
  obtain ⟨hcarry, hfollow⟩ := append_comm_of_apart hfirst hsecond hapart
  exact ⟨hapart, hedits.path, PatchOp.verb_of_edit hedits.edit,
    hcarry hedits.path (PatchOp.verb_of_edit hedits.edit), ⟨_, rfl⟩, hfollow ms hdistinct⟩

end Lens

end EditLens
