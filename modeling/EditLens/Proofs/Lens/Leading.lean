import EditLens.Proofs.Lens.Taking
import EditLens.Proofs.Patch.Redoing
import EditLens.Proofs.Schema.Filled

/-! Lenses that put nothing deeper. Main statement: where the steps that make an object come out of such a lens,
whatever leads to the place of a step has been written before. -/
namespace EditLens

mutual

/-- Whether an operation puts a member into an object or an array, in the lenses inside it too. -/
def LensOp.deepens : LensOp → Bool
  | .plunge _ _ => true
  | .wrap _ => true
  | .inside _ lens => Lens.deepens lens
  | .each lens => Lens.deepens lens
  | _ => false

def Lens.deepens : Lens → Bool
  | [] => false
  | op :: rest => op.deepens || Lens.deepens rest

end

abbrev Taking := Edit → Path → Except Fault (Option (Edit × Path))

namespace Taking

/-- Whether additions at a path come out at another one, unless they fail. -/
def Brings (take : Taking) (path path' : Path) : Prop :=
  ∀ v left, take (.add v) path = .ok left → ∃ v', left = some (.add v', path')

def Traces (take : Taking) (path path' : Path) : Prop :=
  ∀ first above' below', path' = first :: (above' ++ below') → below' ≠ [] →
    ∃ start above below, path = start :: (above ++ below) ∧ below ≠ [] ∧
      Brings take (start :: above) (first :: above')

/-- Whether additions come out as additions, and what leads to the place of one comes from what led to the place
before. -/
def Leads (take : Taking) : Prop :=
  ∀ v path e' path', take (.add v) path = .ok (some (e', path')) →
    (∃ v', e' = .add v') ∧ Traces take path path'

private theorem Brings.of_eq {take : Taking} {path path' : Path}
    (h : ∀ v, take (.add v) path = .ok (some (.add v, path'))) : Brings take path path' := by
  intro v left hleft
  rw [h] at hleft
  exact ⟨v, (Except.ok.inj hleft).symm⟩

/-- Where additions at a place and in front of it stay as they are, what leads to the place is kept. -/
private theorem traces_same {take : Taking} {v : Json} {path path' : Path} {e' : Edit}
    (hsame : ∀ u front back, path = front ++ back → take (.add u) front = .ok (some (.add u, front)))
    (h : take (.add v) path = .ok (some (e', path'))) : (∃ v', e' = .add v') ∧ Traces take path path' := by
  rw [hsame v path [] (by simp)] at h
  obtain ⟨rfl, rfl⟩ := left_inj h
  exact ⟨⟨v, rfl⟩, fun first above below hpath hbelow =>
    ⟨first, above, below, hpath, hbelow, .of_eq fun u => hsame u _ below hpath⟩⟩

/-- Where a path is changed in its first token alone, what leads to a place is kept. -/
private theorem leads_of_first {take : Taking} {first : String → Option String}
    (hroot : ∀ v, take (.add v) [] = .ok (some (.add v, [])))
    (htake : ∀ v token rest left, take (.add v) (token :: rest) = .ok left →
      ∃ v', left = (first token).map fun next => (.add v', next :: rest)) : Leads take := by
  intro v path e' path' h
  cases path with
  | nil =>
    rw [hroot] at h
    obtain ⟨rfl, rfl⟩ := left_inj h
    exact ⟨⟨v, rfl⟩, nofun⟩
  | cons token rest =>
    obtain ⟨v', hleft⟩ := htake v token rest _ h
    obtain ⟨next, hnext, hpair⟩ := Option.map_eq_some_iff.1 hleft.symm
    obtain ⟨rfl, rfl⟩ := Prod.mk.inj hpair
    refine ⟨⟨v', rfl⟩, fun start above below hpath hbelow => ?_⟩
    obtain ⟨rfl, rfl⟩ := List.cons.inj hpath
    refine ⟨token, above, below, rfl, hbelow, fun u left hu => ?_⟩
    obtain ⟨u', hu'⟩ := htake u token above left hu
    exact ⟨u', by rw [hu', hnext]; rfl⟩

end Taking

/-- Where a path does not start with a member, its front does not either. -/
private theorem Path.startsWith_front {name : Json} {front back : Path}
    (h : Path.startsWith (front ++ back) name = false) : front.startsWith name = false := by
  cases front with
  | nil => rfl
  | cons token rest => exact h

private theorem Path.exists_of_startsWith {name : Json} {path : Path} (h : path.startsWith name = true) :
    ∃ token rest, name = .str token ∧ path = token :: rest := by
  cases path with
  | nil => cases h
  | cons token rest =>
    refine ⟨token, rest, ?_, rfl⟩
    simp only [Path.startsWith, Json.isText] at h
    split at h
    · rw [eq_of_beq h]
    · cases h

namespace LensOp

open Taking

private theorem rename_leads (source destination : Json) :
    Leads ((rename source destination).take · ·) := by
  let first : String → Option String := fun token => some (if source.isText token then destination.plain else token)
  refine @leads_of_first _ first (fun _ => take_root _) fun v token rest left h => ⟨v, ?_⟩
  rw [← Except.ok.inj h]
  by_cases hname : source.isText token = true <;> simp [first, Path.startsWith, hname, Edit.written?]

private theorem remove_leads (property : Property) : Leads ((remove property).take · ·) := by
  let first : String → Option String := fun token => if property.name.isText token then none else some token
  refine @leads_of_first _ first (fun _ => take_root _) fun v token rest left h => ⟨v, ?_⟩
  rw [← Except.ok.inj h]
  by_cases hname : property.name.isText token = true <;> simp [first, Path.startsWith, hname]

private theorem add_leads (property : Property) : Leads ((add property).take · ·) :=
  @leads_of_first _ some (fun _ => take_root _) fun v _ _ _ h => ⟨v, (Except.ok.inj h).symm⟩

private theorem convert_leads (name : Json) (mapping : Mapping) (source destination : Json) :
    Leads ((convert name mapping source destination).take · ·) := by
  refine @leads_of_first _ some (fun _ => take_root _) fun v token rest left h => ?_
  change takeConvert name mapping (.add v) (token :: rest) = .ok left at h
  cases rest with
  | cons next rest => exact ⟨v, (Except.ok.inj h).symm⟩
  | nil =>
    rw [takeConvert.eq_def] at h
    simp only [Edit.written?] at h
    split at h
    · split at h
      · exact ⟨_, (Except.ok.inj h).symm⟩
      · cases h
    · exact ⟨v, (Except.ok.inj h).symm⟩

private theorem hoist_leads (host name : Json) : Leads ((hoist host name).take · ·) := by
  intro v path e' path' h
  by_cases hmoves : ∃ outer inner rest, path = outer :: inner :: rest ∧
      (host.isText outer && name.isText inner) = true
  · obtain ⟨outer, inner, rest, rfl, hmoves⟩ := hmoves
    simp only [LensOp.take, if_pos hmoves] at h
    obtain ⟨rfl, rfl⟩ := left_inj h
    refine ⟨⟨v, rfl⟩, fun first above below hpath hbelow => ?_⟩
    obtain ⟨rfl, rfl⟩ := List.cons.inj hpath
    exact ⟨outer, inner :: above, below, rfl, hbelow, .of_eq fun u => by simp only [LensOp.take, if_pos hmoves]⟩
  · refine traces_same (fun u front back hfront => ?_) h
    match front with
    | [] | [_] => rfl
    | outer :: inner :: rest =>
      have hstays := fun h => hmoves ⟨outer, inner, rest ++ back, hfront, h⟩
      simp only [LensOp.take, if_neg hstays]

private theorem takeHead_of_not {name : Json} {path : Path} (h : path.startsWith name = false) (e : Edit) :
    takeHead name e path = some (e, path) := by
  unfold takeHead
  split <;> simp_all [Path.startsWith]

private theorem takeHead_first {name : Json} {token : String} (h : name.isText token = true) (v : Json)
    (below : Path) : takeHead name (.add v) (token :: "0" :: below) = some (.add v, name.plain :: below) := by
  simp [takeHead, h]

private theorem head_leads (name : Json) : Leads ((head name).take · ·) := by
  intro v path e' path' h
  cases hstarts : path.startsWith name with
  | false =>
    exact traces_same (fun u front back hfront =>
      congrArg Except.ok (takeHead_of_not (Path.startsWith_front (hfront ▸ hstarts)) _)) h
  | true =>
    cases path with
    | nil => cases hstarts
    | cons token rest =>
      have hhead := Except.ok.inj h
      by_cases hfirst : ∃ below, rest = "0" :: below
      · obtain ⟨below, rfl⟩ := hfirst
        rw [takeHead_first hstarts] at hhead
        obtain ⟨rfl, rfl⟩ := Prod.mk.inj (Option.some.inj hhead)
        refine ⟨⟨v, rfl⟩, fun first above below hpath hbelow => ?_⟩
        obtain ⟨rfl, rfl⟩ := List.cons.inj hpath
        exact ⟨token, "0" :: above, below, rfl, hbelow,
          .of_eq fun u => congrArg Except.ok (takeHead_first hstarts u above)⟩
      · rw [takeHead.eq_2 _ _ _ _ fun below hbelow => hfirst ⟨below, hbelow⟩] at hhead
        rw [Path.startsWith] at hstarts
        simp [hstarts] at hhead

end LensOp

/-- Behind a place, what is left of an edit is behind the place. -/
private theorem exists_of_behind {above path' : Path} {e' : Edit} {taken : Except Fault (Option (Edit × Path))}
    (h : behind above taken = .ok (some (e', path'))) :
    ∃ below', taken = .ok (some (e', below')) ∧ path' = above ++ below' := by
  rcases taken with fault | _ | ⟨e'', below⟩
  · cases h
  · cases h
  · obtain ⟨rfl, rfl⟩ := left_inj h
    exact ⟨below, rfl, rfl⟩

namespace Taking

variable {take : Taking} {lens : Lens}

/-- Additions that are brought from one place to another are brought so behind any place. -/
private theorem Brings.behind {above below below' : Path} (h : Brings (Lens.take · · lens) below below')
    (htake : ∀ v, take (.add v) (above ++ below) = EditLens.behind above (Lens.take (.add v) below lens)) :
    Brings take (above ++ below) (above ++ below') := by
  intro v left hleft
  rw [htake] at hleft
  cases hinner : Lens.take (.add v) below lens with
  | error fault =>
    rw [hinner] at hleft
    cases hleft
  | ok found =>
    obtain ⟨v', rfl⟩ := h v found hinner
    rw [hinner] at hleft
    exact ⟨v', (Except.ok.inj hleft).symm⟩

/-- A place is in front of a path, or goes on behind it. -/
private theorem front_cases {outer rest above below : Path} (h : outer ++ rest = above ++ below) :
    (∃ back, back ≠ [] ∧ above = outer ++ back ∧ rest = back ++ below) ∨
      ∃ mid, outer = above ++ mid ∧ below = mid ++ rest := by
  rcases List.append_eq_append_iff.1 h with ⟨back, habove, hrest⟩ | ⟨mid, houter, hbelow⟩
  · by_cases hback : back = []
    · subst hback
      exact .inr ⟨[], by simpa using habove.symm, by simpa using hrest.symm⟩
    · exact .inl ⟨back, hback, habove, hrest⟩
  · exact .inr ⟨mid, houter, hbelow⟩

/-- Where a lens is used below a place, and additions that are not below it stay as they are, what leads to a place
is kept. -/
private theorem leads_behind {outer rest path' : Path} {v : Json} {e' : Edit} (houter : outer ≠ [])
    (hlens : Leads (Lens.take · · lens))
    (hbelow : ∀ u below, below ≠ [] →
      take (.add u) (outer ++ below) = EditLens.behind outer (Lens.take (.add u) below lens))
    (hfront : ∀ u front back, outer = front ++ back → take (.add u) front = .ok (some (.add u, front)))
    (h : EditLens.behind outer (Lens.take (.add v) rest lens) = .ok (some (e', path'))) :
    (∃ v', e' = .add v') ∧ Traces take (outer ++ rest) path' := by
  obtain ⟨inner, hinner, rfl⟩ := exists_of_behind h
  obtain ⟨hadd, hleads⟩ := hlens v rest e' inner hinner
  refine ⟨hadd, fun first above' below' hpath hbelow' => ?_⟩
  rw [← List.cons_append] at hpath
  rcases front_cases hpath with ⟨back, hback, habove, hsplit⟩ | ⟨mid, hmid, rfl⟩
  · obtain ⟨second, back, rfl⟩ := List.exists_cons_of_ne_nil hback
    obtain ⟨start, above, below, rfl, hne, hbrings⟩ := hleads second back below' hsplit hbelow'
    obtain ⟨token, tokens, rfl⟩ := List.exists_cons_of_ne_nil houter
    refine ⟨token, tokens ++ start :: above, below, by simp, hne, ?_⟩
    rw [habove]
    exact hbrings.behind fun u => hbelow u _ (by simp)
  · refine ⟨first, above', mid ++ rest, by rw [hmid]; simp, fun hnone => ?_, .of_eq fun u => hfront u _ mid hmid⟩
    obtain ⟨rfl, rfl⟩ := List.append_eq_nil_iff.1 hnone
    rw [Lens.take_root] at hinner
    obtain ⟨-, rfl⟩ := left_inj hinner
    exact hbelow' rfl

/-- What leads to a place is kept by one thing after the other. -/
private theorem Leads.cons {op : LensOp} (hop : Leads (op.take · ·))
    (hlens : Leads (Lens.take · · lens)) : Leads (Lens.take · · (op :: lens)) := by
  have hbrings : ∀ {path mid path' : Path}, Brings (op.take · ·) path mid →
      Brings (Lens.take · · lens) mid path' →
      Brings (Lens.take · · (op :: lens)) path path' := by
    intro path mid path' hfirst hsecond v left hleft
    obtain ⟨found, hfound, hleft⟩ := Except.exists_of_bind hleft
    obtain ⟨u, rfl⟩ := hfirst v found hfound
    exact hsecond u left hleft
  intro v path e' path' h
  obtain ⟨found, hfound, h⟩ := Except.exists_of_bind h
  cases found with
  | none => cases h
  | some change =>
    obtain ⟨e, mid⟩ := change
    obtain ⟨⟨u, rfl⟩, hfirst⟩ := hop v path e mid hfound
    obtain ⟨hadd, hsecond⟩ := hlens u mid e' path' h
    refine ⟨hadd, fun first above' below' hpath hbelow => ?_⟩
    obtain ⟨start, above, below, hmid, hne, hlater⟩ := hsecond first above' below' hpath hbelow
    obtain ⟨origin, front, back, horigin, hback, hearlier⟩ := hfirst start above below hmid hne
    exact ⟨origin, front, back, horigin, hback, hbrings hearlier hlater⟩

end Taking

/-- A path that is cut is cut at the same index with more tokens behind it. -/
private theorem Path.cutAtIndex?_append {path above below : Path} (h : path.cutAtIndex? = some (above, below))
    (rest : Path) : (path ++ rest).cutAtIndex? = some (above, below ++ rest) := by
  obtain ⟨rfl, hbelow, hcut⟩ := Path.cutAtIndex?_eq_some h
  rw [List.append_assoc]
  exact hcut (by simp [hbelow])

/-- In front of where a path is cut, it is not. -/
private theorem Path.cutAtIndex?_front {front back below : Path}
    (h : Path.cutAtIndex? (front ++ back ++ below) = some (front ++ back, below)) : front.cutAtIndex? = none := by
  cases hcut : front.cutAtIndex? with
  | none => rfl
  | some cut =>
    have hlonger := cutAtIndex?_append hcut (back ++ below)
    rw [← List.append_assoc, h] at hlonger
    obtain ⟨habove, -⟩ := Prod.mk.inj (Option.some.inj hlonger)
    obtain ⟨hfront, hbelow, -⟩ := Path.cutAtIndex?_eq_some hcut
    have hlength := congrArg List.length (habove ▸ hfront)
    have := List.length_pos_iff.2 hbelow
    simp only [List.length_append] at hlength
    omega

open Taking

namespace LensOp

variable {lens : Lens}

private theorem inside_leads (name : Json) (hlens : Leads (Lens.take · · lens)) :
    Leads ((inside name lens).take · ·) := by
  intro v path e' path' h
  cases hstarts : path.startsWith name with
  | false =>
    refine traces_same (fun u front back hfront => ?_) h
    simp only [LensOp.take, Path.startsWith_front (hfront ▸ hstarts), Bool.false_eq_true, if_false]
  | true =>
    obtain ⟨token, rest, rfl, rfl⟩ := Path.exists_of_startsWith hstarts
    simp only [LensOp.take_inside, if_true] at h
    refine leads_behind (by simp) hlens (fun u below _ => by simp [LensOp.take_inside])
      (fun u front back hfront => ?_) h
    rcases List.singleton_eq_append_iff.1 hfront with ⟨rfl, -⟩ | ⟨rfl, -⟩
    · exact take_root _
    · simp [LensOp.take_inside, behind, Except.map]

private theorem each_leads (hlens : Leads (Lens.take · · lens)) :
    Leads ((each lens).take · ·) := by
  intro v path e' path' h
  cases hcut : path.cutAtIndex? with
  | none =>
    refine traces_same (fun u front back hfront => ?_) h
    have hfront : front.cutAtIndex? = none := by
      cases hcutFront : front.cutAtIndex? with
      | none => rfl
      | some cut =>
        rw [hfront, Path.cutAtIndex?_append hcutFront back] at hcut
        cases hcut
    simp only [LensOp.take, hfront]
  | some cut =>
    obtain ⟨above, below⟩ := cut
    simp only [LensOp.take, hcut] at h
    obtain ⟨rfl, hbelow, hother⟩ := Path.cutAtIndex?_eq_some hcut
    refine leads_behind (Path.cutAtIndex?_ne_nil hcut) hlens (fun u other hne => ?_)
      (fun u front back hfront => ?_) h
    · simp only [LensOp.take, hother hne]
    · subst hfront
      simp only [LensOp.take, Path.cutAtIndex?_front hcut]

end LensOp

open LensOp

mutual

theorem LensOp.leads_of_not_deepens (op : LensOp) (h : op.deepens = false) : Leads (op.take · ·) := by
  match op with
  | .rename source destination => exact rename_leads source destination
  | .hoist host name => exact hoist_leads host name
  | .head name => exact head_leads name
  | .add property => exact add_leads property
  | .remove property => exact remove_leads property
  | .convert name mapping source destination => exact convert_leads name mapping source destination
  | .inside name lens => exact inside_leads name (Lens.leads_of_not_deepens lens h)
  | .each lens => exact each_leads (Lens.leads_of_not_deepens lens h)
  | .plunge _ _ => cases h
  | .wrap _ => cases h

/-- A lens that puts nothing deeper keeps what leads to a place. -/
theorem Lens.leads_of_not_deepens (lens : Lens) (h : lens.deepens = false) : Leads (Lens.take · · lens) := by
  match lens with
  | [] =>
    intro v path e' path' hnone
    obtain ⟨rfl, rfl⟩ := left_inj hnone
    exact ⟨⟨v, rfl⟩, fun first above below hpath hbelow => ⟨first, above, below, hpath, hbelow, .of_eq fun _ => rfl⟩⟩
  | op :: rest =>
    rw [Lens.deepens, Bool.or_eq_false_iff] at h
    exact (LensOp.leads_of_not_deepens op h.1).cons (Lens.leads_of_not_deepens rest h.2)

end

namespace Patch

variable {written written' : Path → Prop} {lens : Lens} {ps qs : Patch} {path : Path}

def Reaches (written : Path → Prop) (path : Path) : Prop :=
  ∀ above below, path = above ++ below → above ≠ [] → below ≠ [] → written above

/-- Additions below the root of which each has, on the way to its place, only what was written before. -/
inductive Rooted : (Path → Prop) → Patch → Prop
  | nil {written : Path → Prop} : Rooted written []
  | cons {written : Path → Prop} {p : PatchOp} {v : Json} {path : Path} {rest : Patch} (edits : p.Edits (.add v) path)
    (root : path ≠ []) (reaches : Reaches written path)
    (others : Rooted ((Edit.add v).writes path written) rest) : Rooted written (p :: rest)

private theorem Reaches.mono (h : Reaches written path) (hwritten : ∀ path, written path → written' path) :
    Reaches written' path := fun above below hpath habove hbelow => hwritten _ (h above below hpath habove hbelow)

/-- Below a place that is written itself, what leads there is written. -/
private theorem Reaches.child (h : Reaches written path) (hpath : path ≠ [] → written path) (token : String) :
    Reaches written (path ++ [token]) := by
  intro above below hsplit habove hbelow
  rcases List.eq_nil_or_concat below with rfl | ⟨front, last, rfl⟩
  · exact absurd rfl hbelow
  · rw [List.concat_eq_append, ← List.append_assoc] at hsplit
    obtain rfl := (List.append_inj' hsplit rfl).1
    by_cases hfront : front = []
    · subst hfront
      simpa using hpath (by simpa using habove)
    · exact h above front rfl habove hfront

private theorem Rooted.mono (h : Rooted written ps) (hwritten : ∀ path, written path → written' path) :
    Rooted written' ps := by
  induction h generalizing written' with
  | nil => exact .nil
  | cons edits root reaches _ ih =>
    exact .cons edits root (reaches.mono hwritten) (ih fun path hpath => hpath.imp (hwritten path) id)

private theorem Rooted.append (hps : Rooted written ps) (hqs : Rooted written qs) : Rooted written (ps ++ qs) := by
  induction hps with
  | nil => exact hqs
  | cons edits root reaches _ ih => exact .cons edits root reaches (ih (hqs.mono fun _ => .inl))

mutual

private theorem rooted_steps {written : Path → Prop} {path : Path} (v : Json) (root : path ≠ [])
    (reaches : Reaches written path) : Rooted written (Write.add.steps path v) := by
  have hbelow : ∀ u, Reaches ((Edit.add u).writes path written) path := fun u => reaches.mono fun _ => .inl
  match v with
  | .scalar s => exact .cons (PatchOp.edits_add path _) root reaches .nil
  | .arr es =>
    exact .cons (PatchOp.edits_add path _) root reaches
      (rooted_elementSteps es 0 (hbelow _) fun _ => .inr ⟨rfl, rfl⟩)
  | .obj ms =>
    exact .cons (PatchOp.edits_add path _) root reaches
      (rooted_memberSteps ms (hbelow _) fun _ => .inr ⟨rfl, rfl⟩)

private theorem rooted_elementSteps {written : Path → Prop} {path : Path} (es : List Json) (i : Nat)
    (reaches : Reaches written path) (hpath : path ≠ [] → written path) :
    Rooted written (Write.add.elementSteps path i es) := by
  match es with
  | [] => exact .nil
  | e :: rest =>
    exact (rooted_steps e (by simp) (reaches.child hpath _)).append (rooted_elementSteps rest (i + 1) reaches hpath)

private theorem rooted_memberSteps {written : Path → Prop} {path : Path} (ms : List (Scalar × Json))
    (reaches : Reaches written path) (hpath : path ≠ [] → written path) :
    Rooted written (Write.add.memberSteps path ms) := by
  match ms with
  | [] => exact .nil
  | (k, v) :: rest =>
    exact (rooted_steps v (by simp) (reaches.child hpath _)).append (rooted_memberSteps rest reaches hpath)

end

theorem rooted_creating (ms : Members) (written : Path → Prop) : Rooted written (Write.add.memberSteps [] ms) := by
  refine rooted_memberSteps ms (fun above below hpath habove => ?_) (absurd rfl)
  exact absurd (List.append_eq_nil_iff.1 hpath.symm).1 habove

/-- A lens that puts nothing deeper keeps additions rooted. -/
theorem Rooted.carryAll (h : Rooted written ps) (hlens : lens.deepens = false)
    (hwritten : ∀ path path', written path → Taking.Brings (Lens.take · · lens) path path' →
      written' path')
    (hcarried : (lens.carryAll ps).outcome = .ok qs) : Rooted written' qs := by
  -- Along the patch, the places written so far have their images among those that come out.
  induction h generalizing written' qs with
  | nil =>
    obtain rfl := Except.ok.inj hcarried
    exact .nil
  | @cons written p v path rest edits root reaches _ ih =>
    rw [Lens.outcome_carryAll_cons] at hcarried
    obtain ⟨found, hfound, hcarried⟩ := Except.exists_of_bind hcarried
    have hcomes := Lens.comes lens edits
    rw [hfound] at hcomes
    generalize htake : Lens.take (.add v) path lens = taken at hcomes
    cases hcomes with
    | dropped =>
      refine ih (fun other other' hother hbrings => ?_) hcarried
      rcases hother with hother | ⟨-, rfl⟩
      · exact hwritten other other' hother hbrings
      · obtain ⟨v', hv'⟩ := hbrings v none htake
        cases hv'
    | @carried q e' path' hq =>
      obtain ⟨others, hothers, hqs⟩ := Except.exists_of_bind hcarried
      obtain rfl := Except.ok.inj hqs
      obtain ⟨⟨v', rfl⟩, htraces⟩ := Lens.leads_of_not_deepens lens hlens v path e' path' htake
      refine .cons hq (Lens.ne_nil_of_take root htake) (fun above' below' hpath' habove' hbelow' => ?_)
        (ih (fun other other' hother hbrings => ?_) hothers)
      · obtain ⟨first, above', rfl⟩ := List.exists_cons_of_ne_nil habove'
        obtain ⟨start, above, below, hpath, hbelow, hbrings⟩ := htraces first above' below' hpath' hbelow'
        exact hwritten _ _ (reaches (start :: above) below hpath (by simp) hbelow) hbrings
      · rcases hother with hother | ⟨-, rfl⟩
        · exact .inl (hwritten other other' hother hbrings)
        · obtain ⟨u, hu⟩ := hbrings v _ htake
          obtain ⟨-, rfl⟩ := Prod.mk.inj (Option.some.inj hu)
          exact .inr ⟨rfl, rfl⟩

theorem anchored_of_addsBelow (h : Schema.AddsBelow path ps) (hpath : written path) : Anchored written ps := by
  induction ps generalizing written with
  | nil => exact .nil
  | cons p rest ih =>
    obtain ⟨⟨below, v, hbelow, hp⟩, hothers⟩ := List.forall_mem_cons.1 h
    exact .cons hp (.inr ⟨path, below, rfl, hbelow, hpath⟩) (ih hothers (.inl hpath))

private theorem Reaches.place (h : Reaches written path) (root : path ≠ []) :
    (∃ token, path = [token]) ∨ ∃ above below, path = above ++ below ∧ below ≠ [] ∧ written above := by
  obtain ⟨token, below, rfl⟩ := List.exists_cons_of_ne_nil root
  by_cases hbelow : below = []
  · exact .inl ⟨token, by rw [hbelow]⟩
  · exact .inr ⟨[token], below, rfl, hbelow, h [token] below rfl (by simp) hbelow⟩

theorem Rooted.anchored (h : Rooted written ps) : Anchored written ps := by
  induction h with
  | nil => exact .nil
  | cons edits root reaches _ ih => exact .cons edits (reaches.place root) ih

/-- With what is filled in among them, the additions are at members of the root or below what was written. -/
theorem Rooted.anchored_filled {schema : Json} (h : Rooted written ps)
    (hfilled : (Schema.filled schema ps).outcome = .ok qs) : Anchored written qs := by
  induction h generalizing qs with
  | nil =>
    obtain rfl := Except.ok.inj hfilled
    exact .nil
  | cons edits root reaches _ ih =>
    rw [Schema.outcome_filled_cons] at hfilled
    obtain ⟨first, hfirst, hfilled⟩ := Except.exists_of_bind hfilled
    obtain ⟨others, hothers, hfilled⟩ := Except.exists_of_bind hfilled
    obtain rfl := Except.ok.inj hfilled
    obtain ⟨defaults, rfl, hdefaults⟩ := Schema.exists_filledOp edits hfirst
    exact .cons edits (reaches.place root)
      ((anchored_of_addsBelow hdefaults (.inr ⟨rfl, rfl⟩)).append (ih hothers))

end Patch

end EditLens
