import EditLens.Proofs.Json.Elements
import EditLens.Proofs.Lens.Carry
import EditLens.Proofs.Lens.Rewrite
import EditLens.Proofs.Pointer.Index

/-! Carried operations have the effect of the original ones. Main statement: editing a document and
then rewriting it is the same as rewriting it and then applying the carried operation. -/
namespace EditLens

def Edit.isSmall (e : Edit) : Bool := e.written?.all Json.isHollow

mutual

def LensOp.renames : LensOp → Bool
  | .rename _ _ => true
  | .inside _ lens => Lens.renames lens
  | .each lens => Lens.renames lens
  | _ => false

def Lens.renames : Lens → Bool
  | [] => false
  | op :: rest => op.renames || Lens.renames rest

end

/-- What came out of a lens for an operation takes one document to another. -/
def Takes (carried : Except Fault (Option PatchOp)) (doc doc' : Json) : Prop :=
  (carried = .ok none ∧ doc' = doc) ∨ ∃ q, carried = .ok (some q) ∧ q.apply doc = .ok doc'

/-- As `Takes`, with what the rest of a lens has to know: the edit stays small, and it is not moved
up to the whole document. -/
def TakesSmall (e : Edit) (path : Path) (carried : Except Fault (Option PatchOp))
    (doc doc' : Json) : Prop :=
  (carried = .ok none ∧ doc' = doc) ∨ ∃ q e' path', carried = .ok (some q) ∧ q.Edits e' path' ∧
    e'.isSmall = true ∧ (e' = .remove → e = .remove) ∧ (path ≠ [] → path' ≠ []) ∧
    e'.apply path' doc = .ok doc'

def LensOp.Commutes (op : LensOp) : Prop :=
  ∀ ⦃p : PatchOp⦄ ⦃e : Edit⦄ ⦃path : Path⦄ ⦃doc doc' out out' : Json⦄, p.Edits e path →
    e.isSmall = true → (e = .remove → op.renames = false) → e.apply path doc = .ok doc' →
    op.rewrite doc = .ok out → op.rewrite doc' = .ok out' →
    TakesSmall e path (LensOp.carry p path op).outcome out out'

def Lens.Commutes (lens : Lens) : Prop :=
  ∀ ⦃p : PatchOp⦄ ⦃e : Edit⦄ ⦃path : Path⦄ ⦃doc doc' out out' : Json⦄, p.Edits e path →
    e.isSmall = true → (e = .remove → lens.renames = false) → e.apply path doc = .ok doc' →
    lens.rewrite doc = .ok out → lens.rewrite doc' = .ok out' →
    TakesSmall e path (Lens.carry p lens).outcome out out'

/-- What is written in one step has nothing in it to be rewritten. -/
private theorem LensOp.rewrite_hollow {op : LensOp} {v out : Json} (hv : v.isHollow = true)
    (h : op.rewrite v = .ok out) : out = v := by
  cases LensOp.direct_of_rewrite h with
  | rename s d =>
    obtain ⟨ms, rfl, hs, -, -⟩ := Json.renameMember_eq_ok.1 h
    obtain rfl : ms = [] := List.isEmpty_iff.1 hv
    cases hs
  | hoist host name =>
    obtain ⟨ms, inner, part, rfl, hhost, -⟩ := Json.hoistMember_eq_ok.1 h
    obtain rfl : ms = [] := List.isEmpty_iff.1 hv
    cases hhost
  | remove name =>
    obtain ⟨ms, rfl, rfl⟩ := Json.removeMember_eq_ok.1 h
    obtain rfl : ms = [] := List.isEmpty_iff.1 hv
    rfl
  | convert name mapping =>
    obtain ⟨ms, s, t, rfl, hs, -⟩ := Json.recodeMember_eq_ok.1 h
    obtain rfl : ms = [] := List.isEmpty_iff.1 hv
    cases hs
  | inside name lens =>
    obtain ⟨ms, part, part', rfl, hpart, -⟩ := Json.rewriteMember_eq_ok.1 h
    obtain rfl : ms = [] := List.isEmpty_iff.1 hv
    cases hpart
  | each lens =>
    obtain ⟨es, es', rfl, hes, rfl⟩ := Json.rewriteElements_eq_ok.1 h
    obtain rfl : es = [] := List.isEmpty_iff.1 hv
    cases hes
    rfl

private theorem Lens.rewrite_hollow {lens : Lens} {v out : Json} (hv : v.isHollow = true)
    (h : lens.rewrite v = .ok out) : out = v := by
  induction lens generalizing v with
  | nil => exact (Except.ok.inj h).symm
  | cons op rest ih =>
    obtain ⟨mid, hop, hrest⟩ := Lens.rewrite_cons_eq_ok.1 h
    obtain rfl := LensOp.rewrite_hollow hv hop
    exact ih hv hrest

namespace TakesSmall

variable {p : PatchOp} {e : Edit} {path : Path} {doc doc' : Json}

private theorem unmoved (hp : p.Edits e path) (hs : e.isSmall = true)
    (h : e.apply path doc = .ok doc') : TakesSmall e path (.ok (some p)) doc doc' :=
  .inr ⟨p, e, path, rfl, hp, hs, id, id, h⟩

private theorem moved (hp : p.Edits e path) (hs : e.isSmall = true) {target : Path}
    (hne : target ≠ []) (h : e.apply target doc = .ok doc') :
    TakesSmall e path (.ok (some (p.withPath target))) doc doc' :=
  .inr ⟨p.withPath target, e, target, rfl, hp.withPath target, hs, id, fun _ => hne, h⟩

end TakesSmall

namespace LensOp

/-- An edit of the whole document leaves nothing in it to be rewritten. -/
private theorem commutes_root {op : LensOp} {p : PatchOp} {e : Edit} {doc doc' out out' : Json}
    (hp : p.Edits e []) (hs : e.isSmall = true) (happly : e.apply [] doc = .ok doc')
    (hfit' : op.rewrite doc' = .ok out') :
    TakesSmall e [] (LensOp.carry p [] op).outcome out out' := by
  obtain ⟨hwritten, hany⟩ := Edit.apply_nil happly
  have hhollow : doc'.isHollow = true := by simpa [Edit.isSmall, hwritten] using hs
  obtain rfl := rewrite_hollow hhollow hfit'
  rw [outcome_carry_root hp.edit]
  exact .unmoved hp hs (hany out)

private theorem commutes_rename (s d : Json) : (LensOp.rename s d).Commutes := by
  intro p e path doc doc' out out' hp hs hrem happly hfit hfit'
  cases path with
  | nil => exact commutes_root hp hs happly hfit'
  | cons key rest =>
  cases direct_of_rewrite hfit with
  | rename source destination =>
  simp only [rewrite] at hfit hfit'
  obtain ⟨ms, rfl, -, hnew, rfl⟩ := Json.renameMember_eq_ok.1 hfit
  obtain ⟨result, hmember, rfl⟩ := Edit.apply_cons_obj_eq_ok.1 happly
  obtain ⟨ms', hms', -, hnew', rfl⟩ := Json.renameMember_eq_ok.1 hfit'
  obtain rfl := Json.obj.inj hms'
  have hwrites : e.written?.isSome = true := by
    cases e with
    | remove => exact absurd (hrem rfl) (by simp [renames])
    | _ => rfl
  obtain ⟨v, rfl⟩ := Edit.exists_of_onMemberAt hwrites hmember
  have hdest : destination ≠ key := by
    rintro rfl
    simp [Members.get?_change] at hnew'
  rw [outcome_carry_rename hp.edit]
  by_cases hkey : source = key
  · subst hkey
    simp only [hwrites, decide_true, Bool.and_self, if_true]
    refine .moved hp hs (by simp) (Edit.apply_cons_obj_eq_ok.2 ⟨some v, ?_, ?_⟩)
    · rwa [Members.get?_renamed_destination hnew]
    · rw [Members.change, Members.renamed_put_source hnew, Members.change]
  · simp only [hkey, decide_false, Bool.and_false, Bool.false_eq_true, if_false]
    refine .unmoved hp hs (Edit.apply_cons_obj_eq_ok.2 ⟨some v, ?_, ?_⟩)
    · rwa [Members.get?_renamed_of_ne (by simpa using Ne.symm hkey) (by simpa using hdest)]
    · rw [Members.change, Members.renamed_put_of_ne (by simpa using Ne.symm hkey)
        (by simpa using hdest), Members.change]

private theorem commutes_remove (property : Property) : (LensOp.remove property).Commutes := by
  intro p e path doc doc' out out' hp hs hrem happly hfit hfit'
  cases path with
  | nil => exact commutes_root hp hs happly hfit'
  | cons key rest =>
  cases direct_of_rewrite hfit with
  | remove name =>
  simp only [rewrite] at hfit hfit'
  obtain ⟨ms, rfl, rfl⟩ := Json.removeMember_eq_ok.1 hfit
  obtain ⟨result, hmember, rfl⟩ := Edit.apply_cons_obj_eq_ok.1 happly
  obtain ⟨ms', hms', rfl⟩ := Json.removeMember_eq_ok.1 hfit'
  obtain rfl := Json.obj.inj hms'
  rw [outcome_carry_remove hp.edit _ name key rest rfl]
  by_cases hkey : name = key
  · subst hkey
    rw [if_pos rfl]
    exact .inl ⟨rfl, by rw [Members.without_change_self]⟩
  · have hne : (Scalar.str key).same (.str name) = false := by simpa using Ne.symm hkey
    rw [if_neg hkey]
    refine .unmoved hp hs (Edit.apply_cons_obj_eq_ok.2 ⟨result, ?_, ?_⟩)
    · rwa [Members.get?_without, if_neg (by simpa using hkey)]
    · rw [Members.without_change_of_ne hne]

private theorem commutes_convert (n : Json) (mapping : Mapping) (source destination : Json) :
    (LensOp.convert n mapping source destination).Commutes := by
  intro p e path doc doc' out out' hp hs hrem happly hfit hfit'
  cases path with
  | nil => exact commutes_root hp hs happly hfit'
  | cons key rest =>
  cases direct_of_rewrite hfit with
  | convert name =>
  simp only [rewrite] at hfit hfit'
  obtain ⟨ms, s, t, rfl, hold, holdRecode, rfl⟩ := Json.recodeMember_eq_ok.1 hfit
  obtain ⟨result, hmember, rfl⟩ := Edit.apply_cons_obj_eq_ok.1 happly
  obtain ⟨ms', s', t', hms', hnew, hrecode, rfl⟩ := Json.recodeMember_eq_ok.1 hfit'
  obtain rfl := Json.obj.inj hms'
  rw [Members.get?_change] at hnew
  by_cases hkey : key = name
  · subst hkey
    rw [if_pos (by simp)] at hnew
    subst hnew
    rw [hold] at hmember
    rcases Edit.onMemberAt_some hmember with ⟨-, -, hgone⟩ | ⟨part, hpart, hbelow⟩
    · cases hgone
    obtain rfl := Option.some.inj hpart
    -- There is nothing below a scalar, so the edit writes the member itself.
    cases rest with
    | cons next below => simp [Edit.apply_cons_scalar] at hbelow
    | nil =>
    obtain ⟨hwritten, -⟩ := Edit.apply_nil hbelow
    rw [outcome_carry_convert_self hp.edit key mapping source destination hwritten, hrecode]
    have hwrites : e.written?.isSome = true := by rw [hwritten]; rfl
    have hrecoded := Edit.written?_withValue hwrites (.scalar t')
    refine .inr ⟨_, e.withValue (.scalar t'), [key], rfl, hp.withValue hwrites _, ?_,
      Edit.withValue_eq_remove.1, id, ?_⟩
    · rw [Edit.isSmall, hrecoded]
      rfl
    · refine Edit.apply_cons_obj_eq_ok.2 ⟨some (.scalar t'), ?_, ?_⟩
      · rw [Members.get?_put_self, Edit.onMemberAt_nil_some, hrecoded]
      · rw [Members.change, Members.put_put, Members.change, Members.put_put]
  · have hne : (Scalar.str key).same (.str name) = false := by simpa using hkey
    rw [if_neg (by simpa using hkey), hold] at hnew
    obtain rfl : s = s' := by simpa using hnew
    obtain rfl : t = t' := by simpa [holdRecode] using hrecode
    rw [outcome_carry_convert_of_ne hp.edit _ _ _ (by simp [hkey])]
    refine .unmoved hp hs (Edit.apply_cons_obj_eq_ok.2 ⟨result, ?_, ?_⟩)
    · rwa [Members.get?_put, if_neg (by simpa using Ne.symm hkey)]
    · rw [Members.put_change_comm hne (Members.has_iff.2 ⟨_, hold⟩)]

private theorem commutes_inside (n : Json) {lens : Lens} (ih : lens.Commutes) :
    (LensOp.inside n lens).Commutes := by
  intro p e path doc doc' out out' hp hs hrem happly hfit hfit'
  cases path with
  | nil => exact commutes_root hp hs happly hfit'
  | cons key rest =>
  cases direct_of_rewrite hfit with
  | inside name =>
  simp only [rewrite] at hfit hfit'
  obtain ⟨ms, part, mid, rfl, hpart, hmid, rfl⟩ := Json.rewriteMember_eq_ok.1 hfit
  obtain ⟨result, hmember, rfl⟩ := Edit.apply_cons_obj_eq_ok.1 happly
  obtain ⟨ms', part', mid', hms', hpart', hmid', rfl⟩ := Json.rewriteMember_eq_ok.1 hfit'
  obtain rfl := Json.obj.inj hms'
  rw [Members.get?_change] at hpart'
  rw [outcome_carry_inside]
  by_cases hkey : name = key
  · subst hkey
    rw [if_pos (by simp)] at hpart'
    subst hpart'
    rw [hpart] at hmember
    rcases Edit.onMemberAt_some hmember with ⟨-, -, hgone⟩ | ⟨edited, hedited, hbelow⟩
    · cases hgone
    obtain rfl := Option.some.inj hedited
    rw [if_pos rfl]
    rcases ih (hp.withPath rest) hs hrem hbelow hmid hmid' with
      ⟨hdropped, rfl⟩ | ⟨q, e', path', hq, hqe, hs', hrem', hne, hq'⟩
    · exact .inl ⟨by rw [hdropped]; rfl, by rw [Members.change, Members.put_put]⟩
    · refine .inr ⟨q.withPath (name :: path'), e', name :: path', ?_, hqe.withPath _, hs', hrem',
        fun _ => by simp, Edit.apply_cons_obj_eq_ok.2 ⟨some mid', ?_, ?_⟩⟩
      · rw [hq]
        simp [hqe.path, bind, Except.bind, pure, Except.pure]
      · rw [Members.get?_put_self, Edit.onMemberAt_of_apply hq']
      · rw [Members.change, Members.put_put, Members.change, Members.put_put]
  · have hne : (Scalar.str key).same (.str name) = false := by simpa using Ne.symm hkey
    rw [if_neg (by simpa using Ne.symm hkey), hpart] at hpart'
    obtain rfl := Option.some.inj hpart'
    obtain rfl : mid = mid' := by simpa [hmid] using hmid'
    rw [if_neg hkey]
    refine .unmoved hp hs (Edit.apply_cons_obj_eq_ok.2 ⟨result, ?_, ?_⟩)
    · rwa [Members.get?_put, if_neg (by simpa using hkey)]
    · rw [Members.put_change_comm hne (Members.has_iff.2 ⟨_, hpart⟩)]

section Hoist

variable {host name key : String} {rest : Path} {e : Edit} {ms inner : Members} {part edited : Json}
  {result : Option Json} {out : Json}

/-- What is edited in the hoisted member is edited at its new place. -/
private theorem apply_hoisted_name (hinner : inner.get? name = some part)
    (hedited : e.apply (name :: rest) (.obj inner) = .ok edited)
    (hout : (Json.obj (ms.put host edited)).hoistMember host name = .ok out) :
    e.apply (name :: rest) (.obj ((.str name, part) :: ms.put host (.obj (inner.without name)))) = .ok out := by
  obtain ⟨result, hmember, rfl⟩ := Edit.apply_cons_obj_eq_ok.1 hedited
  obtain ⟨_, inner', part', ⟨⟩, hhost, -, hpart, rfl⟩ := Json.hoistMember_eq_ok.1 hout
  obtain rfl := Json.obj.inj (Option.some.inj (Members.get?_put_self.symm.trans hhost))
  rw [Members.get?_change, if_pos (by simp)] at hpart
  subst hpart
  refine Edit.apply_cons_obj_eq_ok.2 ⟨some part', ?_, ?_⟩
  · rwa [Members.get?_cons, if_pos (by simp), ← hinner]
  · rw [Members.without_change_self, Members.change, Members.put_put, Members.change, Members.put,
      if_pos (by simp)]

private theorem apply_hoisted_below (hhostname : host ≠ name) (hkey : key ≠ name) (hinner : inner.get? name = some part)
    (hedited : e.apply (key :: rest) (.obj inner) = .ok edited)
    (hout : (Json.obj (ms.put host edited)).hoistMember host name = .ok out) :
    e.apply (host :: key :: rest) (.obj ((.str name, part) :: ms.put host (.obj (inner.without name)))) =
      .ok out := by
  obtain ⟨result, hmember, rfl⟩ := Edit.apply_cons_obj_eq_ok.1 hedited
  obtain ⟨_, inner', part', ⟨⟩, hhost, -, hpart, rfl⟩ := Json.hoistMember_eq_ok.1 hout
  obtain rfl := Json.obj.inj (Option.some.inj (Members.get?_put_self.symm.trans hhost))
  rw [Members.get?_change, if_neg (by simpa using hkey), hinner] at hpart
  obtain rfl := Option.some.inj hpart
  refine Edit.apply_cons_obj_eq_ok.2 ⟨some (.obj ((inner.without name).change key result)), ?_, ?_⟩
  · rw [Members.get?_cons, if_neg (by simpa using Ne.symm hhostname), Members.get?_put_self]
    refine Edit.onMemberAt_of_apply (Edit.apply_cons_obj_eq_ok.2 ⟨result, ?_, rfl⟩)
    rwa [Members.get?_without, if_neg (by simpa using Ne.symm hkey)]
  · rw [Members.cons_change_of_ne (by simpa using Ne.symm hhostname), Members.change, Members.put_put,
      Members.put_put, Members.without_change_of_ne (by simpa using hkey)]

private theorem apply_hoisted_beside (hhost : ms.get? host = some (.obj inner)) (hinner : inner.get? name = some part)
    (hkey : key ≠ host) (hname : key ≠ name) (hmember : e.onMemberAt rest (ms.get? key) = .ok result)
    (hout : (Json.obj (ms.change key result)).hoistMember host name = .ok out) :
    e.apply (key :: rest) (.obj ((.str name, part) :: ms.put host (.obj (inner.without name)))) = .ok out := by
  obtain ⟨_, inner', part', ⟨⟩, hhost', -, hpart, rfl⟩ := Json.hoistMember_eq_ok.1 hout
  rw [Members.get?_change, if_neg (by simpa using hkey), hhost] at hhost'
  obtain rfl := Json.obj.inj (Option.some.inj hhost')
  obtain rfl : part = part' := by simpa [hinner] using hpart
  refine Edit.apply_cons_obj_eq_ok.2 ⟨result, ?_, ?_⟩
  · rwa [Members.get?_cons, if_neg (by simpa using Ne.symm hname), Members.get?_put,
      if_neg (by simpa using Ne.symm hkey)]
  · rw [Members.cons_change_of_ne (by simpa using Ne.symm hname),
      Members.put_change_comm (by simpa using hkey) (Members.has_iff.2 ⟨_, hhost⟩)]

private theorem commutes_hoist (h n : Json) : (LensOp.hoist h n).Commutes := by
  intro p e path doc doc' out out' hp hs hrem happly hfit hfit'
  cases path with
  | nil => exact commutes_root hp hs happly hfit'
  | cons key rest =>
  cases direct_of_rewrite hfit with
  | hoist host name =>
  simp only [rewrite] at hfit hfit'
  obtain ⟨ms, inner, part, rfl, hhost, hfree, hpart, rfl⟩ := Json.hoistMember_eq_ok.1 hfit
  obtain ⟨result, hmember, rfl⟩ := Edit.apply_cons_obj_eq_ok.1 happly
  have hdiff : host ≠ name := by
    rintro rfl
    rw [hhost] at hfree
    cases hfree
  obtain ⟨_, inner', part', ⟨⟩, hhost', hfree', hpart', -⟩ := Json.hoistMember_eq_ok.1 hfit'
  have hname : key ≠ name := by
    rintro rfl
    rw [hfree] at hmember
    obtain ⟨-, v, rfl⟩ := Edit.onMemberAt_none hmember
    simp [Members.get?_change] at hfree'
  rw [outcome_carry_hoist]
  by_cases hkey : host = key
  · subst hkey
    rw [hhost] at hmember
    rcases Edit.onMemberAt_some hmember with ⟨-, -, rfl⟩ | ⟨edited, rfl, hbelow⟩
    · simp [Members.get?_change] at hhost'
    cases rest with
    | nil =>
      -- A small write leaves a host without the member.
      obtain ⟨hwritten, -⟩ := Edit.apply_nil hbelow
      obtain rfl := Option.some.inj (Members.get?_put_self.symm.trans hhost')
      have hempty : inner' = [] := by simpa [Edit.isSmall, hwritten, Json.isHollow] using hs
      subst hempty
      cases hpart'
    | cons next below =>
    by_cases hnext : next = name
    · subst hnext
      rw [if_pos ⟨rfl, rfl⟩]
      exact .moved hp hs (by simp) (apply_hoisted_name hpart hbelow hfit')
    · rw [if_neg (by simp [hnext])]
      exact .unmoved hp hs (apply_hoisted_below hdiff hnext hpart hbelow hfit')
  · rw [if_neg (by simp [hkey])]
    exact .unmoved hp hs (apply_hoisted_beside hhost hpart (Ne.symm hkey) hname hmember hfit')

end Hoist

/-- An edit of the elements of an array, when what is written is left alone by the rewriting. -/
private theorem onPart_elements {f : Json → Except Misfit Json} {e : Edit} {token : String}
    {es es' mid mid' : List Json} (hfix : ∀ v w, e.written? = some v → f v = .ok w → w = v)
    (h : e.onPart (.arr es) token = .ok (.arr es'))
    (hes : List.Forall₂ (fun a b => f a = .ok b) es mid)
    (hes' : List.Forall₂ (fun a b => f a = .ok b) es' mid') :
    e.onPart (.arr mid) token = .ok (.arr mid') := by
  have hlen : es.length = mid.length := hes.length_eq
  have hkeep : ∀ v, e.written? = some v → v ∈ es' → f v = .ok v := by
    intro v hv hmem
    obtain ⟨w, hw⟩ := forall₂_exists hes' hmem
    rw [hw, hfix v w hv hw]
  have hunique : ∀ {other}, List.Forall₂ (fun a b => f a = .ok b) es' other → other = mid' := by
    intro other hother
    rw [← Json.mapM_eq_ok] at hother hes'
    rw [hother] at hes'
    exact Except.ok.inj hes'
  unfold Edit.onPart at h ⊢
  by_cases hdash : token = "-"
  · simp only [hdash, if_true] at h ⊢
    cases e with
    | add v =>
      obtain rfl : es ++ [v] = es' := by simpa [Edit.atEnd, bind, Except.bind, pure, Except.pure] using h
      have hv := hkeep v rfl (by simp)
      rw [← hunique (List.rel_append hes (.cons hv .nil))]
      rfl
    | replace v => cases h
    | remove => cases h
  · simp only [hdash, if_false] at h ⊢
    cases hi : Pointer.position? token with
    | none => simp [hi] at h
    | some i =>
      simp only [hi] at h ⊢
      cases e with
      | add v =>
        by_cases hle : i ≤ es.length
        · obtain rfl : es.insertIdx i v = es' := by
            simpa [Edit.onElement, hle, bind, Except.bind, pure, Except.pure] using h
          have hv := hkeep v rfl (List.mem_insertIdx hle |>.2 (.inl rfl))
          rw [← hunique (forall₂_insertIdx hes hv i), Edit.onElement, if_pos (hlen ▸ hle)]
          rfl
        · simp [Edit.onElement, hle, bind, Except.bind] at h
      | replace v =>
        by_cases hlt : i < es.length
        · obtain rfl : es.set i v = es' := by
            simpa [Edit.onElement, hlt, bind, Except.bind, pure, Except.pure] using h
          have hv := hkeep v rfl (List.mem_set hlt v)
          rw [← hunique (forall₂_set hes hv i), Edit.onElement, if_pos (hlen ▸ hlt)]
          rfl
        · simp [Edit.onElement, hlt, bind, Except.bind] at h
      | remove =>
        by_cases hlt : i < es.length
        · obtain rfl : es.eraseIdx i = es' := by
            simpa [Edit.onElement, hlt, bind, Except.bind, pure, Except.pure] using h
          rw [← hunique (forall₂_eraseIdx hes i), Edit.onElement, if_pos (hlen ▸ hlt)]
          rfl
        · simp [Edit.onElement, hlt, bind, Except.bind] at h

private theorem commutes_each {lens : Lens} (ih : lens.Commutes) : (LensOp.each lens).Commutes := by
  intro p e path doc doc' out out' hp hs hrem happly hfit hfit'
  simp only [rewrite] at hfit hfit'
  obtain ⟨es, mid, rfl, hes, rfl⟩ := Json.rewriteElements_eq_ok.1 hfit
  obtain ⟨es', mid', rfl, hes', rfl⟩ := Json.rewriteElements_eq_ok.1 hfit'
  match path, hp, happly with
  | [], hp, happly =>
    exact commutes_root hp hs happly (Json.rewriteElements_eq_ok.2 ⟨_, _, rfl, hes', rfl⟩)
  | [token], hp, happly =>
    have hcut : Path.cutAtIndex? [token] = none := rfl
    rw [outcome_carry_each, hcut]
    refine .unmoved hp hs (onPart_elements ?_ happly hes hes')
    intro v w hv hw
    exact Lens.rewrite_hollow (by simpa [Edit.isSmall, hv] using hs) hw
  | token :: next :: rest, hp, happly =>
    rw [Edit.apply_cons_cons_arr] at happly
    cases hi : Pointer.position? token with
    | none => simp [hi] at happly
    | some i =>
    cases hpart : es[i]? with
    | none => simp [hi, hpart] at happly
    | some part =>
    simp only [hi, hpart] at happly
    cases hedited : e.apply (next :: rest) part with
    | error fault => simp [hedited, bind, Except.bind] at happly
    | ok edited =>
    obtain rfl : es.set i edited = es' := by
      simpa [hedited, bind, Except.bind, pure, Except.pure] using happly
    have hlt : i < es.length := (List.getElem?_eq_some_iff.1 hpart).1
    obtain ⟨part₁, hpart₁, hfirst⟩ := forall₂_getElem? hes hpart
    obtain ⟨edited₁, hedited₁, hsecond⟩ :=
      forall₂_getElem? hes' (i := i) (a := edited) (by simp [hlt])
    have hcut : Path.cutAtIndex? (token :: next :: rest) = some ([token], next :: rest) := by
      rw [Path.cutAtIndex?, if_pos (Pointer.isIndex_of_position? hi)]
    have hmid : mid' = mid.set i edited₁ := by
      have := forall₂_set hes hsecond i
      rw [← Json.mapM_eq_ok] at this hes'
      rw [this] at hes'
      exact (Except.ok.inj hes').symm
    rw [outcome_carry_each, hcut]
    dsimp only
    rcases ih (hp.withPath (next :: rest)) hs hrem hedited hfirst hsecond with
      ⟨hdropped, rfl⟩ | ⟨q, e', path', hq, hqe, hs', hrem', hne, hq'⟩
    · obtain ⟨_, hself⟩ := List.getElem?_eq_some_iff.1 hpart₁
      subst hself
      exact .inl ⟨by rw [hdropped]; rfl, by rw [hmid, List.set_getElem_self]⟩
    · obtain ⟨first, below, rfl⟩ := List.exists_cons_of_ne_nil (hne (by simp))
      refine .inr ⟨q.withPath (token :: first :: below), e', _, ?_, hqe.withPath _, hs', hrem',
        fun _ => by simp, ?_⟩
      · rw [hq]
        simp [hqe.path, bind, Except.bind, pure, Except.pure]
      · rw [Edit.apply_cons_cons_arr, hi]
        simp [hpart₁, hq', hmid, bind, Except.bind, pure, Except.pure]

end LensOp

mutual

theorem LensOp.commutes (op : LensOp) : op.Commutes := by
  match op with
  | .rename s d => exact LensOp.commutes_rename s d
  | .hoist h n => exact LensOp.commutes_hoist h n
  | .remove property => exact LensOp.commutes_remove property
  | .convert n mapping s d => exact LensOp.commutes_convert n mapping s d
  | .inside n lens => exact LensOp.commutes_inside n (Lens.commutes lens)
  | .each lens => exact LensOp.commutes_each (Lens.commutes lens)
  | .plunge _ _ => intro p e path doc doc' out out' hp hs hrem happly hfit; cases hfit
  | .wrap _ => intro p e path doc doc' out out' hp hs hrem happly hfit; cases hfit
  | .head _ => intro p e path doc doc' out out' hp hs hrem happly hfit; cases hfit
  | .add _ => intro p e path doc doc' out out' hp hs hrem happly hfit; cases hfit

private theorem Lens.commutes (lens : Lens) : lens.Commutes := by
  intro p e path doc doc' out out' hp hs hrem happly hfit hfit'
  match lens with
  | [] =>
    obtain rfl := Except.ok.inj hfit
    obtain rfl := Except.ok.inj hfit'
    exact .unmoved hp hs happly
  | op :: rest =>
    obtain ⟨mid, hop, hrest⟩ := Lens.rewrite_cons_eq_ok.1 hfit
    obtain ⟨mid', hop', hrest'⟩ := Lens.rewrite_cons_eq_ok.1 hfit'
    simp only [Lens.renames, Bool.or_eq_false_iff] at hrem
    rw [Lens.outcome_carry_cons hp.path]
    rcases LensOp.commutes op hp hs (fun h => (hrem h).1) happly hop hop' with
      ⟨hdropped, rfl⟩ | ⟨q, e', path', hq, hqe, hs', hrem', hne, hq'⟩
    · rw [hdropped]
      exact .inl ⟨rfl, by simpa [hrest] using hrest'.symm⟩
    · rw [hq]
      rcases Lens.commutes rest hqe hs' (fun h => (hrem (hrem' h)).2) hq' hrest hrest' with
        hdropped | ⟨r, e'', path'', hr, hre, hs'', hrem'', hne', hr'⟩
      · exact .inl hdropped
      · exact .inr ⟨r, e'', path'', hr, hre, hs'', fun h => hrem' (hrem'' h),
          fun h => hne' (hne h), hr'⟩

end

/-- Editing a document and rewriting it comes to the same as rewriting it and applying what the lens
makes of the operation, down to the order of members; what is dropped has no effect. The operation
adds or replaces a scalar or an empty container, or removes something where nothing is renamed. -/
theorem Lens.carry_takes_rewritten {lens : Lens} {p : PatchOp} {e : Edit}
    {doc doc' out out' : Json} (hedit : p.edit = .ok e) (hsmall : e.isSmall = true)
    (hremove : e = .remove → lens.renames = false) (happly : p.apply doc = .ok doc')
    (hfit : lens.rewrite doc = .ok out) (hfit' : lens.rewrite doc' = .ok out') :
    Takes (Lens.carry p lens).outcome out out' := by
  obtain ⟨e', path, he', hpath, happly'⟩ := PatchOp.edit_of_apply happly
  obtain rfl : e = e' := by simpa [hedit] using he'
  rcases Lens.commutes lens ⟨hedit, hpath⟩ hsmall hremove happly' hfit hfit' with
    hdropped | ⟨q, e', path', hq, hqe, -, -, -, hq'⟩
  · exact .inl hdropped
  · exact .inr ⟨q, hq, by rw [hqe.apply_eq, hq']⟩

/-- A value recoded below an index, with a rename, a hoist and a removal around it. -/
theorem Lens.carry_takes_rewritten_items :
    let lens : Lens := [.rename (.str "n") (.str "t"), .hoist (.str "m") (.str "b"),
      .inside (.str "a") [.each [.convert (.str "s") ⟨[("x", .int 1), ("y", .int 0)], []⟩ .null .null]],
      .remove ⟨.str "r", .null, .null, .null, .null⟩]
    let doc (v : Json) : Json := .obj [("n", .null), ("m", .obj [("b", .bool true)]),
      ("a", .arr [.obj [("s", v)]]), ("r", .int 7)]
    let out (v : Json) : Json := .obj [("b", .bool true), ("t", .null), ("m", .obj []),
      ("a", .arr [.obj [("s", v)]])]
    let p : PatchOp := .replace ["a", "0", "s"] (.str "y")
    p.apply (doc (.str "x")) = .ok (doc (.str "y")) ∧
      Takes (Lens.carry p lens).outcome (out (.int 1)) (out (.int 0)) := by
  intro lens doc out p
  have happly : p.apply (doc (.str "x")) = .ok (doc (.str "y")) := rfl
  have hfit : lens.rewrite (doc (.str "x")) = .ok (out (.int 1)) := rfl
  have hfit' : lens.rewrite (doc (.str "y")) = .ok (out (.int 0)) := rfl
  exact ⟨happly, Lens.carry_takes_rewritten (PatchOp.edit_replace _) rfl (fun h => by cases h)
    happly hfit hfit'⟩

end EditLens
