import EditLens.Proofs.Lens.Commuting
import EditLens.Proofs.Lens.Taking
import EditLens.Proofs.Patch.Growth

/-! Values that the table of a conversion does not cover. Main statement: where
a document has such a value, the addition that writes it fails. -/
namespace EditLens

open EditLens.Tree

namespace Json

variable {token : String} {rest : Path}

private theorem at?_obj (ms : Members) : (Json.obj ms).tree.at? (token :: rest) =
    (ms.get? token).bind fun v => v.tree.at? rest := by
  rw [tree_obj, at?, Members.trees, Option.bind_map]
  rfl

private theorem at?_arr (es : List Json) : (Json.arr es).tree.at? (token :: rest) =
    (Pointer.position? token).bind fun i => es[i]?.bind fun e => e.tree.at? rest := by
  rw [tree_arr, at?]
  simp only [List.getElem?_map, Option.bind_map]
  rfl

end Json

/-- A scalar of a rewritten document comes from an addition of a scalar of the document. -/
def Sourced (doc : Json) (carry : PatchOp → Path → Except Fault (Option PatchOp)) (path' : Path)
    (s' : Scalar) : Prop :=
  ∃ path s, path ≠ [] ∧ doc.tree.at? path = some (.scalar s) ∧
    ∀ p : PatchOp, p.Edits (.add (.scalar s)) path →
      ∃ q, carry p path = .ok (some q) ∧ q.Edits (.add (.scalar s')) path'

def LensOp.Onto (op : LensOp) : Prop :=
  ∀ ⦃doc out : Json⦄ ⦃path' : Path⦄ ⦃s' : Scalar⦄, op.rewrite doc = .ok out → path' ≠ [] →
    out.tree.at? path' = some (.scalar s') →
    Sourced doc (fun p path => (LensOp.carry p path op).outcome) path' s'

def Lens.Onto (lens : Lens) : Prop :=
  ∀ ⦃doc out : Json⦄ ⦃path' : Path⦄ ⦃s' : Scalar⦄, lens.rewrite doc = .ok out → path' ≠ [] →
    out.tree.at? path' = some (.scalar s') →
    Sourced doc (fun p _ => (Lens.carry p lens).outcome) path' s'

namespace Sourced

variable {doc : Json} {carry : PatchOp → Path → Except Fault (Option PatchOp)} {path : Path}
  {s : Scalar}

private theorem unmoved (hne : path ≠ []) (hat : doc.tree.at? path = some (.scalar s))
    (hcarry : ∀ p : PatchOp, p.Edits (.add (.scalar s)) path → carry p path = .ok (some p)) :
    Sourced doc carry path s :=
  ⟨path, s, hne, hat, fun p hp => ⟨p, hcarry p hp, hp⟩⟩

end Sourced

/-- A lens that makes a scalar has no step. -/
private theorem Lens.rewrite_eq_scalar {lens : Lens} {doc : Json} {s : Scalar}
    (h : lens.rewrite doc = .ok (.scalar s)) : doc = .scalar s := by
  induction lens generalizing doc with
  | nil => exact Except.ok.inj h
  | cons op rest ih =>
    obtain ⟨mid, hop, hrest⟩ := Lens.rewrite_cons_eq_ok.1 h
    obtain rfl := ih hrest
    cases LensOp.direct_of_rewrite hop with
    | rename => obtain ⟨ms, -, -, -, ⟨⟩⟩ := Json.renameMember_eq_ok.1 hop
    | hoist => obtain ⟨ms, inner, part, -, -, -, -, ⟨⟩⟩ := Json.hoistMember_eq_ok.1 hop
    | remove => obtain ⟨ms, -, ⟨⟩⟩ := Json.removeMember_eq_ok.1 hop
    | convert => obtain ⟨ms, a, b, -, -, -, ⟨⟩⟩ := Json.recodeMember_eq_ok.1 hop
    | inside => obtain ⟨ms, a, b, -, -, -, ⟨⟩⟩ := Json.rewriteMember_eq_ok.1 hop
    | each => obtain ⟨es, fs, -, -, ⟨⟩⟩ := Json.rewriteElements_eq_ok.1 hop

namespace LensOp

private theorem onto_rename (s d : Json) : (LensOp.rename s d).Onto := by
  intro doc out path' s' hop hne hat
  cases direct_of_rewrite hop with
  | rename source destination =>
  obtain ⟨ms, rfl, hhas, hnew, rfl⟩ := Json.renameMember_eq_ok.1 hop
  have hdiffer : source ≠ destination := by
    rintro rfl
    rw [Members.has_eq_false.2 hnew] at hhas
    cases hhas
  cases path' with
  | nil => exact absurd rfl hne
  | cons token rest =>
  rw [Json.at?_obj] at hat
  by_cases hdestination : token = destination
  · subst hdestination
    rw [Members.get?_renamed_destination hnew] at hat
    refine ⟨source :: rest, s', by simp, by rw [Json.at?_obj, hat], fun p hp => ?_⟩
    refine ⟨_, outcome_carry_rename hp.edit source token source rest, ?_⟩
    simpa [Edit.written?] using hp.withPath (token :: rest)
  by_cases hsource : token = source
  · subst hsource
    rw [Members.get?_renamed_source (by simpa using Ne.symm hdiffer)] at hat
    cases hat
  · rw [Members.get?_renamed_of_ne (by simpa using hsource) (by simpa using Ne.symm hdestination)] at hat
    refine .unmoved (by simp) (by rw [Json.at?_obj, hat]) fun p hp => ?_
    rw [outcome_carry_rename hp.edit]
    simp [Ne.symm hsource]

private theorem onto_hoist (h n : Json) : (LensOp.hoist h n).Onto := by
  intro doc out path' s' hop hne hat
  cases direct_of_rewrite hop with
  | hoist host name =>
  obtain ⟨ms, inner, part, rfl, hhost, hname, hpart, rfl⟩ := Json.hoistMember_eq_ok.1 hop
  cases path' with
  | nil => exact absurd rfl hne
  | cons token rest =>
  rw [Json.at?_obj, Members.get?_cons] at hat
  by_cases htoken : token = name
  · subst htoken
    rw [if_pos (by simp), Option.bind_some] at hat
    refine ⟨host :: token :: rest, s', by simp, ?_, fun p hp => ?_⟩
    · rw [Json.at?_obj, hhost, Option.bind_some, Json.at?_obj, hpart, Option.bind_some, hat]
    · refine ⟨_, outcome_carry_hoist host token host (token :: rest), ?_⟩
      simpa using hp.withPath (token :: rest)
  · rw [if_neg (by simpa using Ne.symm htoken), Members.get?_put] at hat
    by_cases hhost' : token = host
    · subst hhost'
      rw [if_pos (by simp), Option.bind_some] at hat
      cases rest with
      | nil => cases hat
      | cons next below =>
      rw [Json.at?_obj, Members.get?_without] at hat
      have hnext : name ≠ next := by
        rintro rfl
        simp at hat
      rw [if_neg (by simpa using hnext)] at hat
      refine .unmoved (by simp) ?_ fun p hp => ?_
      · rw [Json.at?_obj, hhost, Option.bind_some, Json.at?_obj, hat]
      · rw [outcome_carry_hoist, if_neg (by simp [Ne.symm hnext])]
    · rw [if_neg (by simpa using Ne.symm hhost')] at hat
      refine .unmoved (by simp) (by rw [Json.at?_obj, hat]) fun p hp => ?_
      rw [outcome_carry_hoist, if_neg (by simp [Ne.symm hhost'])]

private theorem onto_remove (property : Property) : (LensOp.remove property).Onto := by
  intro doc out path' s' hop hne hat
  cases direct_of_rewrite hop with
  | remove name =>
  obtain ⟨ms, rfl, rfl⟩ := Json.removeMember_eq_ok.1 hop
  cases path' with
  | nil => exact absurd rfl hne
  | cons token rest =>
  rw [Json.at?_obj, Members.get?_without] at hat
  have hname : name ≠ token := by
    rintro rfl
    simp at hat
  rw [if_neg (by simpa using hname)] at hat
  refine .unmoved (by simp) (by rw [Json.at?_obj, hat]) fun p hp => ?_
  rw [outcome_carry_remove hp.edit _ name _ _ rfl, if_neg hname]

private theorem onto_convert (n : Json) (mapping : Mapping) (s d : Json) :
    (LensOp.convert n mapping s d).Onto := by
  intro doc out path' s' hop hne hat
  cases direct_of_rewrite hop with
  | convert name =>
  obtain ⟨ms, a, b, rfl, ha, hrecode, rfl⟩ := Json.recodeMember_eq_ok.1 hop
  cases path' with
  | nil => exact absurd rfl hne
  | cons token rest =>
  rw [Json.at?_obj, Members.get?_put] at hat
  by_cases hname : token = name
  · subst hname
    rw [if_pos (by simp), Option.bind_some] at hat
    cases rest with
    | cons next below => cases hat
    | nil =>
      obtain rfl : b = s' := by simpa [at?] using hat
      refine ⟨[token], a, by simp, by rw [Json.at?_obj, ha]; rfl, fun p hp => ?_⟩
      refine ⟨p.withValue (.scalar b), ?_, hp.withValue rfl _⟩
      simp only [outcome_carry_convert_self hp.edit token mapping s d (v := .scalar a) rfl, hrecode]
  · rw [if_neg (by simpa using Ne.symm hname)] at hat
    refine .unmoved (by simp) (by rw [Json.at?_obj, hat]) fun p hp => ?_
    rw [outcome_carry_convert_of_ne hp.edit]
    simp [hname]

private theorem onto_inside (n : Json) {lens : Lens} (ih : lens.Onto) :
    (LensOp.inside n lens).Onto := by
  intro doc out path' s' hop hne hat
  cases direct_of_rewrite hop with
  | inside name =>
  obtain ⟨ms, part, part', rfl, hpart, hlens, rfl⟩ := Json.rewriteMember_eq_ok.1 hop
  cases path' with
  | nil => exact absurd rfl hne
  | cons token rest =>
  rw [Json.at?_obj, Members.get?_put] at hat
  by_cases hname : token = name
  · subst hname
    rw [if_pos (by simp), Option.bind_some] at hat
    by_cases hrest : rest = []
    · subst hrest
      obtain rfl : part' = .scalar s' := by
        cases part' <;> simp_all [at?]
      obtain rfl := Lens.rewrite_eq_scalar hlens
      refine ⟨[token], s', by simp, by rw [Json.at?_obj, hpart]; rfl, fun p hp => ?_⟩
      have hroot := hp.withPath []
      refine ⟨(p.withPath []).withPath [token], ?_, hroot.withPath _⟩
      simp [outcome_carry_inside, Lens.outcome_carry_root hroot.edit hroot.path, hroot.path]
    · obtain ⟨path, s, hpath, hs, hcarry⟩ := ih hlens hrest hat
      refine ⟨token :: path, s, by simp, by rw [Json.at?_obj, hpart, Option.bind_some, hs],
        fun p hp => ?_⟩
      obtain ⟨q, hq, hqe⟩ := hcarry _ (hp.withPath path)
      refine ⟨q.withPath (token :: rest), ?_, hqe.withPath _⟩
      simp [outcome_carry_inside, hq, hqe.path]
  · rw [if_neg (by simpa using Ne.symm hname)] at hat
    refine .unmoved (by simp) (by rw [Json.at?_obj, hat]) fun p hp => ?_
    rw [outcome_carry_inside, if_neg (Ne.symm hname)]

private theorem onto_each {lens : Lens} (ih : lens.Onto) : (LensOp.each lens).Onto := by
  intro doc out path' s' hop hne hat
  obtain ⟨es, es', rfl, hes, rfl⟩ := Json.rewriteElements_eq_ok.1 hop
  cases path' with
  | nil => exact absurd rfl hne
  | cons token rest =>
  rw [Json.at?_arr] at hat
  obtain ⟨i, hi, hat⟩ := Option.bind_eq_some_iff.1 hat
  obtain ⟨e', he', hat⟩ := Option.bind_eq_some_iff.1 hat
  obtain ⟨e, he, hlens⟩ := forall₂_getElem? hes.flip he'
  have hfound : ∀ path, (Json.arr es).tree.at? (token :: path) = e.tree.at? path := fun path => by
    rw [Json.at?_arr, hi, Option.bind_some, he, Option.bind_some]
  cases rest with
  | nil =>
    obtain rfl : e' = .scalar s' := by
      cases e' <;> simp_all [at?]
    obtain rfl := Lens.rewrite_eq_scalar hlens
    refine .unmoved (by simp) (hfound []) fun p hp => ?_
    rw [outcome_carry_each]
    rfl
  | cons next below =>
    obtain ⟨path, s, hpath, hs, hcarry⟩ := ih hlens (by simp) hat
    refine ⟨token :: path, s, by simp, by rw [hfound, hs], fun p hp => ?_⟩
    obtain ⟨first, others, rfl⟩ := List.exists_cons_of_ne_nil hpath
    obtain ⟨q, hq, hqe⟩ := hcarry _ (hp.withPath (first :: others))
    refine ⟨q.withPath (token :: next :: below), ?_, hqe.withPath _⟩
    have hcut : Path.cutAtIndex? (token :: first :: others) = some ([token], first :: others) := by
      rw [Path.cutAtIndex?, if_pos (Pointer.isIndex_of_position? hi)]
    simp [outcome_carry_each, hcut, hq, hqe.path]

end LensOp

mutual

private theorem LensOp.onto (op : LensOp) : op.Onto := by
  match op with
  | .rename s d => exact LensOp.onto_rename s d
  | .hoist h n => exact LensOp.onto_hoist h n
  | .remove property => exact LensOp.onto_remove property
  | .convert n mapping s d => exact LensOp.onto_convert n mapping s d
  | .inside n lens => exact LensOp.onto_inside n (Lens.onto lens)
  | .each lens => exact LensOp.onto_each (Lens.onto lens)
  | .plunge _ _ | .wrap _ | .head _ | .add _ =>
    intro doc out path' s' hop
    cases hop

/-- Each scalar of a rewritten document comes from an addition of a scalar of the document. -/
theorem Lens.onto (lens : Lens) : lens.Onto := by
  intro doc out path' s' hrewrite hne hat
  match lens with
  | [] =>
    obtain rfl := Except.ok.inj hrewrite
    exact .unmoved hne hat fun p hp => rfl
  | op :: rest =>
    obtain ⟨mid, hop, hrest⟩ := Lens.rewrite_cons_eq_ok.1 hrewrite
    obtain ⟨path, s, hpath, hs, hcarry⟩ := Lens.onto rest hrest hne hat
    obtain ⟨path₀, s₀, hpath₀, hs₀, hcarry₀⟩ := LensOp.onto op hop hpath hs
    refine ⟨path₀, s₀, hpath₀, hs₀, fun p hp => ?_⟩
    obtain ⟨q, hq, hqe⟩ := hcarry₀ p hp
    obtain ⟨r, hr, hre⟩ := hcarry q hqe
    refine ⟨r, ?_, hre⟩
    dsimp only at hq hr ⊢
    rw [Lens.outcome_carry_cons hp.path, hq]
    exact hr

end

/-- A scalar of a document whose addition fails, since a table does not cover what becomes of it. -/
def Unmapped (doc : Json) (carry : PatchOp → Path → Except Fault (Option PatchOp)) : Prop :=
  ∃ path s, path ≠ [] ∧ doc.tree.at? path = some (.scalar s) ∧
    ∀ p : PatchOp, p.Edits (.add (.scalar s)) path →
      ∃ key, carry p path = .error (.unmapped key)

namespace Json

variable {doc : Json} {f : Json → Except Misfit Json}

private theorem renameMember_ne_unmapped (source destination : String) :
    doc.renameMember source destination ≠ .error .unmapped := by
  unfold renameMember
  repeat' split
  all_goals simp

private theorem hoistMember_ne_unmapped (host name : String) :
    doc.hoistMember host name ≠ .error .unmapped := by
  unfold hoistMember
  repeat' split
  all_goals simp

private theorem removeMember_ne_unmapped (name : String) : doc.removeMember name ≠ .error .unmapped := by
  cases doc <;> simp [removeMember]

private theorem recodeMember_eq_unmapped {name : String} {mapping : Mapping}
    (h : doc.recodeMember name mapping = .error .unmapped) :
    ∃ (ms : Members) (s : Scalar), doc = .obj ms ∧ ms.get? name = some (.scalar s) ∧
      mapping.recode? (.scalar s) = none := by
  unfold recodeMember at h
  split at h
  · rename_i ms
    split at h
    · rename_i s hs
      split at h
      · cases h
      · cases h
      · exact ⟨ms, s, rfl, hs, ‹_›⟩
    · cases h
  · cases h

private theorem rewriteMember_eq_unmapped {name : String}
    (h : doc.rewriteMember name f = .error .unmapped) :
    ∃ (ms : Members) (part : Json), doc = .obj ms ∧ ms.get? name = some part ∧
      f part = .error .unmapped := by
  unfold rewriteMember at h
  split at h
  · rename_i ms
    split at h
    · rename_i part hpart
      cases hf : f part with
      | ok part' => rw [hf] at h; cases h
      | error misfit =>
        rw [hf] at h
        obtain rfl := Except.error.inj h
        exact ⟨ms, part, rfl, hpart, hf⟩
    · cases h
  · cases h

private theorem rewriteElements_eq_unmapped (h : doc.rewriteElements f = .error .unmapped) :
    ∃ (es : List Json) (i : Nat) (e : Json), doc = .arr es ∧ es[i]? = some e ∧
      f e = .error .unmapped := by
  cases doc with
  | scalar s => cases h
  | obj ms => cases h
  | arr es =>
    have hes : es.mapM f = .error .unmapped := by
      rw [rewriteElements] at h
      cases hes : es.mapM f with
      | ok es' => rw [hes] at h; cases h
      | error misfit =>
        rw [hes] at h
        rw [Except.error.inj h]
    suffices hfind : ∃ (i : Nat) (e : Json), es[i]? = some e ∧ f e = .error .unmapped by
      obtain ⟨i, e, he, hf⟩ := hfind
      exact ⟨es, i, e, rfl, he, hf⟩
    clear h
    induction es with
    | nil => cases hes
    | cons a rest ih =>
      rw [List.mapM_cons] at hes
      cases ha : f a with
      | error misfit =>
        rw [ha] at hes
        obtain rfl := Except.error.inj hes
        exact ⟨0, a, rfl, ha⟩
      | ok b =>
        rw [ha, Except.bind_ok] at hes
        cases hrest : rest.mapM f with
        | ok bs => rw [hrest] at hes; cases hes
        | error misfit =>
          rw [hrest] at hes
          obtain ⟨i, e, he, hf⟩ := ih (by rw [hrest]; exact congrArg Except.error (Except.error.inj hes))
          exact ⟨i + 1, e, he, hf⟩

end Json

private theorem LensOp.direct_of_unmapped {op : LensOp} {doc : Json}
    (h : op.rewrite doc = .error .unmapped) : op.Direct := by
  unfold LensOp.rewrite at h
  split at h
  · exact .rename _ _
  · exact .hoist _ _
  · exact .remove _ _ _ _ _
  · exact .convert _ _ _ _
  · exact .inside _ _
  · exact .each _
  · cases h

mutual

theorem LensOp.unmapped (op : LensOp) {doc : Json} (h : op.rewrite doc = .error .unmapped) :
    Unmapped doc fun p path => (LensOp.carry p path op).outcome := by
  match op with
  | .convert n mapping source destination =>
    cases LensOp.direct_of_unmapped h with
    | convert name =>
    obtain ⟨ms, s, rfl, hs, hrecode⟩ := Json.recodeMember_eq_unmapped h
    refine ⟨[name], s, by simp, by rw [Json.at?_obj, hs]; rfl, fun p hp =>
      ⟨(Json.scalar s).entry, ?_⟩⟩
    simp only [LensOp.outcome_carry_convert_self hp.edit name mapping source destination (v := .scalar s)
      rfl, hrecode]
  | .inside n lens =>
    cases LensOp.direct_of_unmapped h with
    | inside name =>
    obtain ⟨ms, part, rfl, hpart, hlens⟩ := Json.rewriteMember_eq_unmapped h
    obtain ⟨path, s, hpath, hs, hcarry⟩ := Lens.unmapped lens hlens
    refine ⟨name :: path, s, by simp, by rw [Json.at?_obj, hpart, Option.bind_some, hs],
      fun p hp => ?_⟩
    obtain ⟨key, hkey⟩ := hcarry _ (hp.withPath path)
    refine ⟨key, ?_⟩
    simp [LensOp.outcome_carry_inside, hkey]
    rfl
  | .each lens =>
    obtain ⟨es, i, e, rfl, he, hlens⟩ := Json.rewriteElements_eq_unmapped h
    obtain ⟨path, s, hpath, hs, hcarry⟩ := Lens.unmapped lens hlens
    refine ⟨i.repr :: path, s, by simp, ?_, fun p hp => ?_⟩
    · rw [Json.at?_arr, Pointer.position?_repr, Option.bind_some, he, Option.bind_some, hs]
    obtain ⟨key, hkey⟩ := hcarry _ (hp.withPath path)
    obtain ⟨first, others, rfl⟩ := List.exists_cons_of_ne_nil hpath
    refine ⟨key, ?_⟩
    have hcut : Path.cutAtIndex? (i.repr :: first :: others) = some ([i.repr], first :: others) := by
      rw [Path.cutAtIndex?, if_pos (Pointer.isIndex_repr i)]
    simp [LensOp.outcome_carry_each, hcut, hkey]
    rfl
  | .rename s d =>
    cases LensOp.direct_of_unmapped h with
    | rename source destination => exact absurd h (Json.renameMember_ne_unmapped _ _)
  | .hoist s d =>
    cases LensOp.direct_of_unmapped h with
    | hoist host name => exact absurd h (Json.hoistMember_ne_unmapped _ _)
  | .remove _ =>
    cases LensOp.direct_of_unmapped h with
    | remove name => exact absurd h (Json.removeMember_ne_unmapped _)
  | .plunge _ _ | .wrap _ | .head _ | .add _ => cases h

/-- Where a table does not cover a value of a document, the addition of that value fails. -/
theorem Lens.unmapped (lens : Lens) {doc : Json} (h : lens.rewrite doc = .error .unmapped) :
    Unmapped doc fun p _ => (Lens.carry p lens).outcome := by
  match lens with
  | [] => cases h
  | op :: rest =>
    rw [Lens.rewrite] at h
    cases hop : op.rewrite doc with
    | error misfit =>
      rw [hop] at h
      obtain rfl := Except.error.inj h
      obtain ⟨path, s, hpath, hs, hcarry⟩ := LensOp.unmapped op hop
      refine ⟨path, s, hpath, hs, fun p hp => ?_⟩
      obtain ⟨key, hkey⟩ := hcarry p hp
      refine ⟨key, ?_⟩
      dsimp only at hkey ⊢
      rw [Lens.outcome_carry_cons hp.path, hkey]
      rfl
    | ok mid =>
      rw [hop, Except.bind_ok] at h
      obtain ⟨path, s, hpath, hs, hcarry⟩ := Lens.unmapped rest h
      obtain ⟨path₀, s₀, hpath₀, hs₀, hcarry₀⟩ := LensOp.onto op hop hpath hs
      refine ⟨path₀, s₀, hpath₀, hs₀, fun p hp => ?_⟩
      obtain ⟨q, hq, hqe⟩ := hcarry₀ p hp
      obtain ⟨key, hkey⟩ := hcarry q hqe
      refine ⟨key, ?_⟩
      dsimp only at hq hkey ⊢
      rw [Lens.outcome_carry_cons hp.path, hq]
      exact hkey

end

namespace Lens

variable {lens : Lens}

/-- One operation that fails makes the whole patch fail, for no operation fails otherwise. -/
theorem carryAll_unmapped {ws : Patch} (hws : ∀ w ∈ ws, ∃ e path, w.Edits e path)
    (h : ∃ w ∈ ws, ∃ key, (Lens.carry w lens).outcome = .error (.unmapped key)) :
    ∃ key, (lens.carryAll ws).outcome = .error (.unmapped key) := by
  induction ws with
  | nil =>
    obtain ⟨w, hw, -⟩ := h
    cases hw
  | cons p rest ih =>
    obtain ⟨⟨e, path, hp⟩, hrest⟩ := List.forall_mem_cons.1 hws
    have hcomes := Lens.comes lens hp
    obtain ⟨w, hw, key, hkey⟩ := h
    rw [outcome_carryAll_cons]
    rcases List.mem_cons.1 hw with rfl | hw
    · rw [hkey]
      exact ⟨key, rfl⟩
    · obtain ⟨other, hother⟩ := ih hrest ⟨w, hw, key, hkey⟩
      rw [hother]
      generalize Lens.take e path lens = taken, (Lens.carry p lens).outcome = carried at hcomes
      cases hcomes with
      | dropped => exact ⟨other, rfl⟩
      | carried _ => exact ⟨other, rfl⟩
      | unmapped first => exact ⟨first, rfl⟩

end Lens

end EditLens
