import EditLens.Lens.Basic
import EditLens.Proofs.Json.Members
import Mathlib.Data.List.Forall2

/-! Lenses on documents, step by step and without patches. Only the steps that keep every value of a
document, or take it out or recode it, have a meaning here. -/
namespace EditLens

/-- Scalars and empty containers, which are written in one step. -/
def Json.isHollow : Json → Bool
  | .scalar _ => true
  | .arr es => es.isEmpty
  | .obj ms => ms.isEmpty

inductive Misfit where
  /-- The document does not have the shape that a step is about. -/
  | shape
  /-- The table of a conversion does not cover a value. -/
  | unmapped
  deriving DecidableEq

namespace Json

def renameMember (source destination : String) : Json → Except Misfit Json
  | .obj ms =>
    if Members.has ms source && !Members.has ms destination then
      .ok (.obj (Members.renamed ms source destination))
    else .error .shape
  | _ => .error .shape

def hoistMember (host name : String) : Json → Except Misfit Json
  | .obj ms =>
    match Members.get? ms host, Members.get? ms name with
    | some (.obj inner), none =>
      match Members.get? inner name with
      | some part =>
        .ok (.obj ((.str name, part) :: Members.put ms host (.obj (Members.without inner name))))
      | none => .error .shape
    | _, _ => .error .shape
  | _ => .error .shape

def removeMember (name : String) : Json → Except Misfit Json
  | .obj ms => .ok (.obj (Members.without ms name))
  | _ => .error .shape

/-- The document with a scalar member recoded; tables recode to scalars. -/
def recodeMember (name : String) (mapping : Mapping) : Json → Except Misfit Json
  | .obj ms =>
    match Members.get? ms name with
    | some (.scalar s) =>
      match mapping.recode? (.scalar s) with
      | some (.scalar t) => .ok (.obj (Members.put ms name (.scalar t)))
      | some _ => .error .shape
      | none => .error .unmapped
    | _ => .error .shape
  | _ => .error .shape

def rewriteMember (name : String) (f : Json → Except Misfit Json) : Json → Except Misfit Json
  | .obj ms =>
    match Members.get? ms name with
    | some part => do return .obj (Members.put ms name (← f part))
    | none => .error .shape
  | _ => .error .shape

def rewriteElements (f : Json → Except Misfit Json) : Json → Except Misfit Json
  | .arr es => do return .arr (← es.mapM f)
  | _ => .error .shape

end Json

namespace Json

variable {doc out : Json} {f : Json → Except Misfit Json}

theorem renameMember_eq_ok {source destination : String} :
    doc.renameMember source destination = .ok out ↔
      ∃ ms : Members, doc = .obj ms ∧ ms.has source = true ∧ ms.get? destination = none ∧
        out = .obj (ms.renamed source destination) := by
  constructor
  · intro h
    unfold renameMember at h
    split at h
    · rename_i ms
      split at h
      · rename_i hms
        simp only [Bool.and_eq_true, Bool.not_eq_true', Members.has_eq_false] at hms
        exact ⟨ms, rfl, hms.1, hms.2, (Except.ok.inj h).symm⟩
      · cases h
    · cases h
  · rintro ⟨ms, rfl, hs, hd, rfl⟩
    simp [renameMember, hs, Members.has_eq_false.2 hd]

theorem hoistMember_eq_ok {host name : String} :
    doc.hoistMember host name = .ok out ↔
      ∃ (ms inner : Members) (part : Json), doc = .obj ms ∧ ms.get? host = some (.obj inner) ∧
        ms.get? name = none ∧ inner.get? name = some part ∧
        out = .obj ((.str name, part) :: ms.put host (.obj (inner.without name))) := by
  constructor
  · intro h
    unfold hoistMember at h
    split at h
    · rename_i ms
      split at h
      · rename_i inner hhost hname
        split at h
        · rename_i part hpart
          exact ⟨ms, inner, part, rfl, hhost, hname, hpart, (Except.ok.inj h).symm⟩
        · cases h
      · cases h
    · cases h
  · rintro ⟨ms, inner, part, rfl, hhost, hname, hpart, rfl⟩
    simp [hoistMember, hhost, hname, hpart]

theorem removeMember_eq_ok {name : String} :
    doc.removeMember name = .ok out ↔
      ∃ ms : Members, doc = .obj ms ∧ out = .obj (ms.without name) := by
  cases doc <;> simp [removeMember, eq_comm]

theorem recodeMember_eq_ok {name : String} {mapping : Mapping} :
    doc.recodeMember name mapping = .ok out ↔
      ∃ (ms : Members) (s t : Scalar), doc = .obj ms ∧ ms.get? name = some (.scalar s) ∧
        mapping.recode? (.scalar s) = some (.scalar t) ∧ out = .obj (ms.put name (.scalar t)) := by
  constructor
  · intro h
    unfold recodeMember at h
    split at h
    · rename_i ms
      split at h
      · rename_i s hs
        split at h
        · rename_i t ht
          exact ⟨ms, s, t, rfl, hs, ht, (Except.ok.inj h).symm⟩
        · cases h
        · cases h
      · cases h
    · cases h
  · rintro ⟨ms, s, t, rfl, hs, ht, rfl⟩
    simp [recodeMember, hs, ht]

theorem rewriteMember_eq_ok {name : String} :
    doc.rewriteMember name f = .ok out ↔
      ∃ (ms : Members) (part part' : Json), doc = .obj ms ∧ ms.get? name = some part ∧
        f part = .ok part' ∧ out = .obj (ms.put name part') := by
  constructor
  · intro h
    unfold rewriteMember at h
    split at h
    · rename_i ms
      split at h
      · rename_i part hpart
        cases hf : f part with
        | error misfit => simp [hf, bind, Except.bind] at h
        | ok part' =>
          refine ⟨ms, part, part', rfl, hpart, hf, ?_⟩
          simpa [hf, bind, Except.bind, pure, Except.pure, eq_comm] using h
      · cases h
    · cases h
  · rintro ⟨ms, part, part', rfl, hpart, hf, rfl⟩
    simp [rewriteMember, hpart, hf, bind, Except.bind, pure, Except.pure]

theorem mapM_eq_ok {es es' : List Json} :
    es.mapM f = .ok es' ↔ List.Forall₂ (fun a b => f a = .ok b) es es' := by
  induction es generalizing es' with
  | nil => simp [pure, Except.pure, eq_comm]
  | cons a es ih =>
    rw [List.mapM_cons, List.forall₂_cons_left_iff]
    cases ha : f a with
    | error misfit => simp [bind, Except.bind]
    | ok b =>
      cases hes : es.mapM f with
      | error misfit =>
        simp only [bind, Except.bind, reduceCtorEq, Except.ok.injEq, false_iff, not_exists, not_and]
        rintro c u rfl hu
        rw [← ih, hes] at hu
        cases hu
      | ok bs =>
        simp only [bind, Except.bind, pure, Except.pure, Except.ok.injEq]
        constructor
        · rintro rfl
          exact ⟨b, bs, rfl, ih.1 hes, rfl⟩
        · rintro ⟨c, u, rfl, hu, rfl⟩
          rw [← ih, hes] at hu
          rw [Except.ok.inj hu]

theorem rewriteElements_eq_ok :
    doc.rewriteElements f = .ok out ↔
      ∃ es es' : List Json, doc = .arr es ∧ List.Forall₂ (fun a b => f a = .ok b) es es' ∧
        out = .arr es' := by
  cases doc with
  | arr es =>
    simp only [rewriteElements, ← mapM_eq_ok, bind, Except.bind, pure, Except.pure]
    cases hes : es.mapM f <;> simp [hes, eq_comm]
  | _ => simp [rewriteElements]

end Json

mutual

def LensOp.rewrite (doc : Json) : LensOp → Except Misfit Json
  | .rename (.str source) (.str destination) => doc.renameMember source destination
  | .hoist (.str host) (.str name) => doc.hoistMember host name
  | .remove ⟨.str name, _, _, _, _⟩ => doc.removeMember name
  | .convert (.str name) mapping _ _ => doc.recodeMember name mapping
  | .inside (.str name) lens => doc.rewriteMember name fun part => Lens.rewrite part lens
  | .each lens => doc.rewriteElements fun e => Lens.rewrite e lens
  | _ => .error .shape

/-- A lens on a document, from left to right. A document fits a lens if every step is defined. -/
def Lens.rewrite (doc : Json) : Lens → Except Misfit Json
  | [] => .ok doc
  | op :: rest => do Lens.rewrite (← op.rewrite doc) rest

end

inductive LensOp.Direct : LensOp → Prop
  | rename (source destination : String) : Direct (.rename (.str source) (.str destination))
  | hoist (host name : String) : Direct (.hoist (.str host) (.str name))
  | remove (name : String) (type default required items : Json) :
    Direct (.remove ⟨.str name, type, default, required, items⟩)
  | convert (name : String) (mapping : Mapping) (source destination : Json) :
    Direct (.convert (.str name) mapping source destination)
  | inside (name : String) (lens : Lens) : Direct (.inside (.str name) lens)
  | each (lens : Lens) : Direct (.each lens)

theorem LensOp.direct_of_rewrite {op : LensOp} {doc out : Json} (h : op.rewrite doc = .ok out) :
    op.Direct := by
  unfold LensOp.rewrite at h
  split at h
  · exact .rename _ _
  · exact .hoist _ _
  · exact .remove _ _ _ _ _
  · exact .convert _ _ _ _
  · exact .inside _ _
  · exact .each _
  · cases h

theorem Lens.rewrite_cons_eq_ok {op : LensOp} {rest : Lens} {doc out : Json} :
    Lens.rewrite doc (op :: rest) = .ok out ↔
      ∃ mid, op.rewrite doc = .ok mid ∧ Lens.rewrite mid rest = .ok out := by
  rw [Lens.rewrite]
  cases op.rewrite doc <;> simp [bind, Except.bind]

end EditLens
