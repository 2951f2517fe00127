import EditLens.Proofs.Json.Document

/-! Members of some names, and those of all others. Main statements: what sets, takes out or renames members of
chosen names does to the chosen members what it would do if they were all there are, and what is done to members of
other names leaves the chosen ones as they are. -/
namespace EditLens

structure Selection where
  chosen : Json → Bool
  congr : ∀ {name : Json} {key : Scalar}, name.same (.scalar key) = true → chosen name = chosen (.scalar key)

namespace Selection

def ofNames (names : List Json) : Selection where
  chosen name := names.any fun other => name.same other
  congr {name key} h := by
    obtain ⟨other, rfl⟩ : ∃ other, name = .scalar other := by
      cases name with
      | scalar s => exact ⟨s, rfl⟩
      | _ => cases h
    have hother : other.same key = true := h
    congr 1
    funext listed
    cases listed with
    | scalar s => simp only [Json.same, Scalar.same, Scalar.same_iff.1 hother]
    | _ => rfl

def others (sel : Selection) : Selection where
  chosen name := !sel.chosen name
  congr h := by rw [sel.congr h]

variable {sel : Selection} {key other : Scalar}

private theorem chosen_eq (h : key.same other = true) :
    sel.chosen (.scalar key) = sel.chosen (.scalar other) := sel.congr h

end Selection

namespace Members

variable {sel : Selection} {ms : Members} {key : Scalar} {value : Json}

def only (sel : Selection) (ms : Members) : Members := ms.filter fun m => sel.chosen (.scalar m.1)

theorem Distinct.only (h : ms.Distinct) (sel : Selection) : (ms.only sel).Distinct := h.filter _

private theorem only_cons (m : Scalar × Json) (rest : Members) :
    only sel (m :: rest) = if sel.chosen (.scalar m.1) then m :: rest.only sel else rest.only sel := List.filter_cons

theorem get?_only (h : sel.chosen (.scalar key) = true) : get? (ms.only sel) key = ms.get? key := by
  induction ms with
  | nil => rfl
  | cons m rest ih =>
    obtain ⟨k, v⟩ := m
    rw [only_cons, get?_cons]
    split
    · rw [get?_cons, ih]
    · rename_i hk
      rw [ih, if_neg fun hsame => hk (by rwa [Selection.chosen_eq hsame])]

theorem has_only (h : sel.chosen (.scalar key) = true) : has (ms.only sel) key = ms.has key := by
  rw [has, get?_only h, has]

theorem only_put : (ms.put key value).only sel =
    if sel.chosen (.scalar key) then (ms.only sel).put key value else ms.only sel := by
  induction ms with
  | nil => rw [put, only_cons]; rfl
  | cons m rest ih =>
    obtain ⟨k, v⟩ := m
    rw [put]
    by_cases hk : k.same key = true
    · rw [if_pos hk, only_cons, only_cons, ← Selection.chosen_eq hk]
      split <;> simp_all [put]
    · rw [if_neg hk, only_cons, only_cons, ih]
      split <;> split <;> simp_all [put]

theorem only_without : (ms.without key).only sel = (ms.only sel).without key := by
  simp only [only, without, List.filter_filter, Bool.and_comm]

/-- A member that is not chosen can go. -/
theorem only_without_of_not (h : sel.chosen (.scalar key) = false) : (ms.without key).only sel = ms.only sel := by
  rw [only, without, List.filter_filter]
  refine List.filter_congr fun m _ => ?_
  cases hkey : m.1.same key with
  | false => simp
  | true => rw [Selection.chosen_eq hkey, h]; rfl

private theorem only_putAll (extra : Members) : (ms.putAll extra).only sel = (ms.only sel).putAll (extra.only sel) := by
  induction extra generalizing ms with
  | nil => rfl
  | cons m rest ih =>
    rw [only_cons, putAll, List.foldl_cons, ← putAll, ih, only_put]
    split <;> rfl

theorem only_ofEntries : (ofEntries ms).only sel = ofEntries (ms.only sel) := only_putAll ms

theorem only_renamed {source destination : Scalar} (hsource : sel.chosen (.scalar source) = true)
    (hdestination : sel.chosen (.scalar destination) = true) :
    (ms.renamed source destination).only sel = (ms.only sel).renamed source destination := by
  rw [only, renamed, List.filter_map, only, renamed]
  congr 1
  refine List.filter_congr fun m _ => ?_
  simp only [Function.comp_apply]
  split
  · rename_i hm
    rw [hdestination, Selection.chosen_eq hm, hsource]
  · rfl

theorem only_renamed_of_not {source destination : Scalar} (hsource : sel.chosen (.scalar source) = false)
    (hdestination : sel.chosen (.scalar destination) = false) :
    (ms.renamed source destination).only sel = ms.only sel := by
  induction ms with
  | nil => rfl
  | cons m rest ih =>
    rw [renamed, List.map_cons, ← renamed, only_cons, only_cons, ih]
    split
    · rename_i hm
      rw [Selection.chosen_eq hm, hsource, if_neg (by simp [hdestination]), if_neg (by simp)]
    · rfl

end Members

/-- Members are those that are chosen and the others, in some order. -/
theorem Members.perm_of_only {sel : Selection} {ms ns : Members} (hchosen : ms.only sel = ns.only sel)
    (hothers : ms.only sel.others = ns.only sel.others) : ms.Perm ns := by
  have hsplit : ∀ ms : Members, (ms.only sel ++ ms.only sel.others).Perm ms := fun ms => by
    simpa [only, Selection.others] using List.filter_append_perm (fun m => sel.chosen (.scalar m.1)) ms
  exact (hsplit ms).symm.trans (hchosen ▸ hothers ▸ hsplit ns)

end EditLens
