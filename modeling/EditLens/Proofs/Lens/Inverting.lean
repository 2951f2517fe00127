import EditLens.Lens.Shorthand
import EditLens.Proofs.Json.Entry
import EditLens.Proofs.Lens.Undoing
import EditLens.Proofs.Patch.Growth

/-! Conversions whose table is read from right to left for the way back. Main statement: a key comes back unless a
later value of the table has the same entry, where one of the two is a text that spells the other. -/
namespace EditLens

/-- Of entries with one key, the last value counts. -/
private theorem Members.get?_putAll_reverse {ms extra : Members} {key : Scalar} :
    get? (ms.putAll extra) key = (get? extra.reverse key).or (ms.get? key) := by
  induction extra generalizing ms with
  | nil => rfl
  | cons m rest ih =>
    rw [putAll, List.foldl_cons, ← putAll, ih, List.reverse_cons, get?_append, Option.or_assoc, get?_put, get?_cons,
      get?_nil]
    split <;> rfl

private theorem Members.get?_ofEntries {es : List (Scalar × Json)} {key : Scalar} :
    (ofEntries es).get? key = get? es.reverse key := by
  rw [ofEntries, get?_putAll_reverse, get?_nil, Option.or_none]

namespace Mapping

abbrev Rows := List (String × Scalar)

variable {rows before after : Rows} {key : String} {value : Scalar}

def ofRows (rows : Rows) : Members := rows.map fun row => (.str row.1, .scalar row.2)

def inverse (rows : Rows) : Members := rows.map fun row => (row.2, .str row.1)

/-- Whether two scalars differ but share an entry, one being the text that spells the other. -/
def Clash (a b : Scalar) : Prop :=
  (Json.scalar a).isString ≠ (Json.scalar b).isString ∧ (Json.scalar a).entry = (Json.scalar b).entry

/-- Different values have one entry only where one is the text that spells the other. -/
theorem clash_iff {a b : Scalar} (h : a.same b = false) :
    Clash a b ↔ (Json.scalar a).entry = (Json.scalar b).entry := by
  refine ⟨And.right, fun hentry => ⟨fun hkind => ?_, hentry⟩⟩
  have hsame : a.same b = true := by
    by_cases ha : ∃ t, a = .str t
    · obtain ⟨t, rfl⟩ := ha
      obtain ⟨u, hu⟩ := Json.isString_iff.1 (hkind.symm.trans rfl)
      obtain rfl := Json.scalar.inj hu
      rw [show t = u from hentry]
      exact Scalar.same_refl _
    · refine Scalar.same_of_entry_eq (fun t ht => ha ⟨t, ht⟩) (fun t ht => ?_) hentry
      subst ht
      obtain ⟨u, hu⟩ := Json.isString_iff.1 (hkind.trans rfl)
      exact ha ⟨u, Json.scalar.inj hu⟩
  exact Bool.false_ne_true (h.symm.trans hsame)

private theorem entries_ofRows (rows : Rows) :
    (ofRows rows).mapM (fun e => do return (← e.2.asKey, Json.scalar e.1)) = Except.ok (ε := Fault) (inverse rows) := by
  induction rows with
  | nil => rfl
  | cons row rest ih =>
    rw [ofRows, List.map_cons, List.mapM_cons, ← ofRows, ih]
    rfl

private theorem invert_ofRows (hone : rows.Pairwise fun a b => a.2.same b.2 = false) :
    invert (ofRows rows) = .ok (inverse rows) := by
  have hdistinct : (inverse rows).Distinct := List.pairwise_map.2 hone
  rw [invert, entries_ofRows, Except.bind_ok, Members.ofEntries_eq hdistinct]
  rfl

/-- The rows of a table give its values. -/
theorem recode?_ofRows (backward : Members) (hkeys : rows.Pairwise fun a b => a.1 ≠ b.1) (hrow : (key, value) ∈ rows) :
    (⟨ofRows rows, backward⟩ : Mapping).recode? (.str key) = some (.scalar value) := by
  have htable : (ofRows rows).map (fun e => (Scalar.str (Json.scalar e.1).entry, e.2)) = ofRows rows := by
    rw [ofRows, List.map_map]
    rfl
  have hdistinct : (ofRows rows).Distinct := by
    refine List.pairwise_map.2 (hkeys.imp fun hne => ?_)
    simpa using hne
  rw [recode?, table, htable, Members.ofEntries_eq hdistinct]
  exact Members.get?_of_mem hdistinct (List.mem_map_of_mem hrow)

private def spelled (rows : Rows) : Members := rows.map fun row => (.str (Json.scalar row.2).entry, .str row.1)

private theorem recode?_spelled (forward : Members) :
    (⟨inverse rows, forward⟩ : Mapping).recode? (.scalar value) =
      (spelled rows.reverse).get? (.str (Json.scalar value).entry) := by
  have htable : (inverse rows).map (fun e => (Scalar.str (Json.scalar e.1).entry, e.2)) = spelled rows := by
    rw [inverse, List.map_map]
    rfl
  rw [recode?, table, htable, Members.get?_ofEntries, spelled, ← List.map_reverse, spelled]

/-- The way back leads to the last key whose value has the entry that is looked up. -/
theorem recode?_inverse (before : Rows) (value : Scalar) (forward : Members) (hkeys : ∀ row ∈ after, row.1 ≠ key) :
    ∃ back : String, (⟨inverse (before ++ (key, value) :: after), forward⟩ : Mapping).recode? (.scalar value) =
        some (.str back) ∧
      (back = key ↔ ∀ row ∈ after, (Json.scalar row.2).entry ≠ (Json.scalar value).entry) := by
  have hreverse : (before ++ (key, value) :: after).reverse = after.reverse ++ (key, value) :: before.reverse := by
    simp
  have happend : spelled (after.reverse ++ (key, value) :: before.reverse) =
      spelled after.reverse ++ (.str (Json.scalar value).entry, .str key) :: spelled before.reverse :=
    List.map_append
  rw [recode?_spelled, hreverse, happend, Members.get?_append]
  cases hlater : (spelled after.reverse).get? (.str (Json.scalar value).entry) with
  | none =>
    refine ⟨key, by simp [Members.get?_cons], iff_of_true rfl fun row hrow hentry => ?_⟩
    have hmem : (Scalar.str (Json.scalar row.2).entry, Json.str row.1) ∈ spelled after.reverse :=
      List.mem_map_of_mem (f := fun row => (Scalar.str (Json.scalar row.2).entry, Json.str row.1))
        (List.mem_reverse.2 hrow)
    simpa [hentry] using Members.same_eq_false_of_get?_eq_none hlater hmem
  | some v =>
    obtain ⟨entry, hmem, hentry⟩ := Members.exists_mem_of_get? hlater
    obtain ⟨row, hrow, heq⟩ := List.mem_map.1 hmem
    obtain ⟨rfl, rfl⟩ := Prod.mk.inj heq
    have hafter := List.mem_reverse.1 hrow
    refine ⟨row.1, rfl, iff_of_false (hkeys row hafter) fun hall => hall row hafter ?_⟩
    simpa using hentry

end Mapping

namespace LensOp

open Mapping

variable {rows before after : Rows} {key : String} {value : Scalar} {name : String} {source destination : Json}

/-- Without a table for the way back, a conversion is reversed by its table from right to left. -/
theorem converting_ofRows (hone : rows.Pairwise fun a b => a.2.same b.2 = false) :
    converting (.str name) (.obj (ofRows rows)) .null source destination =
      .ok (.convert (.str name) ⟨ofRows rows, inverse rows⟩ source destination) := by
  simp only [converting, Json.isNull, if_true, Json.asObject, Except.bind_ok, invert_ofRows hone]
  rfl

private theorem withValue_eq_self_iff {p : PatchOp} {w : Write} {v u : Json} (hp : p.Edits (w.edit v) [name]) :
    p.withValue u = p ↔ u = v := by
  obtain ⟨-, -, -, hvalue⟩ := PatchOp.members_of_edit hp.edit
  have hp' := hvalue v (w.written?_edit v)
  constructor
  · intro h
    rw [← h] at hp'
    simpa [PatchOp.withValue] using hp'
  · rintro rfl
    rw [PatchOp.withValue, Members.put_of_get? hp']

/-- A write of a key comes back through a conversion and its reverse, unless a later value of the table shares its
entry with the value of the key. -/
theorem carry_converting_reverse (hrows : rows = before ++ (key, value) :: after)
    (hkeys : rows.Pairwise fun a b => a.1 ≠ b.1) (hone : rows.Pairwise fun a b => a.2.same b.2 = false) :
    ∃ op, converting (.str name) (.obj (ofRows rows)) .null source destination = .ok op ∧
      ∀ (w : Write) (p : PatchOp), p.Edits (w.edit (.str key)) [name] →
        ∃ q, (Lens.carry p [op]).outcome = .ok (some q) ∧
          ((Lens.carry q (Lens.reverse [op])).outcome = .ok (some p) ↔ ¬∃ row ∈ after, Clash value row.2) := by
  refine ⟨_, converting_ofRows hone, fun w p hp => ?_⟩
  have hforward := recode?_ofRows (inverse rows) hkeys
    (show (key, value) ∈ rows from hrows ▸ List.mem_append_right _ List.mem_cons_self)
  rw [hrows] at hkeys hone
  have hlater := (List.pairwise_cons.1 (List.pairwise_append.1 hone).2.1).1
  obtain ⟨back, hback, hiff⟩ := recode?_inverse before value (ofRows rows)
    fun row hrow => Ne.symm ((List.pairwise_cons.1 (List.pairwise_append.1 hkeys).2.1).1 row hrow)
  have hq := hp.withValue (by rw [w.written?_edit]; rfl) (.scalar value)
  rw [w.withValue_edit] at hq
  have hthere := Lens.outcome_carry_convert hp (w.written?_edit _) hforward source destination
  have hcarried := Lens.outcome_carry_convert hq (w.written?_edit _) hback destination source
  have hreturn : (p.withValue (.scalar value)).withValue (.str back) = p.withValue (.str back) := by
    simp [PatchOp.withValue]
  refine ⟨_, hthere, ?_⟩
  rw [show Lens.reverse [.convert (.str name) ⟨ofRows rows, inverse rows⟩ source destination] =
    [.convert (.str name) ⟨inverse rows, ofRows rows⟩ destination source] from rfl]
  nth_rewrite 1 [hrows]
  rw [hcarried, hreturn, Except.ok.injEq, Option.some.injEq, withValue_eq_self_iff hp, Json.scalar.injEq,
    Scalar.str.injEq, hiff]
  simp only [not_exists, not_and]
  refine forall₂_congr fun row hrow => ?_
  rw [clash_iff (hlater row hrow), ne_comm]

/-- A text that spells none of the other values of its table. -/
theorem carry_converting_reverse_items :
    let rows : Rows := [("a", .bool true), ("b", .str "1"), ("c", .null)]
    (rows = [("a", .bool true)] ++ ("b", .str "1") :: [("c", .null)] ∧ rows.Pairwise (fun a b => a.1 ≠ b.1) ∧
      rows.Pairwise fun a b => a.2.same b.2 = false) ∧
    ∃ op, converting (.str "s") (.obj (ofRows rows)) .null .null .null = .ok op ∧
      ∀ (w : Write) (p : PatchOp), p.Edits (w.edit (.str "b")) ["s"] →
        ∃ q, (Lens.carry p [op]).outcome = .ok (some q) ∧
          ((Lens.carry q (Lens.reverse [op])).outcome = .ok (some p) ↔
            ¬∃ row ∈ [("c", Scalar.null)], Clash (.str "1") row.2) := by
  intro rows
  have hrows : rows = [("a", .bool true)] ++ ("b", .str "1") :: [("c", .null)] := rfl
  have hkeys : rows.Pairwise fun a b => a.1 ≠ b.1 := by decide
  have hone : rows.Pairwise fun a b => a.2.same b.2 = false := by decide
  exact ⟨⟨hrows, hkeys, hone⟩, carry_converting_reverse hrows hkeys hone⟩

/-- A number and the text that spells it differ, but of their keys only the later one comes back. -/
theorem carry_converting_clash :
    let rows : Rows := [("a", .int 1), ("b", .str "1")]
    let p : PatchOp := .add ["s"] (.str "a")
    let back : PatchOp := .add ["s"] (.str "b")
    (rows.Pairwise (fun a b => a.1 ≠ b.1) ∧ rows.Pairwise fun a b => a.2.same b.2 = false) ∧
      p.Edits (Write.add.edit (.str "a")) ["s"] ∧ back ≠ p ∧
      ∃ op q, converting (.str "s") (.obj (ofRows rows)) .null .null .null = .ok op ∧
        (Lens.carry p [op]).outcome = .ok (some q) ∧ (Lens.carry q (Lens.reverse [op])).outcome = .ok (some back) :=
  ⟨by decide, PatchOp.edits_add _ _, by decide, _, _, rfl, rfl, rfl⟩

end LensOp

end EditLens
