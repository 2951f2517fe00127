import EditLens.Proofs.Lens.Spelling

/-! Taking back what takes something back. Main statement: reversing a lens twice gives the lens, and a lens that is
written as data is reversed as the data is. -/
namespace EditLens

private theorem Lens.reverse_append (first second : Lens) :
    Lens.reverse (first ++ second) = Lens.reverse second ++ Lens.reverse first := by
  induction first with
  | nil => rw [List.nil_append, Lens.reverse, List.append_nil]
  | cons op rest ih => rw [List.cons_append, Lens.reverse, Lens.reverse, ih, List.append_assoc]

mutual

theorem LensOp.reverse_reverse : ∀ op : LensOp, op.reverse.reverse = op
  | .rename _ _ | .hoist _ _ | .plunge _ _ | .wrap _ | .head _ | .add _ | .remove _ => rfl
  | .inside name lens => congrArg (LensOp.inside name) (Lens.reverse_reverse lens)
  | .each lens => congrArg LensOp.each (Lens.reverse_reverse lens)
  | .convert _ _ _ _ => rfl

/-- What takes back the way back is the way there. -/
theorem Lens.reverse_reverse : ∀ lens : Lens, Lens.reverse (Lens.reverse lens) = lens
  | [] => rfl
  | op :: rest => by
    rw [Lens.reverse, Lens.reverse_append, Lens.reverse_reverse rest, Lens.reverse, LensOp.reverse_reverse op]
    rfl

end

private theorem Lens.isGiven_append (first second : Lens) :
    Lens.isGiven (first ++ second) = (Lens.isGiven first && Lens.isGiven second) := by
  induction first with
  | nil => rfl
  | cons op rest ih => rw [List.cons_append, Lens.isGiven, Lens.isGiven, ih, Bool.and_assoc]

mutual

theorem LensOp.isGiven_reverse : ∀ op : LensOp, op.reverse.isGiven = op.isGiven
  | .rename _ _ => Bool.and_comm _ _
  | .hoist _ _ | .plunge _ _ | .wrap _ | .head _ | .add _ | .remove _ | .convert _ _ _ _ => rfl
  | .inside name lens => congrArg (!name.isNull && ·) (Lens.isGiven_reverse lens)
  | .each lens => Lens.isGiven_reverse lens

private theorem Lens.isGiven_reverse : ∀ lens : Lens, Lens.isGiven (Lens.reverse lens) = Lens.isGiven lens
  | [] => rfl
  | op :: rest => by
    rw [Lens.reverse, Lens.isGiven_append, Lens.isGiven_reverse rest, Lens.isGiven, LensOp.isGiven_reverse op,
      Lens.isGiven, Lens.isGiven, Bool.and_true, Bool.and_comm]

end

namespace Lens

def given : Lens ⊕ Json → Except Fault Lens
  | .inl lens => .ok lens
  | .inr data => load data

private theorem load_dump {lens : Lens} (hgiven : lens.isGiven = true) : load lens.dump = .ok lens :=
  (Lens.Spelled.list lens.spelledBy_dumpAll).read hgiven

private theorem reverseData_of_load {data : Json} {lens : Lens} (hload : load data = .ok lens) :
    ∃ back, reverseData data = .ok back ∧
      (∀ first rest, data = .arr (first :: rest) → back = .inr (dump lens.reverse)) ∧
      (lens.isGiven = true → given back = .ok lens.reverse) := by
  rw [reverseData, hload, Except.bind_ok]
  split
  · exact ⟨_, rfl, fun _ _ _ => rfl, fun hgiven => load_dump ((isGiven_reverse lens).trans hgiven)⟩
  · rename_i hne
    exact ⟨_, rfl, fun first rest hdata => absurd hdata (hne first rest), fun _ => rfl⟩

/-- Reversing is its own inverse and turns the order round. A list of data, of which no operation lacks what it needs,
is reversed to data for the reversed lens, and twice to the lens itself. -/
theorem reverse_involution :
    (∀ lens : Lens, reverse (reverse lens) = lens) ∧
    (∀ first second : Lens, reverse (first ++ second) = reverse second ++ reverse first) ∧
    ∀ (first : Json) (rest : List Json) (lens : Lens), load (.arr (first :: rest)) = .ok lens → lens.isGiven = true →
      ∃ back again, reverseData (.arr (first :: rest)) = .ok (.inr back) ∧ load back = .ok (reverse lens) ∧
        reverseData back = .ok again ∧ given again = .ok lens := by
  refine ⟨reverse_reverse, reverse_append, fun first rest lens hload hgiven => ?_⟩
  have hreversed : (reverse lens).isGiven = true := (isGiven_reverse lens).trans hgiven
  obtain ⟨back, hback, hdata, -⟩ := reverseData_of_load hload
  obtain rfl := hdata first rest rfl
  have hload' := load_dump hreversed
  obtain ⟨again, hagain, -, hlens⟩ := reverseData_of_load hload'
  exact ⟨_, again, hback, hload', hagain, (hlens hreversed).trans (congrArg Except.ok (reverse_reverse lens))⟩

/-- A null, a folded conversion of whatever an array has, and a flat description of what is taken away. -/
theorem reverse_involution_items :
    let mapping : Mapping := ⟨[(.str "x", .int 1)], [(.str "1", .str "x")]⟩
    let lens : Lens := [.each [.convert (.str "a") mapping .null (.str "integer")],
      .remove ⟨.str "b", .str "array", .null, .bool false, .obj [("type", .str "string")]⟩]
    let convert : Json := .obj [("convert", .obj [("destinationType", .str "integer"), ("name", .str "a"),
      ("mapping", mapping.toJson)])]
    let remove : Json := .obj [("op", .str "remove"), ("name", .str "b"), ("type", .str "array"), ("default", .null),
      ("required", .bool false), ("items", .obj [("type", .str "string")])]
    let rest : List Json := [.obj [("map", .arr [convert, .null])], remove]
    load (.arr (.null :: rest)) = .ok lens ∧
      ∃ back again, reverseData (.arr (.null :: rest)) = .ok (.inr back) ∧ load back = .ok (reverse lens) ∧
        reverseData back = .ok again ∧ given again = .ok lens := by
  intro mapping lens convert remove rest
  have htype : "destinationType" = Text.camelCase "destination_type" := by decide +kernel
  have hconvert : LensOp.Spelled (.convert (.str "a") mapping .null (.str "integer")) convert :=
    .folded (.given (.inl rfl) (.given (.inl rfl) (.leftOut (.given (.inr htype) .nil)))) .none (by decide)
  have hremove : LensOp.Spelled (.remove ⟨.str "b", .str "array", .null, .bool false,
      .obj [("type", .str "string")]⟩) remove :=
    .flat (.given (.inl rfl) (.given (.inl rfl) (.given (.inl rfl) (.given (.inl rfl) (.given (.inl rfl) .nil)))))
      .none (.refl _)
  have hload : load (.arr (.null :: rest)) = .ok lens :=
    (Lens.Spelled.list (.null (.cons (.direct (.cons hconvert (.null .nil))) (.cons hremove .nil)))).read (by decide)
  exact ⟨hload, reverse_involution.2.2 .null rest lens hload (by decide)⟩

end Lens

end EditLens
