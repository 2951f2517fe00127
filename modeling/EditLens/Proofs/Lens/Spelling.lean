import Mathlib.Data.List.Nodup
import EditLens.Lens.Dump
import EditLens.Proofs.Json.Members
import EditLens.Proofs.Lens.Convert

/-! The ways to write a lens as data. Main statement: each of them loads to the lens, and one of them is the data
to which the lens is dumped. -/
namespace EditLens

namespace LensOp

def kind : LensOp → LensKind
  | .rename _ _ => .rename
  | .hoist _ _ => .hoist
  | .plunge _ _ => .plunge
  | .wrap _ => .wrap
  | .head _ => .head
  | .add _ => .add
  | .remove _ => .remove
  | .inside _ _ => .inside
  | .each _ => .each
  | .convert _ _ _ _ => .convert

def fields : LensOp → Fields
  | .rename s d => [("source", s), ("destination", d)]
  | .hoist h n => [("host", h), ("name", n)]
  | .plunge h n => [("host", h), ("name", n)]
  | .wrap n => [("name", n)]
  | .head n => [("name", n)]
  | .add p => p.toFields
  | .remove p => p.toFields
  | .inside n _ => [("name", n)]
  | .each _ => []
  | .convert n mapping s d =>
    [("name", n), ("mapping", mapping.toJson), ("source_type", s), ("destination_type", d)]

def nested? : LensOp → Option Lens
  | .inside _ lens => some lens
  | .each lens => some lens
  | _ => none

private theorem map_fst_fields (op : LensOp) : op.fields.map Prod.fst = op.kind.fieldNames := by
  cases op <;> rfl

private theorem mem_fieldNames {op : LensOp} {f : String × Json} (hf : f ∈ op.fields) : f.1 ∈ op.kind.fieldNames :=
  op.map_fst_fields ▸ List.mem_map_of_mem hf

end LensOp

mutual

/-- Whether no field is null that an operation needs, in the lenses inside it too. -/
def LensOp.isGiven : LensOp → Bool
  | .rename s d => !s.isNull && !d.isNull
  | .hoist h n => !h.isNull && !n.isNull
  | .plunge h n => !h.isNull && !n.isNull
  | .wrap n => !n.isNull
  | .head n => !n.isNull
  | .add p => !p.name.isNull
  | .remove p => !p.name.isNull
  | .inside n lens => !n.isNull && Lens.isGiven lens
  | .each lens => Lens.isGiven lens
  | .convert n _ _ _ => !n.isNull

def Lens.isGiven : Lens → Bool
  | [] => true
  | op :: rest => op.isGiven && Lens.isGiven rest

end

private theorem givenFields_append (first second : Fields) :
    givenFields (first ++ second) = givenFields first ++ givenFields second := by
  simp [givenFields]

/-- Members that spell out fields, with the words of a name joined in either way. A field that is null may be
left out. -/
inductive Fields.Spelled : Fields → Members → Prop
  | nil : Spelled [] []
  | given {name key : String} {v : Json} {fields : Fields} {ms : Members}
    (hkey : key = name ∨ key = Text.camelCase name) (rest : Spelled fields ms) :
    Spelled ((name, v) :: fields) ((.str key, v) :: ms)
  | leftOut {name : String} {fields : Fields} {ms : Members} (rest : Spelled fields ms) :
    Spelled ((name, .null) :: fields) ms

mutual

/-- The data of an operation: flat, or folded under the name of its kind, with the members in any order. What
is done for each element may be listed directly. -/
inductive LensOp.Spelled : LensOp → Json → Prop
  | flat {op : LensOp} {ms nest data : Members} (plain : op.fields.Spelled ms)
    (nested : Lens.SpelledIn op.nested? nest) (perm : data.Perm (("op", .str op.kind.tag) :: (ms ++ nest))) :
    LensOp.Spelled op (.obj data)
  | folded {op : LensOp} {ms nest data : Members} (plain : op.fields.Spelled ms)
    (nested : Lens.SpelledIn op.nested? nest) (perm : data.Perm (ms ++ nest)) :
    LensOp.Spelled op (.obj [(.str op.kind.tag, .obj data)])
  | direct {lens : Lens} {ops : List Json} (listed : Lens.SpelledBy lens ops) :
    LensOp.Spelled (.each lens) (.obj [(.str LensKind.each.tag, .arr ops)])

inductive Lens.SpelledIn : Option Lens → Members → Prop
  | none : Lens.SpelledIn none []
  | some {lens : Lens} {data : Json} (h : Lens.Spelled lens data) :
    Lens.SpelledIn (some lens) [(.str "lens", data)]

/-- The data of a lens: a list, or an object with the list. -/
inductive Lens.Spelled : Lens → Json → Prop
  | list {lens : Lens} {ops : List Json} (listed : Lens.SpelledBy lens ops) : Lens.Spelled lens (.arr ops)
  | entry {lens : Lens} {ops : List Json} (listed : Lens.SpelledBy lens ops) :
    Lens.Spelled lens (.obj [(.str "lens", .arr ops)])

inductive Lens.SpelledBy : Lens → List Json → Prop
  | nil : Lens.SpelledBy [] []
  | null {lens : Lens} {ops : List Json} (rest : Lens.SpelledBy lens ops) : Lens.SpelledBy lens (.null :: ops)
  | cons {op : LensOp} {lens : Lens} {data : Json} {ops : List Json} (first : LensOp.Spelled op data)
    (rest : Lens.SpelledBy lens ops) : Lens.SpelledBy (op :: lens) (data :: ops)

end

namespace Fields

variable {fields : Fields} {name : String} {v : Json}

private theorem mem_of_last? (h : fields.last? name = some v) : (name, v) ∈ fields := by
  obtain ⟨⟨found, v'⟩, hfind, rfl⟩ := Option.map_eq_some_iff.1 h
  have hname : found = name := by simpa using List.find?_some hfind
  exact hname ▸ List.mem_reverse.1 (List.mem_of_find?_eq_some hfind)

/-- Of fields with distinct names, each one is the last with its name. -/
private theorem last?_of_mem (hnames : (fields.map Prod.fst).Nodup) (h : (name, v) ∈ fields) :
    fields.last? name = some v := by
  cases hlast : fields.last? name with
  | none =>
    have hfind := Option.map_eq_none_iff.1 hlast
    exact absurd (List.find?_eq_none.1 hfind (name, v) (List.mem_reverse.2 h)) (by simp)
  | some w =>
    have heq := List.inj_on_of_nodup_map hnames (mem_of_last? hlast) h rfl
    rw [(Prod.mk.inj heq).2]

end Fields

def Members.field (m : Scalar × Json) : String × Json := (Text.snakeCase m.1.plain, m.2)

/-- A key other than those that have a meaning of their own in the data of an operation. -/
def Scalar.IsFieldKey (k : Scalar) : Prop := ∃ key : String, k = .str key ∧ key ∉ ["op", "lens"]

private theorem Scalar.IsFieldKey.ne {k : Scalar} (h : k.IsFieldKey) : k ≠ .str "op" ∧ k ≠ .str "lens" := by
  obtain ⟨key, rfl, hkey⟩ := h
  constructor <;> rintro ⟨⟩ <;> exact hkey (by simp)

namespace LensKind

private theorem fieldNames_nodup (kind : LensKind) : kind.fieldNames.Nodup := by
  cases kind <;> decide

/-- The names of fields are read from either way to join their words, and none stands for the kind of an
operation or a nested lens. -/
theorem snakeCase_fieldName (kind : LensKind) : ∀ name ∈ kind.fieldNames, ∀ key ∈ [name, Text.camelCase name],
    Text.snakeCase key = name ∧ key ∉ ["op", "lens"] := by
  cases kind <;> decide +kernel

private theorem ofTag?_tag (kind : LensKind) : ofTag? (.str kind.tag) = some kind := by
  cases kind <;> decide

end LensKind

namespace Fields.Spelled

variable {fields : Fields} {ms : Members}

/-- Spelled fields are read as they are, but for those that are left out. -/
private theorem read {kind : LensKind} (h : fields.Spelled ms) (hnames : ∀ f ∈ fields, f.1 ∈ kind.fieldNames) :
    (ms.map Members.field).Sublist fields ∧ (∀ f ∈ fields, f ∈ ms.map Members.field ∨ f.2 = .null) ∧
      ∀ m ∈ ms, m.1.IsFieldKey := by
  induction h with
  | nil => exact ⟨.slnil, by simp, by simp⟩
  | @given name key v fields ms hkey _ ih =>
    obtain ⟨hname, hothers⟩ := List.forall_mem_cons.1 hnames
    obtain ⟨hsub, hall, hkeys⟩ := ih hothers
    obtain ⟨hsnake, hne⟩ := kind.snakeCase_fieldName name hname key (by simpa using hkey)
    have hfield : Members.field (.str key, v) = (name, v) := by rw [Members.field, Scalar.plain_str, hsnake]
    rw [List.map_cons, hfield]
    refine ⟨hsub.cons_cons _, List.forall_mem_cons.2 ⟨.inl List.mem_cons_self, fun f hf => ?_⟩,
      List.forall_mem_cons.2 ⟨⟨key, rfl, hne⟩, hkeys⟩⟩
    exact (hall f hf).imp_left (List.mem_cons_of_mem _)
  | leftOut _ ih =>
    obtain ⟨hsub, hall, hkeys⟩ := ih (List.forall_mem_cons.1 hnames).2
    exact ⟨hsub.cons _, List.forall_mem_cons.2 ⟨.inr rfl, hall⟩, hkeys⟩

/-- The fields that are dumped are spelled with capitals, and none is null. -/
private theorem ofGiven (fields : Fields) : fields.Spelled (givenFields fields) := by
  induction fields with
  | nil => exact .nil
  | cons f rest ih =>
    obtain ⟨name, v⟩ := f
    by_cases hv : v.isNull = true
    · obtain rfl : v = .null := Json.isNull_iff.1 hv
      exact .leftOut ih
    · have hfirst : EditLens.givenFields ((name, v) :: rest) =
          (.str (Text.camelCase name), v) :: EditLens.givenFields rest := by simp [EditLens.givenFields, hv]
      exact hfirst ▸ .given (.inr rfl) ih

end Fields.Spelled

private theorem Lens.SpelledIn.key_eq {nested : Option Lens} {nest : Members} (h : Lens.SpelledIn nested nest) :
    ∀ m ∈ nest, m.1 = .str "lens" := by
  cases h <;> simp

/-- A member for a nested lens stands beside the others. -/
private theorem Lens.SpelledIn.filter {nested : Option Lens} {ms nest members : Members}
    (h : Lens.SpelledIn nested nest)
    (hplain : ∀ m ∈ ms, m.1 ≠ .str "lens") (hperm : members.Perm (ms ++ nest)) :
    members.filter (fun m => m.1 = .str "lens") = nest ∧
      (members.filter fun m => m.1 ≠ .str "lens").Perm ms := by
  have hnest := h.key_eq
  have hlens := hperm.filter fun m => decide (m.1 = .str "lens")
  have hothers := hperm.filter fun m => decide (m.1 ≠ .str "lens")
  rw [List.filter_append, List.filter_eq_nil_iff (l := ms).2 (by simpa using hplain), List.nil_append,
    List.filter_eq_self (l := nest).2 (by simpa using hnest)] at hlens
  rw [List.filter_append, List.filter_eq_self (l := ms).2 (by simpa using hplain),
    List.filter_eq_nil_iff (l := nest).2 (by simpa using hnest), List.append_nil] at hothers
  refine ⟨?_, hothers⟩
  cases h with
  | none => exact List.perm_nil.1 hlens
  | some => exact List.perm_singleton.1 hlens

private theorem LensOp.plainFields_eq {members : Members}
    (h : ∀ m ∈ members.filter fun m => m.1 ≠ .str "lens", ∃ key : String, m.1 = .str key) :
    plainFields members = .ok ((members.filter fun m => m.1 ≠ .str "lens").map Members.field) := by
  rw [plainFields]
  generalize members.filter (fun m => m.1 ≠ .str "lens") = ms at h
  induction ms with
  | nil => rfl
  | cons m rest ih =>
    obtain ⟨⟨key, hkey⟩, hrest⟩ := List.forall_mem_cons.1 h
    obtain ⟨k, v⟩ := m
    obtain rfl : k = .str key := hkey
    rw [List.mapM_cons, ih hrest]
    rfl

/-- The fields of an operation are read from any spelling of them. -/
private theorem LensOp.exists_plainFields {op : LensOp} {ms nest members : Members} (hplain : op.fields.Spelled ms)
    (hnest : Lens.SpelledIn op.nested? nest) (hperm : members.Perm (ms ++ nest)) :
    ∃ fs, plainFields members = .ok fs ∧ fs.within op.kind.fieldNames = true ∧
      ∀ f ∈ op.fields, fs.optional f.1 = f.2 ∧ (f.2.isNull = false → fs.required f.1 = .ok f.2) := by
  obtain ⟨hsub, hall, hkeys⟩ := hplain.read fun _ => mem_fieldNames
  obtain ⟨-, hothers⟩ := hnest.filter (fun m hm => (hkeys m hm).ne.2) hperm
  have hfields := hothers.map Members.field
  have hnodup : (op.fields.map Prod.fst).Nodup := op.map_fst_fields ▸ op.kind.fieldNames_nodup
  refine ⟨_, plainFields_eq fun m hm => ?_, ?_, fun f hf => ?_⟩
  · obtain ⟨key, hkey, -⟩ := hkeys m (hothers.mem_iff.1 hm)
    exact ⟨key, hkey⟩
  · exact List.all_eq_true.2 fun f hf =>
      List.contains_iff_mem.2 (mem_fieldNames (hsub.subset (hfields.mem_iff.1 hf)))
  · obtain ⟨name, v⟩ := f
    generalize List.map Members.field _ = fs at hfields
    have hfs : (fs.map Prod.fst).Nodup := (hfields.map Prod.fst).nodup_iff.2 ((hsub.map Prod.fst).nodup hnodup)
    rw [Fields.optional, Fields.required]
    rcases hall _ hf with hread | rfl
    · rw [Fields.last?_of_mem hfs (hfields.mem_iff.2 hread)]
      exact ⟨rfl, fun _ => rfl⟩
    · refine ⟨?_, nofun⟩
      cases hlast : Fields.last? fs name with
      | none => rfl
      | some w =>
        have hmem := hsub.subset (hfields.mem_iff.1 (Fields.mem_of_last? hlast))
        exact congrArg Prod.snd (List.inj_on_of_nodup_map hnodup hmem hf rfl)

theorem Mapping.ofJson_toJson (m : Mapping) : Mapping.ofJson m.toJson = .ok m := rfl

/-- Of its own fields and the lens nested in it, an operation is made again. -/
private theorem LensOp.assemble_eq {op : LensOp} {fs : Fields} (hgiven : op.isGiven = true)
    (hwithin : fs.within op.kind.fieldNames = true)
    (hfields : ∀ f ∈ op.fields, fs.optional f.1 = f.2 ∧ (f.2.isNull = false → fs.required f.1 = .ok f.2)) :
    op.kind.assemble fs op.nested? = .ok op := by
  have hoptional : ∀ f ∈ op.fields, fs.optional f.1 = f.2 := fun f hf => (hfields f hf).1
  have hrequired : ∀ f ∈ op.fields, f.2.isNull = false → fs.required f.1 = .ok f.2 :=
    fun f hf => (hfields f hf).2
  have hlens : op.nested?.isSome = op.kind.hasLens := by cases op <;> rfl
  rw [LensKind.assemble, hwithin, hlens]
  simp only [Bool.not_true, bne_self_eq_false, Bool.or_self, Bool.false_eq_true, if_false]
  cases op with
  | add p =>
    simp only [isGiven, Bool.not_eq_eq_eq_not, Bool.not_true] at hgiven
    simp only [fields, Property.toFields, List.forall_mem_cons] at hoptional hrequired
    simp only [kind, Property.ofFields, hoptional, hrequired, hgiven, Except.bind_ok]
    rfl
  | remove p =>
    simp only [isGiven, Bool.not_eq_eq_eq_not, Bool.not_true] at hgiven
    simp only [fields, Property.toFields, List.forall_mem_cons] at hoptional hrequired
    simp only [kind, Property.ofFields, hoptional, hrequired, hgiven, Except.bind_ok]
    rfl
  | convert n mapping s d =>
    simp only [isGiven, Bool.not_eq_eq_eq_not, Bool.not_true] at hgiven
    simp only [fields, List.forall_mem_cons] at hoptional hrequired
    obtain ⟨hname, hmapping, -⟩ := hrequired
    simp only [kind, hoptional, hname, hgiven, hmapping rfl, Except.bind_ok, Mapping.ofJson_toJson]
    rfl
  | _ =>
    simp only [isGiven, Bool.and_eq_true, Bool.not_eq_eq_eq_not, Bool.not_true] at hgiven
    simp only [fields, List.forall_mem_cons] at hrequired
    simp only [kind, nested?, hrequired, hgiven, Except.bind_ok, Option.getD_some]
    rfl

private theorem Lens.ofMember?_eq (ofText : TextReader) (ms : Members) :
    Lens.ofMember? ofText ms =
      match ms.filter fun m => m.1 = .str "lens" with
      | [] => .ok none
      | m :: _ => (Lens.ofJson ofText m.2).map some := by
  induction ms with
  | nil => rfl
  | cons m rest ih =>
    obtain ⟨key, v⟩ := m
    rw [Lens.ofMember?]
    by_cases hkey : key = .str "lens"
    · simp [hkey]
    · simp [hkey, ih]

section Reading

variable {ofText : TextReader} {op : LensOp} {ms nest members : Members}

/-- The name of the kind, the fields and the nested lens make the operation. -/
private theorem LensOp.ofParts_eq (hgiven : op.isGiven = true) (hplain : op.fields.Spelled ms)
    (hnest : Lens.SpelledIn op.nested? nest) (hperm : members.Perm (ms ++ nest)) :
    ofParts (.str op.kind.tag) members (.ok op.nested?) = .ok op := by
  obtain ⟨fs, hfs, hwithin, hfields⟩ := exists_plainFields hplain hnest hperm
  rw [ofParts, hfs]
  simp only [Json.asKey, Except.bind_ok, LensKind.ofTag?_tag, assemble_eq hgiven hwithin hfields]

/-- Flat data tells the kind under a name that no field has. -/
private theorem LensOp.parts_flat {data : Members} {tag : String} (hothers : ∀ m ∈ members, m.1 ≠ .str "op")
    (hperm : data.Perm (("op", .str tag) :: members)) :
    data.has "op" = true ∧ parts data = .ok (.str tag, data.without "op") ∧
      (data.without "op").Perm members := by
  have hget : data.get? "op" = some (.str tag) := by
    cases hget : data.get? "op" with
    | none => simpa using Members.same_eq_false_of_get?_eq_none hget (hperm.mem_iff.2 List.mem_cons_self)
    | some v =>
      obtain ⟨k, hmem, hk⟩ := Members.exists_mem_of_get? hget
      obtain rfl : k = .str "op" := by simpa using hk
      rcases List.mem_cons.1 (hperm.mem_iff.1 hmem) with heq | hmem
      · rw [(Prod.mk.inj heq).2]
      · exact absurd rfl (hothers _ hmem)
  have hwithout := hperm.filter fun m => !m.1.same "op"
  rw [List.filter_cons_of_neg (by simp), List.filter_eq_self (l := members).2 (by simpa using hothers)] at hwithout
  exact ⟨Members.has_iff.2 ⟨_, hget⟩, by unfold parts; rw [hget], hwithout⟩

/-- Folded data tells the kind by its one key. -/
private theorem LensOp.parts_folded (kind : LensKind) (members : Members) :
    Members.has [(.str kind.tag, .obj members)] "op" = false ∧
      parts [(.str kind.tag, .obj members)] = .ok (.str kind.tag, members) := by
  have hget : ∀ v : Json, Members.get? [(.str kind.tag, v)] "op" = none := by cases kind <;> exact fun _ => rfl
  refine ⟨Members.has_eq_false.2 (hget _), ?_⟩
  unfold parts
  rw [hget]
  cases members <;> rfl

variable {rest : List Json} {lens : Lens}

private theorem LensOp.ofList_flat {data : Members} (hgiven : op.isGiven = true) (hplain : op.fields.Spelled ms)
    (hnest : Lens.SpelledIn op.nested? nest) (hperm : data.Perm (("op", .str op.kind.tag) :: (ms ++ nest)))
    (hmember : ∀ members, (members.filter fun m => m.1 = .str "lens") = nest →
      Lens.ofMember? ofText members = .ok op.nested?)
    (hrest : Lens.ofList ofText rest = .ok lens) : Lens.ofList ofText (.obj data :: rest) = .ok (op :: lens) := by
  have hkeys := (hplain.read fun _ => mem_fieldNames).2.2
  have hlens : (data.filter fun m => m.1 = .str "lens") = nest :=
    (hnest.filter (List.forall_mem_cons.2 ⟨by simp, fun m hm => (hkeys m hm).ne.2⟩) hperm).1
  have hothers : ∀ m ∈ ms ++ nest, m.1 ≠ .str "op" :=
    List.forall_mem_append.2 ⟨fun m hm => (hkeys m hm).ne.1, fun m hm => hnest.key_eq m hm ▸ by simp⟩
  obtain ⟨hop, hparts, hwithout⟩ := parts_flat hothers hperm
  rw [Lens.ofList, hparts]
  simp only [Except.bind_ok, hop, if_true, hmember data hlens, ofParts_eq hgiven hplain hnest hwithout, hrest]
  rfl

private theorem LensOp.ofList_folded (hgiven : op.isGiven = true) (hplain : op.fields.Spelled ms)
    (hnest : Lens.SpelledIn op.nested? nest) (hperm : members.Perm (ms ++ nest))
    (hmember : ∀ members, (members.filter fun m => m.1 = .str "lens") = nest →
      Lens.ofMember? ofText members = .ok op.nested?)
    (hrest : Lens.ofList ofText rest = .ok lens) :
    Lens.ofList ofText (.obj [(.str op.kind.tag, .obj members)] :: rest) = .ok (op :: lens) := by
  have hkeys := (hplain.read fun _ => mem_fieldNames).2.2
  have hlens := (hnest.filter (fun m hm => (hkeys m hm).ne.2) hperm).1
  obtain ⟨hop, hparts⟩ := parts_folded op.kind members
  rw [Lens.ofList, hparts]
  simp only [Except.bind_ok, hop, Bool.false_eq_true, if_false, Lens.ofFolded?, hmember members hlens,
    ofParts_eq hgiven hplain hnest hperm, hrest]
  rfl

private theorem LensOp.ofList_direct {ops : List Json} {inner : Lens} (hgiven : inner.isGiven = true)
    (hinner : inner.SpelledBy ops)
    (hops : Lens.ofList ofText ops = .ok inner) (hrest : Lens.ofList ofText rest = .ok lens) :
    Lens.ofList ofText (.obj [(.str LensKind.each.tag, .arr ops)] :: rest) = .ok (.each inner :: lens) := by
  have hparts := @ofParts_eq (.each inner) _ _ _ hgiven .nil (.some (.list hinner)) (.refl _)
  have hdata : parts [(.str LensKind.each.tag, .arr ops)] = .ok (.str LensKind.each.tag, [("lens", .arr ops)]) := rfl
  have hop : Members.has [(.str LensKind.each.tag, .arr ops)] "op" = false := rfl
  rw [Lens.ofList, hdata]
  simp only [Except.bind_ok, hop, Bool.false_eq_true, if_false, Lens.ofFolded?, hops, hrest]
  exact congrArg (· >>= _) hparts

private theorem LensOp.isGiven_nested {lens : Lens} (hgiven : op.isGiven = true) (h : op.nested? = some lens) :
    lens.isGiven = true := by
  cases op with
  | inside n inner =>
    obtain rfl := Option.some.inj h
    exact (Bool.and_eq_true _ _ ▸ hgiven).2
  | each inner =>
    obtain rfl := Option.some.inj h
    exact hgiven
  | _ => cases h

end Reading

mutual

theorem LensOp.Spelled.read {ofText : TextReader} {op : LensOp} {data : Json} {rest : List Json} {lens : Lens}
    (h : op.Spelled data) (hgiven : op.isGiven = true) (hrest : Lens.ofList ofText rest = .ok lens) :
    Lens.ofList ofText (data :: rest) = .ok (op :: lens) := by
  match h with
  | .flat plain nested perm =>
    exact LensOp.ofList_flat hgiven plain nested perm
      (fun members => Lens.SpelledIn.read nested (fun _ => LensOp.isGiven_nested hgiven)) hrest
  | .folded plain nested perm =>
    exact LensOp.ofList_folded hgiven plain nested perm
      (fun members => Lens.SpelledIn.read nested (fun _ => LensOp.isGiven_nested hgiven)) hrest
  | .direct listed => exact LensOp.ofList_direct hgiven listed (Lens.SpelledBy.read listed hgiven) hrest

theorem Lens.SpelledIn.read {ofText : TextReader} {nested : Option Lens} {nest members : Members}
    (h : Lens.SpelledIn nested nest) (hgiven : ∀ lens, nested = some lens → lens.isGiven = true)
    (hmembers : members.filter (fun m => m.1 = .str "lens") = nest) :
    Lens.ofMember? ofText members = .ok nested := by
  rw [Lens.ofMember?_eq, hmembers]
  match h with
  | .none => rfl
  | .some h => exact congrArg (Except.map some) (Lens.Spelled.read h (hgiven _ rfl))

theorem Lens.Spelled.read {ofText : TextReader} {lens : Lens} {data : Json} (h : lens.Spelled data)
    (hgiven : lens.isGiven = true) : Lens.ofJson ofText data = .ok lens := by
  match h with
  | .list listed => exact Lens.SpelledBy.read listed hgiven
  | .entry listed => exact Lens.SpelledBy.read listed hgiven

theorem Lens.SpelledBy.read {ofText : TextReader} {lens : Lens} {ops : List Json} (h : lens.SpelledBy ops)
    (hgiven : lens.isGiven = true) : Lens.ofList ofText ops = .ok lens := by
  match h with
  | .nil => rfl
  | .null rest =>
    rw [Lens.ofList]
    exact Lens.SpelledBy.read rest hgiven
  | .cons first rest =>
    obtain ⟨hop, hothers⟩ := Bool.and_eq_true _ _ ▸ hgiven
    exact LensOp.Spelled.read first hop (Lens.SpelledBy.read rest hothers)

end

section Dumping

def Lens.dumpIn : Option Lens → Members
  | none => []
  | some lens => [(.str "lens", lens.dump)]

private theorem LensOp.dump_eq (op : LensOp) :
    op.dump = .obj (("op", .str op.kind.tag) :: (givenFields op.fields ++ Lens.dumpIn op.nested?)) := by
  have hlens : ∀ lens : Lens, givenFields [("lens", lens.dump)] = [(.str "lens", lens.dump)] := fun _ => by
    have hkey : Text.camelCase "lens" = "lens" := by decide +kernel
    simp [givenFields, Lens.dump, Json.isNull, hkey]
  cases op with
  | inside n lens =>
    rw [nested?, Lens.dumpIn, ← hlens, ← givenFields_append]
    rfl
  | each lens =>
    rw [nested?, Lens.dumpIn, ← hlens, ← givenFields_append]
    rfl
  | _ => exact congrArg (fun ms => Json.obj (_ :: ms)) (List.append_nil _).symm

mutual

theorem LensOp.spelled_dump (op : LensOp) : op.Spelled op.dump := by
  rw [LensOp.dump_eq]
  match op with
  | .inside n lens => exact .flat (.ofGiven _) (.some (.list (Lens.spelledBy_dumpAll lens))) (.refl _)
  | .each lens => exact .flat (.ofGiven _) (.some (.list (Lens.spelledBy_dumpAll lens))) (.refl _)
  | .rename _ _ | .hoist _ _ | .plunge _ _ | .wrap _ | .head _ | .add _ | .remove _ | .convert _ _ _ _ =>
    exact .flat (.ofGiven _) .none (.refl _)

theorem Lens.spelledBy_dumpAll (lens : Lens) : lens.SpelledBy (Lens.dumpAll lens) := by
  match lens with
  | [] => exact .nil
  | op :: rest => exact .cons op.spelled_dump (Lens.spelledBy_dumpAll rest)

end

end Dumping

namespace Lens

/-- Whatever way it is written in, a lens is loaded, if no field is null that an operation needs, and is dumped to
the same data, which is one of these ways and loads to the lens again. -/
theorem load_of_spelled {lens : Lens} (hgiven : lens.isGiven = true) :
    (∀ data, lens.Spelled data → load data = .ok lens ∧ (load data).map dump = .ok lens.dump) ∧
      lens.Spelled lens.dump ∧ load lens.dump = .ok lens := by
  have hload : ∀ data, lens.Spelled data → load data = .ok lens := fun _ hdata => hdata.read hgiven
  have hdump : lens.Spelled lens.dump := .list lens.spelledBy_dumpAll
  exact ⟨fun data hdata => ⟨hload data hdata, by rw [hload data hdata]; rfl⟩, hdump, hload _ hdump⟩

/-- A conversion that is written flat, and folded operations with a list for each element. -/
theorem load_of_spelled_items :
    let mapping : Mapping := ⟨[(.str "x", .int 1)], []⟩
    let lens : Lens := [.convert (.str "a") mapping (.str "string") .null,
      .inside (.str "h") [.rename (.str "p") (.str "q"), .each [.wrap (.str "n")]]]
    let rename : Json := .obj [("rename", .obj [("destination", .str "q"), ("source", .str "p")])]
    let each : Json := .obj [("map", .arr [.null, .obj [("op", .str "wrap"), ("name", .str "n")]])]
    let data : Json := .obj [("lens", .arr [
      .obj [("mapping", mapping.toJson), ("sourceType", .str "string"), ("op", .str "convert"),
        ("name", .str "a"), ("destination_type", .null)], .null,
      .obj [("in", .obj [("lens", .obj [("lens", .arr [rename, each])]), ("name", .str "h")])]])]
    load data = .ok lens ∧ (load data).map dump = .ok lens.dump := by
  intro mapping lens rename each data
  have hrename : LensOp.Spelled (.rename (.str "p") (.str "q")) rename :=
    .folded (.given (.inl rfl) (.given (.inl rfl) .nil)) .none (.swap _ _ _)
  have heach : LensOp.Spelled (.each [.wrap (.str "n")]) each :=
    .direct (.null (.cons (.flat (.given (.inl rfl) .nil) .none (.refl _)) .nil))
  have hinside : LensOp.Spelled (.inside (.str "h") [.rename (.str "p") (.str "q"), .each [.wrap (.str "n")]])
      (.obj [("in", .obj [("lens", .obj [("lens", .arr [rename, each])]), ("name", .str "h")])]) :=
    .folded (.given (.inl rfl) .nil) (.some (.entry (.cons hrename (.cons heach .nil)))) (.swap _ _ _)
  have hsource : "sourceType" = Text.camelCase "source_type" := by decide +kernel
  have hconvert : LensOp.Spelled (.convert (.str "a") mapping (.str "string") .null)
      (.obj [("mapping", mapping.toJson), ("sourceType", .str "string"), ("op", .str "convert"),
        ("name", .str "a"), ("destination_type", .null)]) :=
    .flat (.given (.inl rfl) (.given (.inl rfl) (.given (.inr hsource) (.given (.inl rfl) .nil))))
      .none (by decide)
  exact (@load_of_spelled lens (by decide)).1 data (.entry (.cons hconvert (.null (.cons hinside .nil))))

end Lens

end EditLens
