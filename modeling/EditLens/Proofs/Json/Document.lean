import EditLens.Proofs.Json.Elements
import EditLens.Proofs.Json.Tree
import EditLens.Proofs.Patch.Edit
import Mathlib.Data.List.Perm.Basic

/-! JSON documents as they are read from texts: each object has text keys and one member for each of
them. Main statements: documents of one tree are equal, and additions keep documents documents. -/
namespace EditLens

namespace Json

mutual

def isDocument : Json → Bool
  | .scalar _ => true
  | .arr es => areDocuments es
  | .obj ms => areMembers ms

def areDocuments : List Json → Bool
  | [] => true
  | e :: rest => e.isDocument && areDocuments rest

def areMembers : List (Scalar × Json) → Bool
  | [] => true
  | (.str name, v) :: rest => !Members.has rest name && v.isDocument && areMembers rest
  | _ :: _ => false

end

theorem isDocument_arr {es : List Json} :
    (Json.arr es).isDocument = true ↔ ∀ e ∈ es, e.isDocument = true := by
  rw [isDocument]
  induction es with
  | nil => simp [areDocuments]
  | cons e rest ih => rw [areDocuments, Bool.and_eq_true, ih, List.forall_mem_cons]

private theorem areMembers_cons {k : Scalar} {v : Json} {rest : Members} :
    areMembers ((k, v) :: rest) = true ↔ ∃ name : String, k = .str name ∧
      rest.get? name = none ∧ v.isDocument = true ∧ areMembers rest = true := by
  cases k with
  | str name =>
    simp [areMembers, Members.has_eq_false, and_assoc]
  | _ => simp [areMembers]

end Json

namespace Members

variable {sort : Json → Prop} {ms : Members} {v : Json}

/-- Members with distinct names, all of them text, whose values are of one sort. -/
structure AreOf (sort : Json → Prop) (ms : Members) : Prop where
  distinct : ms.Distinct
  text : ∀ m ∈ ms, ∃ name : String, m.1 = .str name
  parts : ∀ m ∈ ms, sort m.2

abbrev AreDocument (ms : Members) : Prop := ms.AreOf fun v => v.isDocument = true

private theorem mem_put {key : Scalar} {m : Scalar × Json} (h : m ∈ ms.put key v) :
    m = (key, v) ∨ (m.2 = v ∧ ∃ w, (m.1, w) ∈ ms) ∨ m ∈ ms := by
  induction ms with
  | nil => exact .inl (by simpa [put] using h)
  | cons first rest ih =>
    obtain ⟨k, w⟩ := first
    rw [put] at h
    split at h
    · rcases List.mem_cons.1 h with rfl | h
      · exact .inr (.inl ⟨rfl, w, List.mem_cons_self⟩)
      · exact .inr (.inr (List.mem_cons_of_mem _ h))
    · rcases List.mem_cons.1 h with rfl | h
      · exact .inr (.inr List.mem_cons_self)
      · rcases ih h with h | ⟨hv, u, hu⟩ | h
        · exact .inl h
        · exact .inr (.inl ⟨hv, u, List.mem_cons_of_mem _ hu⟩)
        · exact .inr (.inr (List.mem_cons_of_mem _ h))

theorem forall_mem_put (h : ∀ m ∈ ms, sort m.2) (hv : sort v) (key : Scalar) :
    ∀ m ∈ ms.put key v, sort m.2 := by
  intro m hm
  rcases mem_put hm with rfl | ⟨heq, -⟩ | hm
  · exact hv
  · rwa [heq]
  · exact h m hm

theorem forall_mem_without (h : ∀ m ∈ ms, sort m.2) (key : Scalar) :
    ∀ m ∈ ms.without key, sort m.2 := fun m hm => h m (List.mem_filter.1 hm).1

theorem forall_mem_putAll {extra : Members} (h : ∀ m ∈ ms, sort m.2) (hextra : ∀ m ∈ extra, sort m.2) :
    ∀ m ∈ ms.putAll extra, sort m.2 := by
  induction extra generalizing ms with
  | nil => exact h
  | cons first rest ih =>
    rw [List.forall_mem_cons] at hextra
    exact ih (forall_mem_put h hextra.1 first.1) hextra.2

theorem Distinct.put (h : ms.Distinct) (key : Scalar) (v : Json) : (ms.put key v).Distinct := by
  induction ms with
  | nil => simp [Members.put, Distinct]
  | cons first rest ih =>
    obtain ⟨k, w⟩ := first
    obtain ⟨hfirst, hrest⟩ := List.pairwise_cons.1 h
    rw [Members.put]
    split
    · exact List.pairwise_cons.2 ⟨hfirst, hrest⟩
    · rename_i hk
      refine List.pairwise_cons.2 ⟨fun m hm => ?_, ih hrest⟩
      rcases mem_put hm with rfl | ⟨-, u, hu⟩ | hm
      · simpa using hk
      · exact hfirst (m.1, u) hu
      · exact hfirst m hm

namespace AreOf

theorem nil : AreOf sort [] := ⟨.nil, by simp, by simp⟩

theorem cons (h : ms.AreOf sort) {name : String} (hname : ms.get? name = none) (hv : sort v) :
    AreOf sort ((.str name, v) :: ms) := by
  refine ⟨List.pairwise_cons.2 ⟨fun m hm => ?_, h.distinct⟩, ?_, ?_⟩
  · rw [Scalar.same_comm, same_eq_false_of_get?_eq_none hname hm]
  · exact List.forall_mem_cons.2 ⟨⟨name, rfl⟩, h.text⟩
  · exact List.forall_mem_cons.2 ⟨hv, h.parts⟩

theorem put (h : ms.AreOf sort) (name : String) (hv : sort v) : (ms.put name v).AreOf sort := by
  refine ⟨h.distinct.put name v, fun m hm => ?_, forall_mem_put h.parts hv _⟩
  rcases mem_put hm with rfl | ⟨-, w, hw⟩ | hm
  · exact ⟨name, rfl⟩
  · exact h.text (m.1, w) hw
  · exact h.text m hm

theorem part (h : ms.AreOf sort) {key : Scalar} (hv : ms.get? key = some v) : sort v := by
  obtain ⟨k, hmem, -⟩ := exists_mem_of_get? hv
  exact h.parts _ hmem

theorem any (h : ms.AreOf sort) : ms.AreOf fun _ => True := ⟨h.distinct, h.text, fun _ _ => trivial⟩

theorem without (h : ms.AreOf sort) (key : Scalar) : (ms.without key).AreOf sort where
  distinct := h.distinct.filter _
  text m hm := h.text m (List.mem_of_mem_filter hm)
  parts := forall_mem_without h.parts key

theorem change (h : ms.AreOf sort) (name : String) {result : Option Json}
    (hresult : ∀ v, result = some v → sort v) : (ms.change name result).AreOf sort := by
  cases result with
  | none => exact h.without _
  | some v => exact h.put name (hresult v rfl)

theorem renamed (h : ms.AreOf sort) {source destination : String}
    (hnew : ms.get? destination = none) : (ms.renamed source destination).AreOf sort := by
  have hfree : ∀ m ∈ ms, m.1.same destination = false := fun m hm =>
    same_eq_false_of_get?_eq_none hnew hm
  refine ⟨?_, ?_, ?_⟩
  · rw [Distinct, Members.renamed, List.pairwise_map]
    refine h.distinct.imp_of_mem fun {m n} hm hn hne => ?_
    by_cases hms : m.1 = .str source
    · have hns : n.1 ≠ .str source := fun hns => by rw [hms, hns, Scalar.same_refl] at hne; cases hne
      have := hfree n hn
      simp_all [Scalar.same_comm]
    · have := hfree m hm
      by_cases hns : n.1 = .str source
      · simp_all
      · simp_all
  · intro m hm
    obtain ⟨n, hn, rfl⟩ := List.mem_map.1 hm
    by_cases hns : n.1.same source = true
    · exact ⟨destination, by simp [hns]⟩
    · obtain ⟨name, hname⟩ := h.text n hn
      exact ⟨name, by rw [if_neg hns, hname]⟩
  · intro m hm
    obtain ⟨n, hn, rfl⟩ := List.mem_map.1 hm
    exact h.parts n hn

end AreOf

theorem areOf_cons {k : Scalar} {rest : Members} :
    AreOf sort ((k, v) :: rest) ↔ ∃ name : String, k = .str name ∧ rest.get? name = none ∧
      sort v ∧ rest.AreOf sort := by
  constructor
  · intro h
    obtain ⟨name, rfl⟩ := h.text (k, v) List.mem_cons_self
    obtain ⟨hfirst, hrest⟩ := List.pairwise_cons.1 h.distinct
    refine ⟨name, rfl, ?_, h.parts _ List.mem_cons_self, hrest, ?_, ?_⟩
    · rw [Option.eq_none_iff_forall_not_mem]
      intro w hw
      obtain ⟨k, hmem, hk⟩ := Members.exists_mem_of_get? hw
      have := hfirst _ hmem
      rw [Scalar.same_comm, hk] at this
      cases this
    · exact fun m hm => h.text m (List.mem_cons_of_mem _ hm)
    · exact fun m hm => h.parts m (List.mem_cons_of_mem _ hm)
  · rintro ⟨name, rfl, hfree, hv, hrest⟩
    exact hrest.cons hfree hv

theorem AreOf.of_append {rest : Members} (h : (ms ++ rest).AreOf sort) : ms.AreOf sort ∧ rest.AreOf sort ∧
    ∀ name : String, ms.get? name = none ∨ rest.get? name = none := by
  obtain ⟨hms, hrest, hacross⟩ := List.pairwise_append.1 h.distinct
  refine ⟨⟨hms, fun m hm => h.text m (List.mem_append_left _ hm), fun m hm => h.parts m (List.mem_append_left _ hm)⟩,
    ⟨hrest, fun m hm => h.text m (List.mem_append_right _ hm), fun m hm => h.parts m (List.mem_append_right _ hm)⟩,
    fun name => ?_⟩
  by_contra hboth
  simp only [not_or, ← ne_eq, Option.ne_none_iff_exists'] at hboth
  obtain ⟨⟨v, hv⟩, w, hw⟩ := hboth
  obtain ⟨k, hmem, hk⟩ := exists_mem_of_get? hv
  obtain ⟨l, hmem', hl⟩ := exists_mem_of_get? hw
  rw [Scalar.same_comm] at hl
  exact absurd (Scalar.same_trans hk hl) (by simp [hacross _ hmem _ hmem'])

theorem AreOf.putAll {extra : Members} (h : ms.AreOf sort) (hextra : extra.AreOf sort) :
    (ms.putAll extra).AreOf sort := by
  induction extra generalizing ms with
  | nil => exact h
  | cons m rest ih =>
    obtain ⟨k, v⟩ := m
    obtain ⟨name, rfl, -, hv, hrest⟩ := areOf_cons.1 hextra
    exact ih (h.put name hv) hrest

/-- Members that are put over others hide these. -/
theorem AreOf.trees_putAll {extra : Members} (hextra : extra.AreOf sort) (name : String) :
    (ms.putAll extra).trees name = (extra.trees name).or (ms.trees name) := by
  induction extra generalizing ms with
  | nil => rfl
  | cons m rest ih =>
    obtain ⟨k, v⟩ := m
    obtain ⟨other, rfl, hnew, -, hrest⟩ := areOf_cons.1 hextra
    have hput : ((ms.put other v).putAll rest).trees name =
        (Members.trees rest name).or ((ms.put other v).trees name) := ih hrest
    rw [trees_put] at hput
    rw [trees_cons]
    refine hput.trans ?_
    by_cases hname : name = other
    · subst hname
      simp [trees, hnew]
    · simp [hname]

end Members

theorem Json.isDocument_obj {ms : Members} :
    (Json.obj ms).isDocument = true ↔ ms.AreDocument := by
  rw [isDocument]
  induction ms with
  | nil => exact ⟨fun _ => .nil, fun _ => rfl⟩
  | cons m rest ih =>
    obtain ⟨k, v⟩ := m
    rw [areMembers_cons, ih]
    exact (Members.areOf_cons : Members.AreDocument _ ↔ _).symm

namespace Edit

/-- Adding a document to a document makes a document. -/
theorem isDocument_add {v doc doc' : Json} {path : Path} (hv : v.isDocument = true)
    (hdoc : doc.isDocument = true) (h : (Edit.add v).apply path doc = .ok doc') :
    doc'.isDocument = true := by
  induction path generalizing doc doc' with
  | nil =>
    obtain rfl := Except.ok.inj h
    exact hv
  | cons token rest ih =>
  cases doc with
  | scalar s => rw [apply_cons_scalar] at h; cases h
  | obj ms =>
    obtain ⟨result, hresult, rfl⟩ := apply_cons_obj_eq_ok.1 h
    rw [Json.isDocument_obj] at hdoc ⊢
    cases hpart : Members.get? ms token with
    | none =>
      rw [hpart] at hresult
      obtain ⟨rfl, -⟩ := onMemberAt_none hresult
      obtain rfl := Except.ok.inj hresult
      exact hdoc.put token hv
    | some part =>
      rw [hpart] at hresult
      rcases onMemberAt_some hresult with ⟨-, hremove, -⟩ | ⟨part', rfl, hpart'⟩
      · cases hremove
      · exact hdoc.put token (ih (hdoc.part hpart) hpart')
  | arr es =>
    rw [Json.isDocument_arr] at hdoc
    cases rest with
    | nil =>
      obtain ⟨es', rfl, ⟨-, hes'⟩ | ⟨i, -, hes'⟩⟩ := apply_arr_eq_ok.1 h
      · obtain rfl := Except.ok.inj hes'
        rw [Json.isDocument_arr]
        simpa [or_imp, forall_and, hv] using hdoc
      · rw [onElement] at hes'
        split at hes'
        · rename_i hi
          obtain rfl := Except.ok.inj hes'
          rw [Json.isDocument_arr]
          intro e he
          rcases (List.mem_insertIdx hi).1 he with rfl | he
          · exact hv
          · exact hdoc e he
        · cases hes'
    | cons next below =>
      obtain ⟨i, part, part', -, hpart, hpart', rfl⟩ := apply_cons_cons_arr_eq_ok.1 h
      rw [Json.isDocument_arr]
      intro e he
      rcases List.mem_or_eq_of_mem_set he with he | rfl
      · exact hdoc e he
      · exact ih (hdoc part (List.mem_of_getElem? hpart)) hpart'

/-- A write that a tree allows can be made in every document of that tree. -/
theorem exists_apply_of_write {v doc : Json} {path : Path} {t : Tree}
    (h : Tree.write v.tree path (some doc.tree) = some t) :
    ∃ doc', (Edit.add v).apply path doc = .ok doc' ∧ doc'.tree = t := by
  induction path generalizing doc t with
  | nil => exact ⟨v, rfl, Option.some.inj h⟩
  | cons token rest ih =>
  cases doc with
  | scalar s => cases h
  | obj ms =>
    rw [Json.tree_obj, Tree.write_cons_obj] at h
    obtain ⟨part, hpart, rfl⟩ := Option.map_eq_some_iff.1 h
    suffices hresult : ∃ part', (Edit.add v).onMemberAt rest (Members.get? ms token) =
        .ok (some part') ∧ part'.tree = part by
      obtain ⟨part', hpart', rfl⟩ := hresult
      refine ⟨_, apply_cons_obj_eq_ok.2 ⟨_, hpart', rfl⟩, ?_⟩
      rw [Members.change, Json.tree_obj, Members.trees_put]
    rw [Members.trees] at hpart
    cases hmember : Members.get? ms token with
    | none =>
      rw [hmember] at hpart
      cases rest with
      | nil => exact ⟨v, rfl, Option.some.inj hpart⟩
      | cons next below => cases hpart
    | some member =>
      rw [hmember] at hpart
      obtain ⟨part', hpart', htree⟩ := ih hpart
      exact ⟨part', onMemberAt_of_apply hpart', htree⟩
  | arr es =>
    rw [Json.tree_arr] at h
    obtain ⟨i, part, rfl, hi, hends, hpart, rfl⟩ := Tree.write_cons_arr_eq_some.1 h
    rw [List.length_map] at hi hends
    rw [List.getElem?_map] at hpart
    cases rest with
    | nil =>
      obtain rfl := hends.1 rfl
      obtain rfl := Option.some.inj hpart
      refine ⟨.arr (es ++ [v]), apply_arr_eq_ok.2 ⟨_, rfl, .inr ⟨es.length, rfl, ?_⟩⟩, ?_⟩
      · simp [onElement]
      · rw [Json.tree_arr, List.map_append, ← List.length_map (f := Json.tree), Tree.putElement_length]
        rfl
    | cons next below =>
      have hlt : i < es.length := by
        have : i ≠ es.length := fun h => by cases hends.2 h
        omega
      rw [List.getElem?_eq_getElem hlt] at hpart
      obtain ⟨part', hpart', rfl⟩ := ih hpart
      refine ⟨.arr (es.set i part'), apply_cons_cons_arr_eq_ok.2 ⟨i, es[i], part', rfl, ?_, hpart', rfl⟩, ?_⟩
      · exact List.getElem?_eq_getElem hlt
      · rw [Json.tree_arr, List.map_set, Tree.putElement_of_lt (by simpa using hlt)]

end Edit

namespace Json

theorem sameElements_iff {es fs : List Json} :
    sameElements es fs = true ↔ List.Forall₂ (fun e f => e.same f = true) es fs := by
  induction es generalizing fs with
  | nil => cases fs <;> simp [sameElements]
  | cons e rest ih => cases fs <;> simp [sameElements, ih]

theorem sameMembers_iff {ms : List (Scalar × Json)} {ns : Members} :
    sameMembers ms ns = true ↔ ∀ m ∈ ms, ∃ w, ns.get? m.1 = some w ∧ m.2.same w = true := by
  induction ms with
  | nil => simp [sameMembers]
  | cons m rest ih =>
    obtain ⟨k, v⟩ := m
    rw [sameMembers, Bool.and_eq_true, ih, List.forall_mem_cons]
    cases ns.get? k <;> simp

end Json

section Same

variable {ms ns : Members}

private theorem Members.AreDocument.keys_nodup (h : ms.AreDocument) : (ms.map Prod.fst).Nodup := by
  rw [List.Nodup, List.pairwise_map]
  refine h.distinct.imp fun hne heq => ?_
  rw [heq, Scalar.same_refl] at hne
  cases hne

private theorem Members.AreDocument.mem_keys (h : ms.AreDocument) {k : Scalar} :
    k ∈ ms.map Prod.fst ↔ ∃ name : String, k = .str name ∧ ∃ v, ms.get? name = some v := by
  constructor
  · intro hk
    obtain ⟨m, hm, rfl⟩ := List.mem_map.1 hk
    obtain ⟨name, hname⟩ := h.text m hm
    exact ⟨name, hname, m.2, by rw [← hname, Members.get?_of_mem h.distinct hm]⟩
  · rintro ⟨name, rfl, v, hv⟩
    obtain ⟨k, hmem, hk⟩ := Members.exists_mem_of_get? hv
    obtain rfl : k = .str name := by simpa using hk
    exact List.mem_map.2 ⟨_, hmem, rfl⟩

/-- Objects of documents that have the same names have as many members. -/
private theorem Members.AreDocument.length_eq (hms : ms.AreDocument) (hns : ns.AreDocument)
    (h : ∀ name : String, (∃ v, ms.get? name = some v) ↔ ∃ v, ns.get? name = some v) :
    ms.length = ns.length := by
  rw [← @List.length_map _ _ ms Prod.fst, ← @List.length_map _ _ ns Prod.fst]
  refine ((List.perm_ext_iff_of_nodup hms.keys_nodup hns.keys_nodup).2 fun k => ?_).length_eq
  rw [hms.mem_keys, hns.mem_keys]
  exact exists_congr fun name => and_congr_right fun _ => h name

/-- An object has a member for each member of an equal one. -/
private theorem Members.AreDocument.exists_same (hms : ms.AreDocument) (hns : ns.AreDocument)
    (h : (Json.obj ms).same (.obj ns) = true) {name : String} {w : Json} (hw : ns.get? name = some w) :
    ∃ v, ms.get? name = some v ∧ v.same w = true := by
  rw [Json.same, Bool.and_eq_true, beq_iff_eq, Json.sameMembers_iff] at h
  obtain ⟨hlength, hmembers⟩ := h
  have hsub : ms.map Prod.fst ⊆ ns.map Prod.fst := fun k hk => by
    obtain ⟨m, hm, rfl⟩ := List.mem_map.1 hk
    obtain ⟨name, hname⟩ := hms.text m hm
    obtain ⟨u, hu, -⟩ := hmembers m hm
    exact hns.mem_keys.2 ⟨name, hname, u, hname ▸ hu⟩
  have hperm := (List.subperm_of_subset hms.keys_nodup hsub).perm_of_length_le (by simp [hlength])
  have hkey : Scalar.str name ∈ ms.map Prod.fst := hperm.mem_iff.2 (hns.mem_keys.2 ⟨name, rfl, w, hw⟩)
  obtain ⟨m, hm, hname⟩ := List.mem_map.1 hkey
  obtain ⟨u, hu, hsame⟩ := hmembers m hm
  rw [hname, hw] at hu
  obtain rfl := Option.some.inj hu
  exact ⟨m.2, by rw [← hname, Members.get?_of_mem hms.distinct hm], hsame⟩

end Same

/-- Equal documents have the same places. -/
theorem Json.isSome_at?_of_same {a b : Json} {path : Path} (ha : a.isDocument = true) (hb : b.isDocument = true)
    (h : a.same b = true) (hpath : (b.tree.at? path).isSome = true) : (a.tree.at? path).isSome = true := by
  induction path generalizing a b with
  | nil => rfl
  | cons token rest ih =>
    match a, b with
    | .arr es, .arr fs =>
      rw [Json.tree_arr] at hpath ⊢
      cases hi : Pointer.position? token with
      | none => simp [Tree.at?, hi] at hpath
      | some i =>
      cases hf : fs[i]? with
      | none => simp [Tree.at?, hi, hf] at hpath
      | some f =>
      obtain ⟨e, he, hsame⟩ := forall₂_getElem? (Json.sameElements_iff.1 h).flip hf
      have hbelow := ih (Json.isDocument_arr.1 ha e (List.mem_of_getElem? he))
        (Json.isDocument_arr.1 hb f (List.mem_of_getElem? hf)) hsame (by simpa [Tree.at?, hi, hf] using hpath)
      simpa [Tree.at?, hi, he] using hbelow
    | .obj ms, .obj ns =>
      rw [Json.isDocument_obj] at ha hb
      rw [Json.tree_obj, Tree.at?, Members.trees] at hpath ⊢
      cases hw : Members.get? ns token with
      | none => simp [hw] at hpath
      | some w =>
      obtain ⟨v, hv, hsame⟩ := ha.exists_same hb h hw
      rw [hv]
      exact ih (ha.part hv) (hb.part hw) hsame (by simpa [hw] using hpath)
    | .scalar _, .scalar _ => cases hpath
    | .scalar _, .arr _ | .scalar _, .obj _ | .arr _, .scalar _ | .arr _, .obj _ | .obj _, .scalar _ | .obj _, .arr _ =>
      cases h

mutual

/-- Documents that differ in the order of members only are equal. -/
theorem Json.same_of_tree {a b : Json} (ha : a.isDocument = true) (hb : b.isDocument = true)
    (h : a.tree = b.tree) : a.same b = true := by
  match a, b with
  | .scalar s, .scalar t =>
    obtain rfl := Tree.scalar.inj h
    simp [Json.same]
  | .arr es, .arr fs =>
    rw [Json.tree_arr, Json.tree_arr] at h
    exact Json.sameElements_of_tree (Json.isDocument_arr.1 ha) (Json.isDocument_arr.1 hb)
      (Tree.arr.inj h)
  | .obj ms, .obj ns =>
    rw [Json.isDocument_obj] at ha hb
    rw [Json.tree_obj, Json.tree_obj] at h
    have hget (name : String) :
        (Members.get? ms name).map Json.tree = (Members.get? ns name).map Json.tree :=
      congrFun (Tree.obj.inj h) name
    have hlength : ms.length = ns.length := by
      refine ha.length_eq hb fun name => ?_
      rw [← Option.isSome_iff_exists, ← Option.isSome_iff_exists, ← Option.isSome_map,
        hget, Option.isSome_map]
    have hmembers : Json.sameMembers ms ns = true := by
      refine Json.sameMembers_of_tree fun m hm => ?_
      obtain ⟨name, hname⟩ := ha.text m hm
      have htree := hget name
      rw [← hname, Members.get?_of_mem ha.distinct hm, Option.map_some, eq_comm,
        Option.map_eq_some_iff] at htree
      obtain ⟨w, hw, htree⟩ := htree
      exact ⟨ha.parts m hm, w, hw, hb.part hw, htree.symm⟩
    rw [Json.same, hlength, hmembers]
    simp
  | .scalar _, .arr _ => simp at h
  | .scalar _, .obj _ => simp at h
  | .arr _, .scalar _ => simp at h
  | .arr _, .obj _ => simp at h
  | .obj _, .scalar _ => simp at h
  | .obj _, .arr _ => simp at h

theorem Json.sameElements_of_tree {es fs : List Json} (hes : ∀ e ∈ es, e.isDocument = true)
    (hfs : ∀ e ∈ fs, e.isDocument = true) (h : es.map Json.tree = fs.map Json.tree) :
    Json.sameElements es fs = true := by
  match es, fs with
  | [], [] => rfl
  | e :: es, f :: fs =>
    obtain ⟨he, hrest⟩ := List.cons.inj h
    rw [List.forall_mem_cons] at hes hfs
    rw [Json.sameElements, Json.same_of_tree hes.1 hfs.1 he, Json.sameElements_of_tree hes.2 hfs.2 hrest]
    rfl
  | [], _ :: _ => cases h
  | _ :: _, [] => cases h

theorem Json.sameMembers_of_tree {part : List (Scalar × Json)} {ns : Members}
    (h : ∀ m ∈ part, m.2.isDocument = true ∧
      ∃ w, ns.get? m.1 = some w ∧ w.isDocument = true ∧ m.2.tree = w.tree) :
    Json.sameMembers part ns = true := by
  match part with
  | [] => rfl
  | (k, v) :: rest =>
    rw [List.forall_mem_cons] at h
    obtain ⟨⟨hv, w, hw, hdoc, htree⟩, hrest⟩ := h
    rw [Json.sameMembers, hw, Json.sameMembers_of_tree hrest]
    simpa using Json.same_of_tree hv hdoc htree

end

mutual

/-- A document that is equal to a part of it has nothing beyond that part. -/
theorem Json.tree_of_part {a b : Json} (ha : a.isDocument = true) (hpart : Tree.Part b.tree a.tree)
    (h : a.same b = true) : a.tree = b.tree := by
  match a, b with
  | .scalar s, .scalar t =>
    cases hpart
    rfl
  | .arr es, .arr fs =>
    rw [Json.tree_arr, Json.tree_arr] at hpart ⊢
    cases hpart with
    | arr hparts => rw [Json.elements_of_part (Json.isDocument_arr.1 ha) hparts h]
  | .obj ms, .obj ns =>
    rw [Json.isDocument_obj] at ha
    rw [Json.tree_obj, Json.tree_obj] at hpart ⊢
    cases hpart with
    | obj hparts =>
    rw [Json.same, Bool.and_eq_true] at h
    have hmembers := Json.members_of_part ha.parts (fun m hm w hw => ?_) h.2
    · congr 1
      funext name
      have hmember := hparts name
      cases hget : Members.get? ms name with
      | none =>
        have hnone : Members.trees ms name = none := by rw [Members.trees, hget, Option.map_none]
        rw [hnone] at hmember ⊢
        generalize Members.trees ns name = o at hmember ⊢
        cases hmember
        rfl
      | some v =>
        obtain ⟨k, hm, hk⟩ := Members.exists_mem_of_get? hget
        obtain rfl : k = .str name := by simpa using hk
        obtain ⟨w, hw, htree⟩ := hmembers _ hm
        rw [Members.trees, Members.trees, hget, hw, Option.map_some, Option.map_some, htree]
    · obtain ⟨name, hname⟩ := ha.text m hm
      have hmember := hparts name
      rw [Members.trees, Members.trees, ← hname, hw, Members.get?_of_mem ha.distinct hm] at hmember
      cases hmember with
      | present hpart => exact hpart
  | .scalar _, .arr _ => simp [Json.same] at h
  | .scalar _, .obj _ => simp [Json.same] at h
  | .arr _, .scalar _ => simp [Json.same] at h
  | .arr _, .obj _ => simp [Json.same] at h
  | .obj _, .scalar _ => simp [Json.same] at h
  | .obj _, .arr _ => simp [Json.same] at h

theorem Json.elements_of_part {es fs : List Json} (hes : ∀ e ∈ es, e.isDocument = true)
    (hparts : Tree.PartElements (fs.map Json.tree) (es.map Json.tree)) (h : Json.sameElements es fs = true) :
    es.map Json.tree = fs.map Json.tree := by
  match es, fs with
  | [], [] => rfl
  | e :: es, f :: fs =>
    rw [List.forall_mem_cons] at hes
    rw [Json.sameElements, Bool.and_eq_true] at h
    cases hparts with
    | cons hfirst hrest =>
      rw [List.map_cons, List.map_cons, Json.tree_of_part hes.1 hfirst h.1, Json.elements_of_part hes.2 hrest h.2]
  | [], _ :: _ => cases h
  | _ :: _, [] => cases h

theorem Json.members_of_part {part : List (Scalar × Json)} {ns : Members}
    (hdocs : ∀ m ∈ part, m.2.isDocument = true)
    (hparts : ∀ m ∈ part, ∀ w, ns.get? m.1 = some w → Tree.Part w.tree m.2.tree)
    (h : Json.sameMembers part ns = true) :
    ∀ m ∈ part, ∃ w, ns.get? m.1 = some w ∧ m.2.tree = w.tree := by
  match part with
  | [] => simp
  | (k, v) :: rest =>
    rw [List.forall_mem_cons] at hdocs hparts ⊢
    rw [Json.sameMembers, Bool.and_eq_true] at h
    refine ⟨?_, Json.members_of_part hdocs.2 hparts.2 h.2⟩
    cases hw : ns.get? k with
    | none =>
      rw [hw] at h
      cases h.1
    | some w =>
      rw [hw] at h
      exact ⟨w, rfl, Json.tree_of_part hdocs.1 (hparts.1 w hw) h.1⟩

end

end EditLens
