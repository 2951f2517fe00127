import EditLens.Json.Lemmas

/-! Members of objects as ordered lists: which changes of one member commute with which others. The
order of members is part of what is compared here. -/
namespace EditLens.Members

variable {ms : Members} {key other : Scalar} {value : Json}

def change (ms : Members) (key : Scalar) : Option Json → Members
  | some value => ms.put key value
  | none => ms.without key

def renamed (ms : Members) (source destination : Scalar) : Members :=
  ms.map fun m => (if m.1.same source then destination else m.1, m.2)

theorem has_iff : ms.has key = true ↔ ∃ v, ms.get? key = some v := by
  rw [has, Option.isSome_iff_exists]

theorem has_eq_false : ms.has key = false ↔ ms.get? key = none := by
  rw [has, Option.isSome_eq_false_iff, Option.isNone_iff_eq_none]

theorem get?_change (result : Option Json) : get? (ms.change key result) other =
    if key.same other then result else get? ms other := by
  cases result with
  | none => rw [change, get?_without]
  | some v => rw [change, get?_put]

private theorem same_false_trans {k : Scalar} (hk : k.same key = true)
    (hne : key.same other = false) : k.same other = false := by
  rw [Bool.eq_false_iff] at hne ⊢
  intro h
  exact hne (Scalar.same_trans (by rwa [Scalar.same_comm]) h)

private theorem without_put_self : (ms.put key value).without key = ms.without key := by
  induction ms with
  | nil => simp [put, without]
  | cons m rest ih =>
    obtain ⟨k, v⟩ := m
    unfold without at ih ⊢
    by_cases hk : k.same key = true
    · simp [put, hk]
    · simp [put, hk, ih]

private theorem without_put_of_ne (hne : key.same other = false) :
    (ms.put key value).without other = (ms.without other).put key value := by
  induction ms with
  | nil => simp [put, without, hne]
  | cons m rest ih =>
    obtain ⟨k, v⟩ := m
    unfold without at ih ⊢
    by_cases hk : k.same key = true
    · simp [put, hk, same_false_trans hk hne]
    · by_cases ho : k.same other = true
      · simp [put, hk, ho, ih]
      · simp [put, hk, ho, ih]

private theorem without_comm : (ms.without key).without other = (ms.without other).without key := by
  simp only [without, List.filter_filter, Bool.and_comm]

theorem without_change_self (result : Option Json) :
    (ms.change key result).without key = ms.without key := by
  cases result with
  | none => simp [change, without]
  | some v => exact without_put_self

theorem without_change_of_ne (hne : key.same other = false) (result : Option Json) :
    (ms.change key result).without other = (ms.without other).change key result := by
  cases result with
  | none => exact without_comm
  | some v => exact without_put_of_ne hne

/-- A new member goes behind one that is there already, whichever is set first. -/
theorem put_put_comm {v w : Json} (hne : key.same other = false) (hhas : ms.has other = true) :
    (ms.put key v).put other w = (ms.put other w).put key v := by
  induction ms with
  | nil => simp [has] at hhas
  | cons m rest ih =>
    obtain ⟨k, u⟩ := m
    by_cases hk : k.same key = true
    · simp [put, hk, same_false_trans hk hne]
    · by_cases ho : k.same other = true
      · simp [put, hk, ho]
      · have hrest : has rest other = true := by simpa [has, get?_cons, ho] using hhas
        simp [put, hk, ho, ih hrest]

theorem put_change_comm {w : Json} (hne : key.same other = false) (hhas : ms.has other = true)
    (result : Option Json) :
    (ms.change key result).put other w = (ms.put other w).change key result := by
  cases result with
  | none => rw [change, change, without_put_of_ne (by rwa [Scalar.same_comm])]
  | some v => exact put_put_comm hne hhas

theorem cons_change_of_ne {k : Scalar} {v : Json} (hne : k.same key = false)
    (result : Option Json) : change ((k, v) :: ms) key result = (k, v) :: ms.change key result := by
  cases result with
  | none => simp [change, without, hne]
  | some w => simp [change, put, hne]

theorem get?_renamed_destination {source destination : Scalar} (hnew : ms.get? destination = none) :
    get? (ms.renamed source destination) destination = ms.get? source := by
  induction ms with
  | nil => rfl
  | cons m rest ih =>
    obtain ⟨k, v⟩ := m
    rw [get?_cons] at hnew
    split at hnew
    · cases hnew
    · rename_i hk
      unfold renamed at ih ⊢
      rw [List.map_cons, get?_cons, get?_cons, ih hnew]
      by_cases hs : k.same source = true
      · simp [hs]
      · simp [hs, hk]

theorem get?_renamed_of_ne {source destination : Scalar} (hs : other.same source = false)
    (hd : destination.same other = false) :
    get? (ms.renamed source destination) other = ms.get? other := by
  induction ms with
  | nil => rfl
  | cons m rest ih =>
    obtain ⟨k, v⟩ := m
    unfold renamed at ih ⊢
    rw [List.map_cons, get?_cons, get?_cons, ih]
    by_cases hk : k.same source = true
    · have hko : k.same other = false := by
        rw [Bool.eq_false_iff] at hs ⊢
        intro h
        exact hs (Scalar.same_trans (by rwa [Scalar.same_comm]) hk)
      simp [hk, hko, hd]
    · simp [hk]

theorem get?_renamed_source {source destination : Scalar} (hne : destination.same source = false) :
    get? (ms.renamed source destination) source = none := by
  induction ms with
  | nil => rfl
  | cons m rest ih =>
    obtain ⟨k, v⟩ := m
    unfold renamed at ih ⊢
    rw [List.map_cons, get?_cons, ih]
    by_cases hk : k.same source = true
    · simp [hk, hne]
    · simp [hk]

theorem renamed_put_source {source destination : Scalar} (hnew : ms.get? destination = none) :
    (ms.put source value).renamed source destination =
      (ms.renamed source destination).put destination value := by
  induction ms with
  | nil => simp [put, renamed]
  | cons m rest ih =>
    obtain ⟨k, v⟩ := m
    rw [get?_cons] at hnew
    split at hnew
    · cases hnew
    · rename_i hk
      unfold renamed at ih ⊢
      by_cases hs : k.same source = true
      · simp [put, hs]
      · simp [put, hs, hk, ih hnew]

theorem renamed_put_of_ne {source destination : Scalar} (hs : key.same source = false)
    (hd : destination.same key = false) :
    (ms.put key value).renamed source destination =
      (ms.renamed source destination).put key value := by
  induction ms with
  | nil => simp [put, renamed, hs]
  | cons m rest ih =>
    obtain ⟨k, v⟩ := m
    unfold renamed at ih ⊢
    by_cases hk : k.same key = true
    · have hks : k.same source = false := same_false_trans hk hs
      simp [put, hk, hks]
    · by_cases hks : k.same source = true
      · simp [put, hk, hks, hd, ih]
      · simp [put, hk, hks, ih]

theorem exists_mem_of_get? (h : ms.get? key = some value) :
    ∃ k, (k, value) ∈ ms ∧ k.same key = true := by
  induction ms with
  | nil => cases h
  | cons m rest ih =>
    obtain ⟨k, v⟩ := m
    rw [get?_cons] at h
    split at h
    · rename_i hk
      obtain rfl := Option.some.inj h
      exact ⟨k, by simp, hk⟩
    · obtain ⟨k', hmem, hk'⟩ := ih h
      exact ⟨k', List.mem_cons_of_mem _ hmem, hk'⟩

theorem same_eq_false_of_get?_eq_none (h : ms.get? key = none) {m : Scalar × Json} (hm : m ∈ ms) :
    m.1.same key = false := by
  induction ms with
  | nil => cases hm
  | cons first rest ih =>
    obtain ⟨k, v⟩ := first
    rw [get?_cons] at h
    split at h
    · cases h
    · rename_i hk
      rcases List.mem_cons.1 hm with rfl | hm
      · simpa using hk
      · exact ih h hm

theorem change_get? (ms : Members) (key : Scalar) : ms.change key (ms.get? key) = ms := by
  cases h : ms.get? key with
  | some v => exact put_of_get? h
  | none =>
    refine List.filter_eq_self.2 fun m hm => ?_
    rw [same_eq_false_of_get?_eq_none h hm]
    rfl

/-- Where keys are distinct, the order of members does not matter for finding them. -/
theorem get?_perm {ns : Members} (hperm : ms.Perm ns) (hd : ns.Distinct) :
    ms.get? key = ns.get? key := by
  have hms : ms.Distinct := hd.perm hperm.symm fun h => by rwa [Scalar.same_comm]
  cases hn : ns.get? key with
  | some v =>
    obtain ⟨k, hmem, hk⟩ := exists_mem_of_get? hn
    rw [← get?_congr hk, get?_of_mem hms (hperm.mem_iff.2 hmem)]
  | none =>
    rw [Option.eq_none_iff_forall_not_mem]
    intro v hv
    obtain ⟨k, hmem, hk⟩ := exists_mem_of_get? hv
    rw [← get?_congr hk, get?_of_mem hd (hperm.mem_iff.1 hmem)] at hn
    cases hn

theorem put_eq_map (hd : ms.Distinct) (hhas : ms.has key = true) :
    ms.put key value = ms.map fun m => if m.1.same key then (m.1, value) else m := by
  induction ms with
  | nil => cases hhas
  | cons m rest ih =>
    obtain ⟨k, v⟩ := m
    obtain ⟨hfirst, hrest⟩ := List.pairwise_cons.1 hd
    by_cases hk : k.same key = true
    · have hkeep : rest.map (fun m => if m.1.same key then (m.1, value) else m) = rest := by
        rw [List.map_congr_left (g := id), List.map_id]
        intro m hm
        have hne : m.1.same key = false := by
          rw [Bool.eq_false_iff]
          intro h
          have := Scalar.same_trans hk (by rwa [Scalar.same_comm] : key.same m.1 = true)
          rw [hfirst m hm] at this
          cases this
        simp [hne]
      simp [put, hk, hkeep]
    · have hrest' : has rest key = true := by simpa [has, get?_cons, hk] using hhas
      simp [put, hk, ih hrest hrest']

theorem get?_append {rest : Members} : get? (ms ++ rest) key = (ms.get? key).or (rest.get? key) := by
  induction ms with
  | nil => rfl
  | cons m others ih =>
    obtain ⟨k, v⟩ := m
    rw [List.cons_append, get?_cons, get?_cons, ih]
    split <;> rfl

theorem put_of_get?_eq_none (h : ms.get? key = none) : ms.put key value = ms ++ [(key, value)] := by
  induction ms with
  | nil => rfl
  | cons m rest ih =>
    obtain ⟨k, w⟩ := m
    rw [get?_cons] at h
    split at h
    · cases h
    · rename_i hk
      rw [put, if_neg hk, ih h, List.cons_append]

/-- Setting a member respects the order of members. -/
theorem put_perm {ns : Members} (hperm : ms.Perm ns) (hd : ns.Distinct) :
    (ms.put key value).Perm (ns.put key value) := by
  have hms : ms.Distinct := hd.perm hperm.symm fun h => by rwa [Scalar.same_comm]
  cases hhas : ns.has key with
  | true =>
    have hhas' : ms.has key = true := by rwa [has, get?_perm hperm hd]
    rw [put_eq_map hms hhas', put_eq_map hd hhas]
    exact hperm.map _
  | false =>
    have hnone := has_eq_false.1 hhas
    rw [put_of_get?_eq_none hnone, put_of_get?_eq_none ((get?_perm hperm hd).trans hnone)]
    exact hperm.append_right _

private theorem putAll_eq_append {rest : Members} (h : Distinct (ms ++ rest)) : ms.putAll rest = ms ++ rest := by
  induction rest generalizing ms with
  | nil => rw [List.append_nil]; rfl
  | cons m rest ih =>
    have hnew : ms.get? m.1 = none := by
      rw [Option.eq_none_iff_forall_not_mem]
      intro v hv
      obtain ⟨k, hmem, hk⟩ := exists_mem_of_get? hv
      have := (List.pairwise_append.1 h).2.2 (k, v) hmem m List.mem_cons_self
      rw [hk] at this
      cases this
    rw [List.append_cons] at h ⊢
    rw [← ih h, putAll, List.foldl_cons, put_of_get?_eq_none hnew]
    rfl

/-- Members that are put over others hide these. -/
theorem get?_putAll {extra : Members} (h : extra.Distinct) :
    get? (ms.putAll extra) key = (extra.get? key).or (ms.get? key) := by
  induction extra generalizing ms with
  | nil => rfl
  | cons m rest ih =>
    obtain ⟨k, v⟩ := m
    obtain ⟨hfirst, hrest⟩ := List.pairwise_cons.1 h
    rw [putAll, List.foldl_cons, ← putAll, ih hrest, get?_put, get?_cons]
    split
    · rename_i hk
      have hnone : get? rest key = none := by
        rw [← get?_congr hk, Option.eq_none_iff_forall_not_mem]
        intro w hw
        obtain ⟨k', hmem, hk'⟩ := exists_mem_of_get? hw
        rw [Scalar.same_comm, hfirst _ hmem] at hk'
        cases hk'
      rw [hnone, Option.none_or, Option.some_or]
    · rfl

/-- A member of an object into which others are put is one of these or was there before. -/
theorem exists_of_putAll {extra : Members} (h : get? (ms.putAll extra) key = some value) :
    (∃ m ∈ extra, m.2 = value) ∨ ms.get? key = some value := by
  induction extra generalizing ms with
  | nil => exact .inr h
  | cons m rest ih =>
    rcases ih h with ⟨m', hm', hv⟩ | hv
    · exact .inl ⟨m', List.mem_cons_of_mem _ hm', hv⟩
    · rw [get?_put] at hv
      split at hv
      · exact .inl ⟨m, List.mem_cons_self, Option.some.inj hv⟩
      · exact .inr hv

/-- Entries with distinct keys are all kept. -/
theorem ofEntries_eq (h : ms.Distinct) : ofEntries ms = ms := by
  rw [ofEntries, putAll_eq_append (by simpa using h), List.nil_append]

theorem has_put : (ms.put key value).has other = (key.same other || ms.has other) := by
  rw [has, get?_put, has]
  split <;> simp [*]

theorem has_put_self : (ms.put key value).has key = true := by simp [has_put]

theorem has_without : (ms.without key).has other = (!key.same other && ms.has other) := by
  rw [has, get?_without, has]
  split <;> simp [*]

/-- What is put over other members is found under its keys, and these under theirs. -/
private theorem has_putAll {extra : Members} : (ms.putAll extra).has key = (ms.has key || extra.has key) := by
  induction extra generalizing ms with
  | nil => simp [putAll, has]
  | cons first rest ih =>
    rw [putAll, List.foldl_cons, ← putAll, ih, has_put, has, has, has, get?_cons]
    split <;> simp_all

theorem has_ofEntries : (ofEntries ms).has key = ms.has key := by
  rw [ofEntries, has_putAll]
  rfl

theorem same_eq_false_of_has (h : ms.has key = false) (hother : ms.has other = true) : key.same other = false := by
  rw [Bool.eq_false_iff]
  intro hsame
  rw [has, get?_congr hsame, ← has, hother] at h
  cases h

theorem has_renamed_destination {source destination : Scalar} (hnew : ms.has destination = false)
    (h : ms.has source = true) : (ms.renamed source destination).has destination = true := by
  rwa [has, get?_renamed_destination (has_eq_false.1 hnew)]

theorem has_renamed_of_ne {source destination : Scalar} (hs : other.same source = false)
    (hd : destination.same other = false) : (ms.renamed source destination).has other = ms.has other := by
  rw [has, has, get?_renamed_of_ne hs hd]

end EditLens.Members
