import EditLens.Proofs.Schema.Filled

/-! Filling in as something that happens at one place of a patch. Main statement: what is filled in after an operation
is what fills the root of the schema of its part, moved to its path; it reaches no deeper than that schema does, and is
found just as well by starting over at the root for each member. -/
namespace EditLens

namespace PatchOp

def under (above : Path) (p : PatchOp) : PatchOp :=
  match p.path with
  | .ok path => p.withPath (above ++ path)
  | .error _ => p

@[simp] theorem under_add (above path : Path) (v : Json) : (add path v).under above = add (above ++ path) v := by
  rw [under, (edits_add path v).path]
  rfl

end PatchOp

namespace Noted

private theorem outcome_gather {α β : Type} (f : α → Noted (List β)) (l : List α) :
    (gather f l).outcome = (do return (← l.mapM fun a => (f a).outcome).flatten) := by
  induction l with
  | nil => rfl
  | cons a rest ih =>
    simp only [gather, outcome_bind, outcome_pure, ih, List.mapM_cons]
    cases (f a).outcome with
    | error fault => rfl
    | ok first =>
      simp only [Except.bind_ok]
      cases rest.mapM fun a => (f a).outcome <;> rfl

private theorem outcome_gather_map {α β : Type} {f f' : α → Noted (List β)} (g : β → β) {l : List α}
    (h : ∀ a ∈ l, (f' a).outcome = do return (← (f a).outcome).map g) :
    (gather f' l).outcome = do return (← (gather f l).outcome).map g := by
  induction l with
  | nil => rfl
  | cons a rest ih =>
    rw [List.forall_mem_cons] at h
    simp only [gather, outcome_bind, outcome_pure, h.1, ih h.2, bind_assoc, pure_bind, Except.bind_ok, List.map_append]
    rfl

end Noted

namespace Schema

/-- Schemas in which an alternative that describes a container has no alternatives of its own, at any depth. -/
inductive PlainUnions : Json → Prop
  | mk {schema : Json}
    (plain : ∀ os, options schema = .ok os → ∀ o ∈ os,
      o.mentions "properties" = .ok true ∨ o.mentions "items" = .ok true → options o = .ok [])
    (alternatives : ∀ os, options schema = .ok os → ∀ o ∈ os, PlainUnions o)
    (members : ∀ props, memberSchemas schema = .ok props → ∀ m ∈ props, PlainUnions m.2)
    (items : ∀ part, schema.lookup "items" = .ok part → PlainUnions part) : PlainUnions schema

variable {schema part found : Json} {path above : Path} {token : String} {props : Members} {ps : Patch} {p : PatchOp}

private theorem findContainer?_mentions {os : List Json} {o : Json} (h : findContainer? os = .ok (some o)) :
    o.mentions "properties" = .ok true ∨ o.mentions "items" = .ok true := by
  induction os with
  | nil => cases h
  | cons first rest ih =>
    obtain ⟨hasProperties, hproperties, h⟩ := Except.exists_of_bind h
    split at h
    · rename_i htrue
      obtain rfl := Option.some.inj (Except.ok.inj h)
      exact .inl (by rw [hproperties, htrue])
    · obtain ⟨hasItems, hitems, h⟩ := Except.exists_of_bind h
      split at h
      · rename_i htrue
        obtain rfl := Option.some.inj (Except.ok.inj h)
        exact .inr (by rw [hitems, htrue])
      · exact ih h

namespace PlainUnions

private theorem of_options_eq_nil (h : options schema = .ok []) (hprops : memberSchemas schema = .ok props)
    (members : ∀ m ∈ props, PlainUnions m.2)
    (items : ∀ part, schema.lookup "items" = .ok part → PlainUnions part) : PlainUnions schema := by
  refine .mk (fun os hos o ho => ?_) (fun os hos o ho => ?_) (fun props' hprops' => ?_) items
  · obtain rfl := Except.ok.inj (h.symm.trans hos)
    cases ho
  · obtain rfl := Except.ok.inj (h.symm.trans hos)
    cases ho
  · obtain rfl := Except.ok.inj (hprops.symm.trans hprops')
    exact members

private theorem ofScalar (s : Scalar) : PlainUnions (.scalar s) :=
  .mk (fun _ h => by cases h) (fun _ h => by cases h) (fun _ h => by cases h) fun _ h => by cases h

private theorem emptyObject : PlainUnions .emptyObject := by
  refine of_options_eq_nil rfl rfl (fun m hm => by cases hm) fun part hpart => ?_
  obtain rfl := Except.ok.inj hpart
  exact ofScalar .null

private theorem container (h : PlainUnions schema) (hfound : Schema.container schema = .ok found) :
    PlainUnions found := by
  obtain ⟨os, hos, hfound⟩ := Except.exists_of_bind hfound
  obtain ⟨found?, hfound?, hfound⟩ := Except.exists_of_bind hfound
  obtain rfl := Except.ok.inj hfound
  cases found? with
  | none => exact h
  | some o =>
    cases h with
    | mk _ alternatives _ _ => exact alternatives os hos o (findContainer?_mem hfound?)

private theorem step (h : PlainUnions schema) (hfound : Schema.step schema token = .ok found) : PlainUnions found := by
  obtain ⟨_, alternatives, members, items⟩ := h
  obtain ⟨part, hpart, hfound⟩ := Except.exists_of_bind hfound
  split at hfound
  · obtain rfl := Except.ok.inj hfound
    exact items part hpart
  · obtain ⟨props, hprops, hfound⟩ := Except.exists_of_bind hfound
    obtain rfl := Except.ok.inj hfound
    split
    · rename_i hobj
      obtain ⟨k, hmem⟩ := exists_mem_of_isObject hobj
      exact members props hprops _ hmem
    · exact emptyObject

/-- The alternative that is chosen for a container is chosen again. -/
private theorem container_container (h : PlainUnions schema) (hfound : Schema.container schema = .ok found) :
    Schema.container found = .ok found := by
  obtain ⟨os, hos, hchosen⟩ := Except.exists_of_bind hfound
  obtain ⟨found?, hfound?, hchosen⟩ := Except.exists_of_bind hchosen
  obtain rfl := Except.ok.inj hchosen
  cases found? with
  | none => exact hfound
  | some o =>
    cases h with
    | mk plain _ _ _ =>
      have hnone := plain os hos o (findContainer?_mem hfound?) (findContainer?_mentions hfound?)
      simp [Schema.container, hnone, findContainer?]

private theorem container_locate (h : PlainUnions schema) (hpart : locate schema path = .ok part) :
    Schema.container part = .ok part := by
  induction path generalizing schema with
  | nil => exact h.container_container hpart
  | cons token rest ih =>
    obtain ⟨chosen, hchosen, hpart⟩ := Except.exists_of_bind hpart
    obtain ⟨next, hnext, hpart⟩ := Except.exists_of_bind hpart
    exact ih ((h.container hchosen).step hnext) hpart

end PlainUnions

private theorem outcome_fillMember_append (above path : Path) {m : Scalar × Json}
    (ih : ∀ part path, below schema m.1.plain = .ok part →
      (fill (above ++ path) part).outcome = do return (← (fill path part).outcome).map (PatchOp.under above)) :
    (fillMember (above ++ path) schema m).outcome =
      (do return (← (fillMember path schema m).outcome).map (PatchOp.under above)) := by
  simp only [fillMember, Noted.outcome_bind, Noted.outcome_liftM]
  cases memberDefault m.2 with
  | error fault => rfl
  | ok default =>
    cases default with
    | none => rfl
    | some v =>
      simp only [Except.bind_ok]
      split
      · simp only [Noted.outcome_bind, Noted.outcome_liftM, outcome_noteFilled, Noted.outcome_pure]
        cases hpart : below schema m.1.plain with
        | error fault => rfl
        | ok part =>
          simp only [Except.bind_ok, List.append_assoc, ih part _ hpart, bind_assoc, pure_bind, List.map_cons,
            PatchOp.under_add]
          rfl
      · simp [List.append_assoc]

/-- What fills an object somewhere is what fills it at the root, moved there. -/
theorem outcome_fill_append (above path : Path) (schema : Json) :
    (fill (above ++ path) schema).outcome =
      (do return (← (fill path schema).outcome).map (PatchOp.under above)) := by
  -- filling goes on at the schema of a member, which is chosen by a name: its weight is less
  induction hn : schema.weight using Nat.strong_induction_on generalizing schema path with
  | _ n ih =>
  subst hn
  simp only [fill_eq, Noted.outcome_bind, Noted.outcome_liftM, bind_assoc]
  cases hprops : memberSchemas schema with
  | error fault => rfl
  | ok props =>
    simp only [Except.bind_ok]
    cases props with
    | nil => rfl
    | cons first rest =>
      refine Noted.outcome_gather_map _ fun m _ => outcome_fillMember_append above path fun part path hpart => ?_
      exact ih _ (below_weight_lt hprops hpart) path part rfl

def rootDefaults (schema : Json) : Except Fault Patch := do
  return (← (filled schema [.add [] .emptyObject]).outcome).tail

/-- What the root of the schema at the path of an operation is filled with, moved to the path, if the operation makes
an empty object. -/
def defaultsAt (schema : Json) (p : PatchOp) : Except Fault Patch := do
  if ← p.makesObject then
    let path ← p.path
    return (← rootDefaults (← locate schema path)).map (PatchOp.under path)
  else return []

/-- What one member of an object at a path is filled with, starting over at the root of the schema. -/
def startedOver (schema : Json) (path : Path) (m : Scalar × Json) : Except Fault Patch := do
  match ← memberDefault m.2 with
  | none => return []
  | some v => (filled schema [.add (path ++ [m.1.plain]) v]).outcome

theorem outcome_filled_singleton (schema : Json) (p : PatchOp) :
    (filled schema [p]).outcome = (filledOp schema p).outcome := by
  rw [outcome_filled_cons]
  cases (filledOp schema p).outcome with
  | error fault => rfl
  | ok ps => exact congrArg Except.ok (List.append_nil ps)

private theorem rootDefaults_eq (h : container schema = .ok schema) :
    rootDefaults schema = (fill [] schema).outcome := by
  rw [rootDefaults, outcome_filled_singleton, outcome_filledOp_of_makesObject schema (makesObject_add [] .emptyObject)
    (PatchOp.edits_add [] .emptyObject).path, locate, h]
  simp

private theorem PlainUnions.defaultsAt_eq (h : PlainUnions schema) (hp : p.makesObject = .ok true)
    (hpath : p.path = .ok path)
    (hpart : locate schema path = .ok part) : defaultsAt schema p = (fill path part).outcome := by
  have hfill := outcome_fill_append path [] part
  rw [List.append_nil] at hfill
  simp only [defaultsAt, hp, hpath, hpart, Except.bind_ok, if_true, rootDefaults_eq (h.container_locate hpart), hfill]

private theorem PlainUnions.outcome_filledOp (h : PlainUnions schema) (p : PatchOp) :
    (filledOp schema p).outcome = (do return p :: (← defaultsAt schema p)) := by
  cases hp : p.makesObject with
  | error fault =>
    simp only [filledOp, defaultsAt, hp, Noted.outcome_bind, Noted.outcome_liftM]
    rfl
  | ok makes =>
    cases makes with
    | false =>
      simp only [filledOp, defaultsAt, hp, Noted.outcome_bind, Noted.outcome_liftM]
      rfl
    | true =>
      cases hpath : p.path with
      | error fault =>
        simp only [filledOp, defaultsAt, hp, hpath, Noted.outcome_bind, Noted.outcome_liftM, Except.bind_ok, if_true]
        rfl
      | ok path =>
        rw [outcome_filledOp_of_makesObject schema hp hpath]
        cases hpart : locate schema path with
        | error fault =>
          simp only [defaultsAt, hp, hpath, hpart, Except.bind_ok, if_true]
          rfl
        | ok part => rw [h.defaultsAt_eq hp hpath hpart, Except.bind_ok]

private theorem outcome_fillMember_startedOver (hpart : locate schema path = .ok part) (m : Scalar × Json) :
    (fillMember path part m).outcome = startedOver schema path m := by
  simp only [fillMember, startedOver, Noted.outcome_bind, Noted.outcome_liftM]
  cases memberDefault m.2 with
  | error fault => rfl
  | ok default =>
    cases default with
    | none => rfl
    | some v =>
      simp only [Except.bind_ok, outcome_filled_singleton]
      by_cases hv : v = .emptyObject
      · have hadd := PatchOp.edits_add (path ++ [m.1.plain]) v
        rw [outcome_filledOp_of_makesObject schema ((makesObject_add _ v).trans (by rw [decide_eq_true hv])) hadd.path,
          locate_append_token, hpart, Except.bind_ok, if_pos hv]
        simp only [Noted.outcome_bind, Noted.outcome_liftM, outcome_noteFilled, Except.bind_ok, Noted.outcome_pure]
        rfl
      · rw [outcome_filledOp_of_ne schema (PatchOp.edits_add _ v) (by simpa [Edit.written?] using hv), if_neg hv]
        rfl

/-- Filling in is local and bounded. After each operation comes what the root of the schema at its path is filled with,
moved there, and nothing else. What comes after an operation that makes an empty object are additions below its path, by
at least one step and by no more than the depth of that schema; they are those for its members, each found by starting
over at the root, and at every member the schema is less deep. -/
theorem PlainUnions.outcome_filled (h : PlainUnions schema) :
    (∀ patch, (filled schema patch).outcome =
      do return (← patch.mapM fun p => do return p :: (← defaultsAt schema p)).flatten) ∧
    ∀ p path part, p.makesObject = .ok true → p.path = .ok path → locate schema path = .ok part →
      (∀ ps, defaultsAt schema p = .ok ps → AddsWithin (depth part) path ps) ∧
      defaultsAt schema p = (do return (← (← memberSchemas part).mapM (startedOver schema path)).flatten) ∧
      ∀ props, memberSchemas part = .ok props → ∀ m ∈ props, ∀ deeper,
        locate schema (path ++ [m.1.plain]) = .ok deeper → depth deeper < depth part := by
  refine ⟨fun patch => ?_, fun p path part hp hpath hpart => ?_⟩
  · rw [filled, Noted.outcome_gather]
    simp only [h.outcome_filledOp]
  refine ⟨fun ps hps => ?_, ?_, fun props hprops m hm deeper hdeeper => ?_⟩
  · exact addsWithin_fill (h.defaultsAt_eq hp hpath hpart ▸ hps)
  · rw [h.defaultsAt_eq hp hpath hpart, fill_eq, Noted.outcome_bind, Noted.outcome_liftM]
    congr 1
    funext props
    rw [Noted.outcome_gather]
    simp only [outcome_fillMember_startedOver hpart]
  · rw [locate_append_token, hpart, Except.bind_ok] at hdeeper
    exact depth_below_lt hprops hm hdeeper

/-- In a nullable object, a number that is nested two members deep. -/
theorem PlainUnions.outcome_filled_nullable :
    let leaf : Json := .obj [("type", .str "integer")]
    let inner : Json := .obj [("properties", .obj [("c", leaf)]), ("default", .emptyObject)]
    let outer : Json := .obj [("properties", .obj [("b", inner)])]
    let schema : Json := .obj [("properties",
      .obj [("a", .obj [("anyOf", .arr [.obj [("type", .str "null")], outer])])])]
    PlainUnions schema ∧ locate schema ["a"] = .ok outer ∧ depth outer = 2 ∧
      defaultsAt schema (.replace ["a"] .emptyObject) =
        .ok [.add ["a", "b"] .emptyObject, .add ["a", "b", "c"] (.int 0)] ∧
      AddsWithin 2 ["a"] [.add ["a", "b"] .emptyObject, .add ["a", "b", "c"] (.int 0)] := by
  intro leaf inner outer schema
  have hnoItems : ∀ {part : Json}, Except.ok (ε := Fault) Json.null = .ok part → PlainUnions part := fun h =>
    Except.ok.inj h ▸ ofScalar .null
  have htype : ∀ type : Json, PlainUnions (.obj [("type", type)]) := fun type =>
    of_options_eq_nil rfl rfl (fun _ hm => by cases hm) fun _ => hnoItems
  have hinner : PlainUnions inner := of_options_eq_nil rfl rfl (by simpa using htype _) fun _ => hnoItems
  have houter : PlainUnions outer := of_options_eq_nil rfl rfl (by simpa using hinner) fun _ => hnoItems
  have hunion : PlainUnions (.obj [("anyOf", .arr [.obj [("type", .str "null")], outer])]) := by
    refine .mk (fun os hos => ?_) (fun os hos => ?_) (fun props hprops m hm => ?_) fun _ => hnoItems
    · obtain rfl := Except.ok.inj hos
      exact List.forall_mem_cons.2 ⟨fun _ => rfl, List.forall_mem_singleton.2 fun _ => rfl⟩
    · obtain rfl := Except.ok.inj hos
      simpa using ⟨htype _, houter⟩
    · obtain rfl := Except.ok.inj hprops
      cases hm
  have hschema : PlainUnions schema := of_options_eq_nil rfl rfl (by simpa using hunion) fun _ => hnoItems
  have hpath : (PatchOp.replace ["a"] .emptyObject).path = .ok ["a"] :=
    (PatchOp.Writes.toOp .replace ["a"] .emptyObject).edits.path
  have hpart : locate schema ["a"] = .ok outer := rfl
  have hdefaults : defaultsAt schema (.replace ["a"] .emptyObject) =
      .ok [.add ["a", "b"] .emptyObject, .add ["a", "b", "c"] (.int 0)] := by
    have hfill : (fill ["a", "b"] inner).outcome = .ok [.add ["a", "b", "c"] (.int 0)] := by
      rw [fill_eq]
      rfl
    have hmember : (fillMember ["a"] outer (.str "b", inner)).outcome =
        .ok [.add ["a", "b"] .emptyObject, .add ["a", "b", "c"] (.int 0)] := by
      have hdefault : memberDefault inner = .ok (some .emptyObject) := rfl
      have hpart : Schema.below outer "b" = .ok inner := rfl
      simp [fillMember, hdefault, hpart, hfill]
    rw [hschema.defaultsAt_eq rfl hpath hpart, fill_eq]
    have hprops : memberSchemas outer = .ok [(.str "b", inner)] := rfl
    simp [hprops, Noted.gather, hmember]
  exact ⟨hschema, hpart, by decide, hdefaults,
    (hschema.outcome_filled.2 _ ["a"] outer rfl hpath hpart).1 _ hdefaults⟩

end Schema

end EditLens
