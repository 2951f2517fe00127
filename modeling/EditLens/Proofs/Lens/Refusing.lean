import EditLens.Proofs.Lens.Undoing
import EditLens.Proofs.Schema.Revising

/-! Lenses on schemas whose keywords say what they are to say. Main statement: what comes out is such a schema again or
a fault that is reported as one of schemas, unless a member is put into itself. -/
namespace EditLens

/-- Whether a fault is reported as one of schemas, or is that of a member that is missing, which may be where a member
is put into itself. -/
def Fault.Refuses (mayMiss : Bool) (fault : Fault) : Prop :=
  fault.report?.map Prod.fst = some .schema ∨ fault = .absentMember ∧ mayMiss = true

def Settles {α : Type} (mayMiss : Bool) (good : α → Prop) : Except Fault α → Prop
  | .ok a => good a
  | .error fault => fault.Refuses mayMiss

namespace Settles

variable {α β : Type} {mayMiss other : Bool} {good : α → Prop} {fine : β → Prop} {x : Except Fault α}

private theorem bind {f : α → Except Fault β} (h : Settles mayMiss good x)
    (hf : ∀ a, good a → Settles mayMiss fine (f a)) :
    Settles mayMiss fine (x >>= f) := by
  cases x with
  | error fault => exact h
  | ok a => exact hf a h

private theorem map {f : α → β} (h : Settles mayMiss good x) (hf : ∀ a, good a → fine (f a)) :
    Settles mayMiss fine (x.map f) := by
  cases x with
  | error fault => exact h
  | ok a => exact hf a h

private theorem mono (h : Settles mayMiss good x) (hmiss : mayMiss = true → other = true) : Settles other good x := by
  cases x with
  | error fault => exact h.imp_right fun hfault => ⟨hfault.1, hmiss hfault.2⟩
  | ok a => exact h

/-- What is known of all results may be added. -/
private theorem strengthen (h : Settles mayMiss (fun _ => True) x) (hgood : ∀ a, x = .ok a → good a) :
    Settles mayMiss good x := by
  cases x with
  | error fault => exact h
  | ok a => exact hgood a rfl

end Settles

def Json.namesTypes : Json → Bool
  | .null => true
  | .str _ => true
  | .arr names => names.all Json.isString
  | _ => false

def Property.namesTypes (property : Property) : Bool :=
  property.type.namesTypes && match property.items with
    | .null => true
    | .obj items => (Members.valueOf items "type").namesTypes
    | _ => false

mutual

def LensOp.namesTypes : LensOp → Bool
  | .add property => property.namesTypes
  | .inside _ lens => Lens.namesTypes lens
  | .each lens => Lens.namesTypes lens
  | _ => true

def Lens.namesTypes : Lens → Bool
  | [] => true
  | op :: rest => op.namesTypes && Lens.namesTypes rest

end

mutual

def LensOp.plungesItself : LensOp → Bool
  | .plunge host name => host = name
  | .inside _ lens => Lens.plungesItself lens
  | .each lens => Lens.plungesItself lens
  | _ => false

def Lens.plungesItself : Lens → Bool
  | [] => false
  | op :: rest => op.plungesItself || Lens.plungesItself rest

end

/-- Entries with text keys make up an object, whichever are the same. -/
private theorem Members.AreOf.ofEntries {sort : Json → Prop} {es : Members}
    (h : ∀ m ∈ es, (∃ name : String, m.1 = .str name) ∧ sort m.2) : (ofEntries es).AreOf sort := by
  have hputAll : ∀ {ms : Members}, ms.AreOf sort → (ms.putAll es).AreOf sort := by
    induction es with
    | nil => exact id
    | cons m rest ih =>
      intro ms hms
      obtain ⟨⟨⟨name, hname⟩, hv⟩, hrest⟩ := List.forall_mem_cons.1 h
      rw [Members.putAll, List.foldl_cons, hname]
      exact ih hrest (hms.put name hv)
  exact hputAll .nil

namespace Schema

variable {mayMiss : Bool} {type default part : Json} {ms props : Members} {property : Property}

private theorem settles_defaultOfName {type : Scalar} :
    Settles mayMiss (fun _ => True) (defaultOfName (.scalar type)) := by
  simp only [defaultOfName, Json.asKey, Except.bind_ok]
  split
  · trivial
  · exact .inl rfl

private theorem settles_defaultOfType (h : type.namesTypes = true) :
    Settles mayMiss (fun _ => True) (defaultOfType type) := by
  cases type with
  | scalar s => exact settles_defaultOfName
  | obj ms => cases h
  | arr names =>
    cases names with
    | nil => trivial
    | cons first rest =>
      rw [defaultOfType]
      split
      · trivial
      · rw [Json.namesTypes, List.all_cons, Bool.and_eq_true, Json.isString_iff] at h
        obtain ⟨⟨name, rfl⟩, -⟩ := h
        exact settles_defaultOfName

private theorem settles_typeAndDefault (h : type.namesTypes = true) :
    Settles mayMiss (fun _ => True) (typeAndDefault type default) := by
  have htype : (if type.isNull then Json.str default.typeName else type).namesTypes = true := by
    split
    · rfl
    · exact h
  rw [typeAndDefault]
  split
  · exact .inl rfl
  · dsimp only
    split
    · exact (settles_defaultOfType htype).bind fun _ _ => trivial
    · trivial

private theorem settles_ofProperty (h : property.namesTypes = true) :
    Settles mayMiss Regular (ofProperty property) := by
  rw [Property.namesTypes, Bool.and_eq_true] at h
  refine Settles.strengthen ?_ fun part hpart => .of_ofProperty hpart
  refine (settles_typeAndDefault h.1).bind fun description _ => ?_
  split
  · rename_i hitems
    rw [Bool.and_eq_true] at hitems
    cases hdescribed : property.items with
    | obj items =>
      rw [hdescribed] at h
      simp only [Json.lookup, Json.asObject, Except.bind_ok]
      exact (settles_typeAndDefault h.2).bind fun _ _ => trivial
    | scalar s =>
      rw [hdescribed] at h hitems
      cases s with
      | null => cases hitems.2
      | _ => cases h.2
    | arr es =>
      rw [hdescribed] at h
      cases h.2
  · trivial

/-- A described member that is put into, taken out or described in another way. -/
private theorem settles_takenOut {host : Json} (h : Regular host) (hostName : Json) (name : String) :
    Settles mayMiss (fun taken => Regular taken.1 ∧ Regular taken.2.2) (takenOut host hostName (.str name)) := by
  obtain ⟨ms, rfl⟩ := h.exists_obj
  obtain ⟨props, names, hprops, hnames, hparts, -⟩ := h.exists_members
  simp only [takenOut, Json.asObject, Json.asKey, hprops, hnames, Except.bind_ok]
  cases hpart : props.get? name with
  | none => exact .inl rfl
  | some part => exact ⟨hparts.part hpart, (h.retold_required (hparts.without _) _ rfl).regular⟩

private theorem settles_putInto {host : Json} (h : Regular host) (hpart : Regular part) (name : String)
    (isRequired : Bool) : Settles mayMiss Regular (putInto host part (.str name) name isRequired) := by
  obtain ⟨ms, rfl⟩ := h.exists_obj
  obtain ⟨props, names, hprops, hnames, hparts, -⟩ := h.exists_members
  simp only [putInto, Json.asObject, hprops, hnames, Except.bind_ok]
  exact (h.retold_required (hparts.put name hpart) _ rfl).regular

private theorem settles_headed (h : Regular part) (name : Json) : Settles mayMiss Regular (headed name part) := by
  obtain ⟨ms, rfl⟩ := h.exists_obj
  simp only [headed, Json.mentions, Json.lookup, Json.asObject, Except.bind_ok, pure_bind]
  split
  · split
    · exact .inl rfl
    · exact h.elements.nullable
  · exact h.elements.nullable

private theorem settles_converted {mapping : Mapping} (h : Regular part) :
    Settles mayMiss Regular (converted mapping type part) := by
  obtain ⟨ms, rfl⟩ := h.exists_obj
  rw [converted]
  split
  · exact .typed type
  simp only [Json.asMembers, Except.bind_ok]
  have hdefaulting : ∀ ns next, Recoded ms ns → (next = ns ∨ ∃ v, next = ns.put "default" v) →
      Regular (.obj next) := by
    rintro ns next hns (rfl | ⟨v, rfl⟩)
    · exact hns.regular
    · exact (hns.defaulting v).regular
  cases henum : ms.get? "enum" with
  | none => exact hdefaulting ms _ (.refl h) (by split; exacts [.inr ⟨_, rfl⟩, .inl rfl])
  | some values =>
    obtain ⟨vs, rfl⟩ := h.exists_list (.inr rfl) henum
    exact hdefaulting _ _ ((Recoded.refl h).listing _) (by split; exacts [.inr ⟨_, rfl⟩, .inl rfl])

end Schema

namespace LensOp

open Schema

variable {mayMiss : Bool} {ms : Members}

private theorem settles_redescribe {f : Json → Except Fault Json} (h : Regular (.obj ms)) (name : String)
    (step : SchemaStep) (hf : ∀ part, Regular part → Settles mayMiss Regular (f part)) :
    Settles mayMiss (fun r : Revision => Regular (.obj (r.write ms)))
      (do redescribe (← (roster ms).properties) (.str name) step f) := by
  obtain ⟨props, names, hprops, -, hparts, -⟩ := h.exists_members
  simp only [roster, hprops, redescribe, Json.asKey, Except.bind_ok]
  cases hpart : props.get? name with
  | none => exact .inl rfl
  | some part =>
    exact (hf part (hparts.part hpart)).bind fun part' hpart' => (h.retold (hparts.put name hpart') rfl).regular

/-- Where one name takes the place of another, members stay described by schemas. -/
private theorem areOf_renameKey {props : Members} (h : props.AreOf Regular) (source destination : String) :
    (renameKey props source destination).AreOf Regular := by
  refine Members.AreOf.ofEntries fun m hm => ?_
  obtain ⟨n, hn, rfl⟩ := List.mem_map.1 hm
  refine ⟨?_, h.parts n hn⟩
  dsimp only
  split
  · exact ⟨destination, rfl⟩
  · exact h.text n hn

private theorem settles_rename (h : Regular (.obj ms)) (source destination : String) :
    Settles mayMiss (fun r : Revision => Regular (.obj (r.write ms)))
      ((LensOp.rename (.str source) (.str destination)).revise (roster ms)) := by
  obtain ⟨props, names, hprops, hnames, hparts, -⟩ := h.exists_members
  simp only [revise, roster, hprops, hnames, Json.asKey, Except.bind_ok]
  split
  · exact h
  · exact (h.retold_required (areOf_renameKey hparts source destination) _ rfl).regular

private theorem settles_hoist (h : Regular (.obj ms)) (host name : String) :
    Settles mayMiss (fun r : Revision => Regular (.obj (r.write ms)))
      ((LensOp.hoist (.str host) (.str name)).revise (roster ms)) := by
  obtain ⟨props, names, hprops, hnames, hparts, -⟩ := h.exists_members
  simp only [revise, roster, hprops, hnames, Json.asKey, Except.bind_ok]
  cases houter : props.get? host with
  | none => exact .inl rfl
  | some outer =>
    refine (settles_takenOut (hparts.part houter) (.str host) name).bind fun taken htaken => ?_
    exact (h.retold_required ((hparts.put host htaken.2).put name htaken.1) _ rfl).regular

/-- A member that is put into itself is not there any more when it is looked for as the host. -/
private theorem settles_plunge (h : Regular (.obj ms)) (host name : String) :
    Settles (LensOp.plunge (.str host) (.str name)).plungesItself (fun r : Revision => Regular (.obj (r.write ms)))
      ((LensOp.plunge (.str host) (.str name)).revise (roster ms)) := by
  obtain ⟨props, names, hprops, hnames, hparts, -⟩ := h.exists_members
  simp only [revise, roster, hprops, hnames, Json.asKey, Except.bind_ok]
  split
  · exact .inl rfl
  rename_i hhost
  cases hpart : props.get? name with
  | none => exact h
  | some part =>
    have hothers := hparts.without (.str name)
    simp only [Members.demand]
    cases houter : (props.without name).get? host with
    | none =>
      refine .inr ⟨rfl, ?_⟩
      rw [Members.get?_without] at houter
      split at houter
      · rename_i hsame
        simpa [plungesItself, eq_comm] using hsame
      · rw [Members.has_eq_false.2 houter] at hhost
        exact absurd rfl hhost
    | some outer =>
      refine (settles_putInto (hothers.part houter) (hparts.part hpart) name _).bind fun filled hfilled => ?_
      exact (h.retold_required (hothers.put host hfilled) _ rfl).regular

private theorem settles_add {property : Property} (h : Regular (.obj ms)) (hname : property.name.isString = true)
    (htypes : property.namesTypes = true) : Settles mayMiss (fun r : Revision => Regular (.obj (r.write ms)))
      ((LensOp.add property).revise (roster ms)) := by
  obtain ⟨name, hname⟩ := Json.isString_iff.1 hname
  obtain ⟨props, names, hprops, hnames, hparts, -⟩ := h.exists_members
  simp only [revise, roster, hprops, hnames, hname, Json.asKey, Except.bind_ok]
  split
  · exact .inl rfl
  · refine (settles_ofProperty htypes).bind fun part hpart => ?_
    exact (h.retold_required (hparts.put name hpart) _ rfl).regular

private theorem settles_remove {property : Property} (h : Regular (.obj ms)) (hname : property.name.isString = true) :
    Settles mayMiss (fun r : Revision => Regular (.obj (r.write ms)))
      ((LensOp.remove property).revise (roster ms)) := by
  obtain ⟨name, hname⟩ := Json.isString_iff.1 hname
  obtain ⟨props, names, hprops, hnames, hparts, -⟩ := h.exists_members
  simp only [revise, roster, hprops, hnames, hname, Json.asKey, Except.bind_ok]
  exact (h.retold_required (hparts.without _) _ rfl).regular

private theorem settles_each {lens : Lens} (h : Regular (.obj ms))
    (hlens : ∀ part, Regular part → Settles mayMiss Regular (Lens.follow part lens).outcome) :
    Settles mayMiss Regular (LensOp.follow (.obj ms) (.each lens)).outcome := by
  simp only [LensOp.follow, Json.mentions, Noted.outcome_bind, Noted.outcome_liftM, Except.bind_ok]
  split
  · rename_i hitems
    obtain ⟨part, hpart⟩ := Members.has_iff.1 hitems
    simp only [Noted.outcome_bind, Members.valueOf, hpart, Option.getD_some]
    exact (hlens part (h.of_items hpart)).bind fun inner hinner => h.put_items hinner
  · simp only [Json.lookup, Json.asObject, Noted.outcome_bind, Noted.outcome_liftM, Except.bind_ok, pure_bind]
    split
    · exact h
    · rw [Noted.outcome_stop]
      exact .inl rfl

/-- What is said anew about members makes up the result. -/
private theorem settles_of_revise {op : LensOp} (heach : ∀ lens, op ≠ .each lens)
    (h : Settles mayMiss (fun r : Revision => Regular (.obj (r.write ms))) (op.revise (roster ms))) :
    Settles mayMiss Regular (LensOp.follow (.obj ms) op).outcome := by
  rw [outcome_follow_eq heach]
  exact h.map fun r hr => hr

end LensOp

-- The recursion is over the lens; lenses for a part are followed on the schema of that part.
mutual

private theorem LensOp.settles (op : LensOp) {schema : Json} (h : Schema.Regular schema)
    (htext : op.isTextual = true) (htypes : op.namesTypes = true) :
    Settles op.plungesItself Schema.Regular (LensOp.follow schema op).outcome := by
  obtain ⟨ms, rfl⟩ := h.exists_obj
  match op with
  | .rename source destination =>
    simp only [LensOp.isTextual, Bool.and_eq_true, Json.isString_iff] at htext
    obtain ⟨⟨source, rfl⟩, destination, rfl⟩ := htext
    exact LensOp.settles_of_revise (by simp) (LensOp.settles_rename h source destination)
  | .hoist host name =>
    simp only [LensOp.isTextual, Bool.and_eq_true, Json.isString_iff] at htext
    obtain ⟨⟨host, rfl⟩, name, rfl⟩ := htext
    exact LensOp.settles_of_revise (by simp) (LensOp.settles_hoist h host name)
  | .plunge host name =>
    simp only [LensOp.isTextual, Bool.and_eq_true, Json.isString_iff] at htext
    obtain ⟨⟨host, rfl⟩, name, rfl⟩ := htext
    exact LensOp.settles_of_revise (by simp) (LensOp.settles_plunge h host name)
  | .wrap name =>
    obtain ⟨name, rfl⟩ := Json.isString_iff.1 htext
    refine LensOp.settles_of_revise (by simp) (LensOp.settles_redescribe h name .wrap fun part hpart => ?_)
    obtain ⟨rest, hrest, hregular⟩ := hpart.exists_withoutNull
    rw [hrest]
    exact hregular.arrayOf
  | .head name =>
    obtain ⟨name, rfl⟩ := Json.isString_iff.1 htext
    exact LensOp.settles_of_revise (by simp)
      (LensOp.settles_redescribe h name .head fun part hpart => Schema.settles_headed hpart _)
  | .add property => exact LensOp.settles_of_revise (by simp) (LensOp.settles_add h htext htypes)
  | .remove property => exact LensOp.settles_of_revise (by simp) (LensOp.settles_remove h htext)
  | .inside name lens =>
    simp only [LensOp.isTextual, Bool.and_eq_true, Json.isString_iff] at htext
    obtain ⟨⟨name, rfl⟩, htext⟩ := htext
    exact LensOp.settles_of_revise (by simp)
      (LensOp.settles_redescribe h name .inside fun part hpart => Lens.settles lens hpart htext htypes)
  | .each lens => exact LensOp.settles_each h fun part hpart => Lens.settles lens hpart htext htypes
  | .convert name mapping source type =>
    obtain ⟨name, rfl⟩ := Json.isString_iff.1 htext
    exact LensOp.settles_of_revise (by simp)
      (LensOp.settles_redescribe h name .convert fun part hpart => Schema.settles_converted hpart)

private theorem Lens.settles (lens : Lens) {schema : Json} (h : Schema.Regular schema)
    (htext : lens.isTextual = true) (htypes : lens.namesTypes = true) :
    Settles lens.plungesItself Schema.Regular (Lens.follow schema lens).outcome := by
  match lens with
  | [] => exact h
  | op :: rest =>
    rw [Lens.isTextual, Bool.and_eq_true] at htext
    rw [Lens.namesTypes, Bool.and_eq_true] at htypes
    rw [Lens.follow, Noted.outcome_bind]
    have hop : Settles (Lens.plungesItself (op :: rest)) Schema.Regular (LensOp.follow schema op).outcome :=
      (LensOp.settles op h htext.1 htypes.1).mono fun hitself => by rw [Lens.plungesItself, hitself, Bool.true_or]
    refine hop.bind fun next hnext => (Lens.settles rest hnext htext.2 htypes.2).mono fun hrest => ?_
    rw [Lens.plungesItself, hrest, Bool.or_true]

end

/-- A lens leads from a schema whose keywords say what they are to say to such a schema, or is refused with a report
of the family of schemas, unless it puts a member into itself. -/
theorem Lens.follow_refuses {lens : Lens} {schema : Json} (h : Schema.Regular schema)
    (htext : lens.isTextual = true) (htypes : lens.namesTypes = true) :
    (∃ next, (Lens.follow schema lens).outcome = .ok next ∧ Schema.Regular next) ∨
      ∃ fault, (Lens.follow schema lens).outcome = .error fault ∧
        (fault.report?.map Prod.fst = some .schema ∨ fault = .absentMember ∧ lens.plungesItself = true) := by
  have hsettles := Lens.settles lens h htext htypes
  cases houtcome : (Lens.follow schema lens).outcome with
  | ok next =>
    rw [houtcome] at hsettles
    exact .inl ⟨next, rfl, hsettles⟩
  | error fault =>
    rw [houtcome] at hsettles
    exact .inr ⟨fault, rfl, hsettles⟩

/-- A described member that is put into itself is missing as its own host, which is not reported in words. -/
theorem Lens.follow_refuses_missing :
    let schema : Json := .obj [("properties", .obj [("x", .obj [("type", .str "string")])])]
    let lens : Lens := [.wrap (.str "x"), .plunge (.str "x") (.str "x")]
    (Schema.Regular schema ∧ lens.isTextual = true ∧ lens.namesTypes = true ∧
      (Lens.follow schema lens).outcome = .error .absentMember ∧ Fault.absentMember.report? = none) ∧
    ((∃ next, (Lens.follow schema lens).outcome = .ok next ∧ Schema.Regular next) ∨
      ∃ fault, (Lens.follow schema lens).outcome = .error fault ∧
        (fault.report?.map Prod.fst = some .schema ∨ fault = .absentMember ∧ lens.plungesItself = true)) := by
  intro schema lens
  have hschema : Schema.Regular schema := by
    refine .cons .empty rfl (.properties rfl (List.pairwise_singleton _ _) ?_ ?_)
    · exact List.forall_mem_singleton.2 ⟨"x", rfl⟩
    · exact List.forall_mem_singleton.2 (.typed _)
  exact ⟨⟨hschema, rfl, rfl, by cbv, rfl⟩, Lens.follow_refuses hschema rfl rfl⟩

end EditLens
