import EditLens.Proofs.Lens.Growing
import EditLens.Proofs.Schema.Blank
import EditLens.Proofs.Schema.Legible

/-! Filling in defaults by going down a value and its schema at once. Main statement: the additions that write a
value, with those of the defaults among them, make the value so completed, or fail as completing it fails. -/
namespace EditLens

open EditLens.Tree Function

def Members.collect (f : Scalar × Json → Except Fault (Option Json)) : Members → Except Fault Members
  | [] => .ok []
  | m :: rest => do
    match ← f m with
    | some v => return (m.1, v) :: (← collect f rest)
    | none => collect f rest

namespace Schema

def blanks (schema : Json) : Except Fault Members :=
  match _hm : memberSchemas schema with
  | .error fault => .error fault
  | .ok [] => .ok []
  | .ok (first :: others) =>
    Members.collect
      (fun m => do
        match ← memberDefault m.2 with
        | none => return none
        | some value =>
          if value = .emptyObject then
            match _hb : below schema m.1.plain with
            | .error fault => .error fault
            | .ok part => return some (.obj (← blanks part))
          else return some value)
      (first :: others)
termination_by schema.weight
decreasing_by exact below_weight_lt _hm _hb

def blankMember (schema : Json) (m : Scalar × Json) : Except Fault (Option Json) := do
  match ← memberDefault m.2 with
  | none => return none
  | some value =>
    if value = .emptyObject then return some (.obj (← blanks (← below schema m.1.plain)))
    else return some value

theorem blanks_eq (schema : Json) :
    blanks schema = (do Members.collect (blankMember schema) (← memberSchemas schema)) := by
  rw [blanks]
  split
  · rename_i fault h
    rw [h]
    rfl
  · rename_i h
    rw [h]
    rfl
  · rename_i first others h
    rw [h, Except.bind_ok]
    congr 1
    funext m
    unfold blankMember
    congr 1
    funext found
    cases found with
    | none => rfl
    | some value =>
      dsimp only
      split
      · split
        · rename_i fault hb
          rw [hb]
          rfl
        · rename_i part hb
          rw [hb]
          rfl
      · rfl

mutual

/-- A value with the members that its objects have by default put under those that they have. -/
def complete (schema : Json) : Json → Except Fault Json
  | .scalar s => .ok (.scalar s)
  | .arr es => do return .arr (← completeElements (← container schema) 0 es)
  | .obj ms => do
    let whole ← container schema
    let given ← blanks whole
    return .obj (given.putAll (← completeMembers whole ms))

def completeElements (schema : Json) (i : Nat) : List Json → Except Fault (List Json)
  | [] => .ok []
  | e :: rest => do
    let e ← complete (← step schema i.repr) e
    return e :: (← completeElements schema (i + 1) rest)

def completeMembers (schema : Json) : List (Scalar × Json) → Except Fault Members
  | [] => .ok []
  | (k, v) :: rest => do
    let v ← complete (← step schema k.plain) v
    return (k, v) :: (← completeMembers schema rest)

end

end Schema

namespace Tree

/-- The first addition makes a value without its parts, and the others make the whole value of it. -/
inductive Completes (path : Path) (start : Json) : Except Fault Json → Except Fault Patch → Prop
  | ok {v : Json} {ps : Patch} (below : Below path ps start.tree v.tree) (document : v.isDocument = true) :
    Completes path start (.ok v) (.ok (.add path start :: ps))
  | error {types : Json} {fault : Fault} (h : Schema.defaultOfType types = .error fault) :
    Completes path start (.error fault) (.error fault)

inductive Sets (path : Path) (f : String → Option Tree) (name : String) :
    Except Fault (Option Json) → Except Fault Patch → Prop
  | none : Sets path f name (.ok none) (.ok [])
  | some {v : Json} {ps : Patch} (below : Below path ps (.obj f) (.obj (update f name (some v.tree))))
    (document : v.isDocument = true) : Sets path f name (.ok (some v)) (.ok ps)
  | error {types : Json} {fault : Fault} (h : Schema.defaultOfType types = .error fault) :
    Sets path f name (.error fault) (.error fault)

inductive Puts (path : Path) (f : String → Option Tree) (named : Members) :
    Except Fault Members → Except Fault Patch → Prop
  | ok {ms : Members} {ps : Patch} (below : Below path ps (.obj f) (.obj fun name => (ms.trees name).or (f name)))
    (document : ms.AreDocument) (names : ∀ name : String, named.get? name = none → ms.get? name = none) :
    Puts path f named (.ok ms) (.ok ps)
  | error {types : Json} {fault : Fault} (h : Schema.defaultOfType types = .error fault) :
    Puts path f named (.error fault) (.error fault)

inductive Appends (path : Path) (done : List Tree) : Except Fault (List Json) → Except Fault Patch → Prop
  | ok {es : List Json} {ps : Patch} (below : Below path ps (.arr done) (.arr (done ++ es.map Json.tree)))
    (documents : ∀ e ∈ es, e.isDocument = true) : Appends path done (.ok es) (.ok ps)
  | error {types : Json} {fault : Fault} (h : Schema.defaultOfType types = .error fault) :
    Appends path done (.error fault) (.error fault)

section Steps

variable {path : Path} {name : String} {start : Json} {f : String → Option Tree} {done : List Tree}
  {result : Except Fault Json} {patch : Except Fault Patch} {named : Members} {k : Scalar} {v : Json}

private theorem Completes.sets (h : Completes (path ++ [name]) start result patch) (hstart : start.isDocument = true) :
    Sets path f name (result.map some) patch := by
  cases h with
  | error h => exact .error h
  | ok below document =>
    refine .some (.cons (PatchOp.edits_add _ _) (by simp) hstart rfl ?_) document
    exact below.lift (by simp) (IsContext.member f name)

private theorem Puts.nil : Puts path f named (.ok []) (.ok []) :=
  .ok (.nil _) .nil fun _ _ => rfl

private theorem Puts.cons {rest : Except Fault Members} {others : Except Fault Patch}
    {value : Except Fault (Option Json)}
    (h : Sets path f name value patch) (hnew : named.get? name = none)
    (hrest : ∀ f, Puts path f named rest others) : Puts path f ((.str name, v) :: named)
      (do
        match ← value with
        | some w => return (.str name, w) :: (← rest)
        | none => rest)
      (do return (← patch) ++ (← others)) := by
  have hnamed : ∀ other : String, Members.get? ((.str name, v) :: named) other = none →
      other ≠ name ∧ named.get? other = none := by
    intro other hother
    rw [Members.get?_cons] at hother
    split at hother
    · cases hother
    · rename_i hne
      exact ⟨by simpa [eq_comm] using hne, hother⟩
  cases h with
  | error h => exact .error h
  | none =>
    have hrest := hrest f
    generalize rest = result, others = patches at hrest
    cases hrest with
    | error h => exact .error h
    | ok below document names =>
      exact .ok below document fun other hother => names other (hnamed other hother).2
  | @some w ps below document =>
    have hrest := hrest (update f name (some w.tree))
    generalize rest = result, others = patches at hrest
    cases hrest with
    | error h => exact .error h
    | @ok ms qs below' document' names =>
      refine .ok ?_ (document'.cons (names name hnew) document) fun other hother => ?_
      · convert below.append below' using 2
        funext other
        rw [Members.trees_cons]
        by_cases hother : other = name
        · subst hother
          simp [Members.trees, names other hnew]
        · simp [hother]
      · obtain ⟨hne, hother⟩ := hnamed other hother
        rw [Members.get?_cons, if_neg (by simpa [eq_comm] using hne)]
        exact names other hother

private theorem Appends.nil : Appends path done (.ok []) (.ok []) := by
  refine .ok ?_ (by simp)
  rw [List.map_nil, List.append_nil]
  exact .nil _

private theorem Appends.cons {rest : Except Fault (List Json)} {others : Except Fault Patch}
    (h : Completes (path ++ [done.length.repr]) start result patch) (hstart : start.isDocument = true)
    (hrest : ∀ t, Appends path (done ++ [t]) rest others) :
    Appends path done (do return (← result) :: (← rest)) (do return (← patch) ++ (← others)) := by
  cases h with
  | error h => exact .error h
  | @ok w ps below document =>
    have hrest := hrest w.tree
    generalize rest = result, others = patches at hrest
    cases hrest with
    | error h => exact .error h
    | ok below' documents =>
      refine .ok ?_ (List.forall_mem_cons.2 ⟨document, documents⟩)
      have hlast := IsContext.last done
      have hfirst := Below.cons (PatchOp.edits_add _ _) (by simp) hstart (hlast.write start.tree)
        (below.lift (by simp) hlast)
      rw [List.map_cons, List.append_cons done]
      exact hfirst.append below'

end Steps

end Tree

namespace Schema

/-- What fills a member in makes the value that it has by default. -/
private theorem sets_fillMember {schema property : Json} {name : String} (h : Legible schema)
    (hproperty : property.isObject = true → Legible property)
    (ih : ∀ part, Schema.below schema name = .ok part → Legible part → ∀ path,
      Completes path .emptyObject (do return .obj (← blanks part))
        (do return .add path .emptyObject :: (← (fill path part).outcome)))
    (path : Path) (f : String → Option Tree) : Sets path f name (blankMember schema (.str name, property))
      (fillMember path schema (.str name, property)).outcome := by
  rw [blankMember, fillMember]
  rcases memberDefault_cases hproperty with ⟨o, ho, hdocument⟩ | ⟨types, fault, htype, hfault⟩
  · cases o with
    | none =>
      simp only [ho, Except.bind_ok, Noted.outcome_bind, Noted.outcome_liftM]
      exact .none
    | some v =>
      simp only [ho, Except.bind_ok, Noted.outcome_bind, Noted.outcome_liftM]
      by_cases hv : v = .emptyObject
      · obtain ⟨part, hpart, hlegible⟩ := h.below_eq name
        have hpart' : Schema.below schema (Scalar.str name).plain = .ok part := hpart
        have hsets := (ih part hpart hlegible (path ++ [name])).sets (f := f) rfl
        subst hv
        simp only [if_true, hpart', Except.bind_ok, Noted.outcome_bind, Noted.outcome_liftM, outcome_noteFilled]
        convert hsets using 1
        · cases blanks part <;> rfl
        · rfl
      · rw [if_neg hv, if_neg hv]
        exact .some (.cons (PatchOp.edits_add _ _) (by simp) (hdocument v rfl) rfl (.nil _)) (hdocument v rfl)
  · simp only [hfault, Noted.outcome_bind, Noted.outcome_liftM]
    exact .error htype

/-- What fills an object in makes the members that it has by default. -/
theorem completes_fill {schema : Json} (h : Legible schema) (path : Path) :
    Completes path .emptyObject (do return .obj (← blanks schema))
      (do return .add path .emptyObject :: (← (fill path schema).outcome)) := by
  induction hn : schema.weight using Nat.strong_induction_on generalizing schema path with
  | _ n ih =>
  subst hn
  obtain ⟨props, hprops, hparts⟩ := h.memberSchemas_eq
  have hmember : ∀ name : String, ∀ property, props ≠ [] → (property.isObject = true → Legible property) →
      ∀ f, Sets path f name (blankMember schema (.str name, property))
        (fillMember path schema (.str name, property)).outcome := by
    intro name property hne hproperty
    refine sets_fillMember h hproperty (fun part hpart hlegible path => ?_) path
    cases props with
    | nil => exact absurd rfl hne
    | cons m rest => exact ih _ (below_weight_lt hprops hpart) hlegible path rfl
  have hputs : ∀ f, Puts path f props (Members.collect (blankMember schema) props)
      (Noted.gather (fillMember path schema) props).outcome := by
    clear hprops
    induction props with
    | nil => exact fun f => .nil
    | cons m rest ihrest =>
      obtain ⟨k, property⟩ := m
      obtain ⟨name, rfl, hnew, hproperty, hrest⟩ := Members.areOf_cons.1 hparts
      intro f
      have hputs := Puts.cons (v := property) (hmember name property (by simp) hproperty f) hnew
        (ihrest hrest fun name property hne => hmember name property (by simp))
      rw [Members.collect, Noted.gather, Noted.outcome_bind]
      simp only [Noted.outcome_bind]
      convert hputs using 1
      rfl
  have hputs := hputs fun _ => none
  rw [blanks_eq, fill_eq, hprops, Except.bind_ok]
  simp only [Noted.outcome_bind, Noted.outcome_liftM, Except.bind_ok]
  generalize Members.collect _ props = members, (Noted.gather _ props).outcome = patch at hputs
  cases hputs with
  | error htype => exact .error htype
  | ok below document =>
    refine .ok ?_ (Json.isDocument_obj.2 document)
    rw [show Json.emptyObject.tree = .obj fun _ => none from Json.tree_obj [], Json.tree_obj]
    simpa using below

theorem outcome_filledOp_add (written v : Json) (path : Path) :
    (filledOp written (.add path v)).outcome = if v = .emptyObject then (do
      return .add path v :: (← (fill path (← locate written path)).outcome)) else .ok [.add path v] := by
  have hp := PatchOp.edits_add path v
  by_cases hv : v = .emptyObject
  · subst hv
    rw [if_pos rfl]
    exact outcome_filledOp_of_makesObject written (makesObject_add path .emptyObject) hp.path
  · rw [if_neg hv]
    exact outcome_filledOp_of_ne written hp (by simpa [Edit.written?] using hv)

mutual

/-- The steps that write a value, with the defaults among them, write the completed value. -/
theorem completes_steps (written v : Json) (hv : v.isDocument = true) {path : Path} {schema : Json}
    (h : Legible schema) (hat : ∀ rest, locate written (path ++ rest) = locate schema rest) :
    Completes path v.hollow (complete schema v) (filled written (Write.add.steps path v)).outcome := by
  obtain ⟨whole, hwhole, hlegible⟩ := h.container_eq
  have hbelow : ∀ token rest, locate written (path ++ token :: rest) = (do locate (← step whole token) rest) :=
    fun token rest => by rw [hat, locate, hwhole, Except.bind_ok]
  match v with
  | .scalar s =>
    have hfilled := outcome_filledOp_add written (.scalar s) path
    rw [if_neg (by simp [Json.emptyObject])] at hfilled
    rw [Write.steps, outcome_filled_cons, show (Write.add.toOp path (.scalar s)) = .add path (.scalar s) from rfl,
      hfilled]
    exact .ok (.nil _) rfl
  | .arr es =>
    have hes := appends_elementSteps written es (Json.isDocument_arr.1 hv) hlegible hbelow []
    have hfilled := outcome_filledOp_add written (.arr []) path
    rw [if_neg (by simp [Json.emptyObject])] at hfilled
    rw [Write.steps, outcome_filled_cons, complete, hwhole, Except.bind_ok,
      show (Write.add.toOp path (.arr [])) = .add path (.arr []) from rfl, hfilled, Except.bind_ok]
    rw [List.length_nil] at hes
    generalize completeElements whole 0 es = elements, (filled written _).outcome = patch at hes
    cases hes with
    | error htype => exact .error htype
    | ok below documents =>
      refine .ok ?_ (Json.isDocument_arr.2 documents)
      rw [Json.hollow, Json.tree_arr, Json.tree_arr]
      exact below
  | .obj ms =>
    have hms := puts_memberSteps written ms (Json.isDocument_obj.1 hv) hlegible hbelow
    have hfilled := outcome_filledOp_add written .emptyObject path
    have hlocate : locate written path = .ok whole := by
      have := hat []
      rwa [List.append_nil, locate, hwhole] at this
    rw [if_pos rfl, hlocate, Except.bind_ok] at hfilled
    rw [Write.steps, outcome_filled_cons, complete, hwhole, Except.bind_ok,
      show (Write.add.toOp path (.obj [])) = .add path .emptyObject from rfl, hfilled]
    have hblank := completes_fill hlegible path
    cases hgiven : blanks whole with
    | error fault =>
      rw [hgiven] at hblank
      generalize (do return PatchOp.add path Json.emptyObject :: (← (fill path whole).outcome)) = patch at hblank ⊢
      cases hblank with
      | error htype => exact .error htype
    | ok given =>
      rw [hgiven] at hblank
      generalize (do return PatchOp.add path Json.emptyObject :: (← (fill path whole).outcome)) = patch at hblank ⊢
      cases hblank with
      | @ok _ fillings below document =>
      have hms := hms given.trees
      generalize completeMembers whole ms = members, (filled written _).outcome = patch at hms
      cases hms with
      | error htype => exact .error htype
      | ok below' document' =>
        refine .ok (below.append ?_) (Json.isDocument_obj.2 ((Json.isDocument_obj.1 document).putAll document'))
        rw [Json.tree_obj, Json.tree_obj]
        convert below' using 2
        funext name
        exact document'.trees_putAll name

theorem appends_elementSteps (written : Json) (es : List Json) (hes : ∀ e ∈ es, e.isDocument = true) {path : Path}
    {schema : Json} (h : Legible schema)
    (hat : ∀ token rest, locate written (path ++ token :: rest) = (do locate (← step schema token) rest))
    (done : List Tree) : Appends path done (completeElements schema done.length es)
      (filled written (Write.add.elementSteps path done.length es)).outcome := by
  match es with
  | [] => exact .nil
  | e :: rest =>
    rw [List.forall_mem_cons] at hes
    obtain ⟨part, hpart, hlegible⟩ := h.step_eq done.length.repr
    have hthere : ∀ rest, locate written (path ++ [done.length.repr] ++ rest) = locate part rest := fun rest => by
      rw [List.append_assoc, List.singleton_append, hat, hpart, Except.bind_ok]
    have hfirst := completes_steps written e hes.1 hlegible hthere
    have hrest : ∀ t, Appends path (done ++ [t]) (completeElements schema (done.length + 1) rest)
        (filled written (Write.add.elementSteps path (done.length + 1) rest)).outcome := fun t => by
      have := appends_elementSteps written rest hes.2 h hat (done ++ [t])
      rwa [List.length_append] at this
    rw [Write.elementSteps, outcome_filled_append, completeElements, hpart, Except.bind_ok]
    exact .cons hfirst (Json.isDocument_of_isHollow (Json.isHollow_hollow e)) hrest

theorem puts_memberSteps (written : Json) (ms : List (Scalar × Json)) (hms : Members.AreDocument ms) {path : Path}
    {schema : Json} (h : Legible schema)
    (hat : ∀ token rest, locate written (path ++ token :: rest) = (do locate (← step schema token) rest))
    (f : String → Option Tree) : Puts path f ms (completeMembers schema ms)
      (filled written (Write.add.memberSteps path ms)).outcome := by
  match ms with
  | [] => exact .nil
  | (k, v) :: rest =>
    obtain ⟨name, rfl, hnew, hv, hrest⟩ := Members.areOf_cons.1 hms
    obtain ⟨part, hpart, hlegible⟩ := h.step_eq name
    have hthere : ∀ rest, locate written (path ++ [name] ++ rest) = locate part rest := fun rest => by
      rw [List.append_assoc, List.singleton_append, hat, hpart, Except.bind_ok]
    have hfirst := completes_steps written v hv hlegible hthere
    have hputs := Puts.cons (v := v)
      (hfirst.sets (f := f) (Json.isDocument_of_isHollow (Json.isHollow_hollow v))) hnew
      fun f => puts_memberSteps written rest hrest h hat f
    have hpart' : step schema (Scalar.str name).plain = .ok part := hpart
    rw [Write.memberSteps, outcome_filled_append, completeMembers, hpart', Except.bind_ok]
    convert hputs using 1
    · cases complete part v <;> rfl
    · rfl

end

/-- The completed members have the names that they had. -/
theorem areOf_completeMembers {schema : Json} {ms own : Members} (hms : ms.AreDocument)
    (h : completeMembers schema ms = .ok own) : own.AreOf fun _ => True := by
  have hkeys : own.map Prod.fst = ms.map Prod.fst := by
    clear hms
    induction ms generalizing own with
    | nil =>
      obtain rfl := Except.ok.inj h
      rfl
    | cons m rest ih =>
      obtain ⟨k, v⟩ := m
      rw [completeMembers] at h
      obtain ⟨part, -, h⟩ := Except.exists_of_bind h
      obtain ⟨w, -, h⟩ := Except.exists_of_bind h
      obtain ⟨others, hothers, h⟩ := Except.exists_of_bind h
      obtain rfl := Except.ok.inj h
      rw [List.map_cons, List.map_cons, ih hothers]
  have hmem : ∀ m ∈ own, ∃ n ∈ ms, n.1 = m.1 := fun m hm => by
    have := List.mem_map_of_mem (f := Prod.fst) hm
    rwa [hkeys, List.mem_map] at this
  refine ⟨?_, fun m hm => ?_, fun _ _ => trivial⟩
  · have hdistinct := hms.distinct
    rw [Members.Distinct,
      ← List.pairwise_map (f := Prod.fst) (R := fun k k' => Scalar.same k k' = false)] at hdistinct ⊢
    rwa [hkeys]
  · obtain ⟨n, hn, heq⟩ := hmem m hm
    rw [← heq]
    exact hms.text n hn

mutual

/-- What a value has is there in the completed value. -/
theorem part_complete (v : Json) (hv : v.isDocument = true) {schema w : Json} (h : complete schema v = .ok w) :
    Part v.tree w.tree := by
  match v with
  | .scalar s =>
    obtain rfl := Except.ok.inj h
    exact .scalar s
  | .arr es =>
    rw [complete] at h
    obtain ⟨whole, -, h⟩ := Except.exists_of_bind h
    obtain ⟨ws, hws, h⟩ := Except.exists_of_bind h
    obtain rfl := Except.ok.inj h
    rw [Json.tree_arr, Json.tree_arr]
    exact .arr (partElements_complete es (Json.isDocument_arr.1 hv) hws)
  | .obj ms =>
    rw [complete] at h
    obtain ⟨whole, -, h⟩ := Except.exists_of_bind h
    obtain ⟨given, -, h⟩ := Except.exists_of_bind h
    obtain ⟨own, hown, h⟩ := Except.exists_of_bind h
    obtain rfl := Except.ok.inj h
    have hms := Json.isDocument_obj.1 hv
    rw [Json.tree_obj, Json.tree_obj]
    refine .obj fun name => ?_
    rw [(areOf_completeMembers hms hown).trees_putAll]
    have hpart := partMembers_complete ms hms hown name
    generalize Members.trees ms name = old, own.trees name = new at hpart
    cases hpart with
    | absent => exact .absent _
    | present hpart => exact .present hpart

theorem partElements_complete (es : List Json) (hes : ∀ e ∈ es, e.isDocument = true) {schema : Json} {i : Nat}
    {ws : List Json} (h : completeElements schema i es = .ok ws) :
    PartElements (es.map Json.tree) (ws.map Json.tree) := by
  match es with
  | [] => exact .nil _
  | e :: rest =>
    rw [completeElements] at h
    obtain ⟨part, -, h⟩ := Except.exists_of_bind h
    obtain ⟨w, hw, h⟩ := Except.exists_of_bind h
    obtain ⟨others, hothers, h⟩ := Except.exists_of_bind h
    obtain rfl := Except.ok.inj h
    rw [List.forall_mem_cons] at hes
    exact .cons (part_complete e hes.1 hw) (partElements_complete rest hes.2 hothers)

theorem partMembers_complete (ms : List (Scalar × Json)) (hms : Members.AreDocument ms) {schema : Json}
    {own : Members} (h : completeMembers schema ms = .ok own) (name : String) :
    PartMember (Members.trees ms name) (own.trees name) := by
  match ms with
  | [] => exact .absent _
  | (k, v) :: rest =>
    obtain ⟨first, rfl, -, hv, hrest⟩ := Members.areOf_cons.1 hms
    rw [completeMembers] at h
    obtain ⟨part, -, h⟩ := Except.exists_of_bind h
    obtain ⟨w, hw, h⟩ := Except.exists_of_bind h
    obtain ⟨others, hothers, h⟩ := Except.exists_of_bind h
    obtain rfl := Except.ok.inj h
    rw [Members.trees_cons, Members.trees_cons]
    by_cases hname : name = first
    · subst hname
      rw [update_self, update_self]
      exact .present (part_complete v hv hw)
    · rw [update_of_ne hname, update_of_ne hname]
      exact partMembers_complete rest hrest hothers name

end

end Schema

end EditLens
