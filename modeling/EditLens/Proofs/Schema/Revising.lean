import EditLens.Proofs.Schema.Regular

/-! What a lens makes of a schema hangs on what the schema says about members, which are their descriptions and the
names of the required ones. Main statement: the schema after a lens without a lens for elements is the schema before,
with something said anew about members that is worked out from what was said about them alone. -/
namespace EditLens.Schema

variable {ms ns props : Members} {names : List Json} {name part : Json} {step : SchemaStep}

@[simp] theorem properties_withProperties : properties (withProperties ms props) = .ok props :=
  properties_of_get? (.inr (by simp [withProperties]))

@[simp] theorem required_withRequired : required (withRequired ms names) = .ok names :=
  required_of_get? (.inr (by simp [withRequired]))

@[simp] theorem properties_withRequired : properties (withRequired ms names) = properties ms := by
  rw [properties, properties, Members.valueOf, Members.valueOf, get?_withRequired names (by simp)]

@[simp] theorem required_withProperties : required (withProperties ms props) = required ms := by
  rw [required, required, Members.valueOf, Members.valueOf, get?_withProperties (by simp)]

@[simp] theorem withProperties_withProperties :
    withProperties (withProperties ms ns) props = withProperties ms props := Members.put_put

@[simp] theorem withRequired_withRequired {old : List Json} :
    withRequired (withRequired ms old) names = withRequired ms names := Members.put_put

@[simp] theorem withProperties_withRequired :
    withProperties (withRequired (withProperties ms ns) names) props =
      withRequired (withProperties ms props) names := by
  rw [withProperties, withRequired, Members.put_put_comm (by simp) (by simp [withProperties, Members.has]),
    ← withProperties, withProperties_withProperties, withRequired]

/-- What is described can be described in another way. -/
theorem exists_describe (h : described ms name step = .ok part) (other : Json) :
    ∃ ns, describe ms name other = .ok ns := by
  obtain ⟨props, hprops, h⟩ := Except.exists_of_bind h
  obtain ⟨key, hkey, -⟩ := Except.exists_of_bind h
  exact ⟨_, by rw [describe, hprops, Except.bind_ok, hkey]; rfl⟩

/-- The description that was put there last is found, and one put there later takes its place. -/
theorem described_of_describe (h : describe ms name part = .ok ns) :
    (∀ step, described ns name step = .ok part) ∧ ∀ other, describe ns name other = describe ms name other := by
  obtain ⟨props, hprops, h⟩ := Except.exists_of_bind h
  obtain ⟨key, hkey, h⟩ := Except.exists_of_bind h
  obtain rfl := Except.ok.inj h
  refine ⟨fun step => ?_, fun other => ?_⟩
  · rw [described, properties_withProperties, Except.bind_ok, hkey, Except.bind_ok, Members.get?_put_self]
    rfl
  · rw [describe, describe, properties_withProperties, hprops, hkey]
    simp [withProperties]

def replaced (names : List Json) (source destination : Json) : List Json :=
  names.map fun n => if n.same source then destination else n

structure Roster where
  properties : Except Fault Members
  required : Except Fault (List Json)

def roster (ms : Members) : Roster := ⟨properties ms, required ms⟩

inductive Revision where
  | none
  /-- The members are described anew. -/
  | described (props : Members)
  /-- They are, and which of them are required is said anew. -/
  | told (props : Members) (names : List Json)

namespace Revision

def write : Revision → Members → Members
  | none, ms => ms
  | described props, ms => withProperties ms props
  | told props names, ms => withRequired (withProperties ms props) names

def followedBy : Revision → Revision → Revision
  | first, none => first
  | told _ names, described props => told props names
  | _, described props => described props
  | _, told props names => told props names

end Revision

def Roster.after (said : Roster) : Revision → Roster
  | .none => said
  | .described props => ⟨.ok props, said.required⟩
  | .told props names => ⟨.ok props, .ok names⟩

@[simp] theorem roster_write (r : Revision) : roster (r.write ms) = (roster ms).after r := by
  cases r <;> simp [roster, Revision.write, Roster.after]

theorem Revision.write_followedBy (first second : Revision) :
    (first.followedBy second).write ms = second.write (first.write ms) := by
  cases second <;> cases first <;> simp [followedBy, write]

def redescribe (props : Members) (name : Json) (step : SchemaStep) (f : Json → Except Fault Json) :
    Except Fault Revision := do
  let key ← name.asKey
  match props.get? key with
  | some part => return .described (props.put key (← f part))
  | none => throw (.undescribed step name)

/-- A member taken out of the description of its host: its own description, whether it was required, and what is
left of the host. -/
def takenOut (host : Json) (hostName name : Json) : Except Fault (Json × Bool × Json) := do
  let ms ← host.asObject
  let props ← properties ms
  let key ← name.asKey
  match props.get? key with
  | none => throw (.undescribedIn hostName name)
  | some part =>
    let names ← required ms
    return (part, listed names name,
      .obj (withRequired (withProperties ms (props.without key)) (unlisted names name)))

/-- A member put into the description of its host. -/
def putInto (host part name : Json) (key : Scalar) (isRequired : Bool) : Except Fault Json := do
  let ms ← host.asObject
  let props ← properties ms
  let names ← required ms
  return .obj (withRequired (withProperties ms (props.put key part))
    (if isRequired then enlisted names name else names))

def headed (name part : Json) : Except Fault Json := do
  if !(← part.mentions "items") then
    if !(← part.lookup "type").isText "array" then throw (.notAnArray name)
  return nullable (elements (← part.asObject))

def converted (mapping : Mapping) (type part : Json) : Except Fault Json := do
  if !type.isNull then return .obj [("type", type)]
  let ms ← part.asMembers
  let recode (v : Json) : Json := (mapping.recode? v).getD v
  let ms ← match ms.get? "enum" with
    | some values => do pure (ms.put "enum" (.arr ((← values.asList).map recode)))
    | none => pure ms
  return .obj (match ms.get? "default" with
    | some value => ms.put "default" (recode value)
    | none => ms)

end EditLens.Schema

namespace EditLens

open Schema

/-- What an operation says anew about members. -/
def LensOp.revise (said : Roster) : LensOp → Except Fault Revision
  | .rename source destination => do
    let props ← said.properties
    let key ← source.asKey
    if !props.has key then return .none
    let props := renameKey props key (← destination.asKey)
    let names ← said.required
    return .told props (replaced names source destination)
  | .hoist host name => do
    let props ← said.properties
    let hostKey ← host.asKey
    match props.get? hostKey with
    | none => throw (.undescribed (.hoist name) host)
    | some outer =>
      let (part, isRequired, outer) ← takenOut outer host name
      let key ← name.asKey
      let names ← said.required
      return .told ((props.put hostKey outer).put key part) (if isRequired then enlisted names name else names)
  | .plunge host name => do
    let props ← said.properties
    let hostKey ← host.asKey
    if !props.has hostKey then throw (.undescribedHost host name)
    let key ← name.asKey
    match props.get? key with
    | none => return .none
    | some part =>
      let names ← said.required
      let outer ← putInto (← (props.without key).demand hostKey) part name key (listed names name)
      return .told ((props.without key).put hostKey outer) (unlisted names name)
  | .wrap name => do redescribe (← said.properties) name .wrap fun part => do return arrayOf (← withoutNull part)
  | .head name => do redescribe (← said.properties) name .head (headed name)
  | .add property => do
    if !property.name.truthy then throw .noName
    let props ← said.properties
    let description ← ofProperty property
    let key ← property.name.asKey
    let names ← said.required
    return .told (props.put key description)
      (if property.required = .bool false then names else enlisted names property.name)
  | .remove property => do
    let props ← said.properties
    let key ← property.name.asKey
    let names ← said.required
    return .told (props.without key) (unlisted names property.name)
  | .inside name lens => do
    redescribe (← said.properties) name .inside fun part => (Lens.follow part lens).outcome
  | .convert name mapping _ type => do redescribe (← said.properties) name .convert (converted mapping type)
  | .each _ => return .none

def Lens.revise (said : Roster) : Lens → Except Fault Revision
  | [] => return .none
  | op :: rest => do
    let first ← op.revise said
    return first.followedBy (← Lens.revise (said.after first) rest)

namespace LensOp

variable {ms : Members}

private theorem asObject_obj : (Json.obj ms).asObject = .ok ms := rfl

private theorem redescribe_eq (name : Json) (step : SchemaStep) (f : Json → Except Fault Json) : (do
      let part ← described ms name step
      return Json.obj (← describe ms name (← f part))) =
    (do redescribe (← (roster ms).properties) name step f).map fun r : Revision => .obj (r.write ms) := by
  simp only [described, describe, redescribe, roster]
  cases properties ms with
  | error fault => rfl
  | ok props =>
  cases name.asKey with
  | error fault => rfl
  | ok key =>
  simp only [Except.bind_ok]
  cases props.get? key with
  | none => rfl
  | some part =>
  simp only [pure, Except.pure, Except.bind_ok]
  cases f part <;> rfl

private theorem followFlat_rename_eq (source destination : Json) :
    (followFlat (.obj ms) (.rename source destination)).outcome =
      ((LensOp.rename source destination).revise (roster ms)).map fun r => .obj (r.write ms) := by
  unfold followFlat revise
  simp only [Json.asObject, Schema.rename, roster, Noted.outcome_bind, Noted.outcome_liftM, Except.bind_ok]
  cases properties ms with
  | error fault => rfl
  | ok props =>
  cases source.asKey with
  | error fault => rfl
  | ok key =>
  simp only [Except.bind_ok]
  cases props.has key with
  | false => rfl
  | true =>
  simp only [if_true, Bool.not_true, Bool.false_eq_true, if_false, Noted.outcome_bind, Noted.outcome_liftM]
  cases destination.asKey with
  | error fault => rfl
  | ok key' => cases required ms <;> rfl

private theorem followFlat_hoist_eq (host name : Json) :
    (followFlat (.obj ms) (.hoist host name)).outcome =
      ((LensOp.hoist host name).revise (roster ms)).map fun r => .obj (r.write ms) := by
  unfold followFlat revise
  simp only [Json.asObject, Schema.hoist, described, takenOut, roster, Noted.outcome_bind, Noted.outcome_liftM,
    Except.bind_ok]
  cases hprops : properties ms with
  | error fault => rfl
  | ok props =>
  cases hhost : host.asKey with
  | error fault => rfl
  | ok hostKey =>
  simp only [Except.bind_ok]
  cases props.get? hostKey with
  | none => rfl
  | some outer =>
  cases outer with
  | scalar s => rfl
  | arr es => rfl
  | obj outer =>
  simp only [pure, Except.pure, Except.bind_ok]
  cases properties outer with
  | error fault => rfl
  | ok inner =>
  cases hname : name.asKey with
  | error fault => rfl
  | ok key =>
  simp only [Except.bind_ok]
  cases inner.get? key with
  | none => rfl
  | some part =>
  simp only
  cases required outer with
  | error fault => rfl
  | ok names => cases required ms <;> rfl

private theorem followFlat_plunge_eq (host name : Json) :
    (followFlat (.obj ms) (.plunge host name)).outcome =
      ((LensOp.plunge host name).revise (roster ms)).map fun r => .obj (r.write ms) := by
  unfold followFlat revise
  simp only [Json.asObject, Schema.plunge, putInto, roster, Noted.outcome_bind, Noted.outcome_liftM, Except.bind_ok]
  cases properties ms with
  | error fault => rfl
  | ok props =>
  cases host.asKey with
  | error fault => rfl
  | ok hostKey =>
  simp only [Except.bind_ok]
  cases props.has hostKey with
  | false => rfl
  | true =>
  simp only [Bool.not_true, Bool.false_eq_true, if_false, Noted.outcome_bind, Noted.outcome_liftM]
  cases name.asKey with
  | error fault => rfl
  | ok key =>
  simp only [Except.bind_ok]
  cases props.get? key with
  | none => rfl
  | some part =>
  simp only [Noted.outcome_bind, Noted.outcome_liftM]
  cases required ms with
  | error fault => rfl
  | ok names =>
  simp only [Except.bind_ok]
  cases (props.without key).demand hostKey with
  | error fault => rfl
  | ok outer =>
  cases outer with
  | scalar s => rfl
  | arr es => rfl
  | obj outer =>
  simp only [Except.bind_ok]
  cases properties outer with
  | error fault => rfl
  | ok inner => cases required outer <;> rfl

private theorem followFlat_head_eq (name : Json) :
    (followFlat (.obj ms) (.head name)).outcome =
      ((LensOp.head name).revise (roster ms)).map fun r => .obj (r.write ms) := by
  refine Eq.trans ?_ (redescribe_eq _ _ _)
  unfold followFlat
  simp only [asObject_obj, Schema.head, headed, Noted.outcome_bind, Noted.outcome_liftM, Except.bind_ok, bind_assoc]
  congr 1
  funext part
  congr 1
  funext mentions
  cases mentions with
  | true =>
    simp only [Bool.not_true, Bool.false_eq_true, if_false, bind_assoc, pure_bind]
    rfl
  | false =>
    simp only [Bool.not_false, if_true, bind_assoc]
    congr 1
    funext type
    split
    · rfl
    · simp only [bind_assoc, pure_bind]
      rfl

private theorem followFlat_add_eq (property : Property) :
    (followFlat (.obj ms) (.add property)).outcome =
      ((LensOp.add property).revise (roster ms)).map fun r => .obj (r.write ms) := by
  unfold followFlat revise
  simp only [Json.asObject, Schema.add, roster, Noted.outcome_bind, Noted.outcome_liftM, Except.bind_ok]
  cases property.name.truthy with
  | false => rfl
  | true =>
  cases properties ms with
  | error fault => rfl
  | ok props =>
  cases ofProperty property with
  | error fault => rfl
  | ok description =>
  cases property.name.asKey with
  | error fault => rfl
  | ok key => cases required ms <;> rfl

private theorem followFlat_remove_eq (property : Property) :
    (followFlat (.obj ms) (.remove property)).outcome =
      ((LensOp.remove property).revise (roster ms)).map fun r => .obj (r.write ms) := by
  unfold followFlat revise
  simp only [Json.asObject, Schema.remove, roster, Noted.outcome_bind, Noted.outcome_liftM, Except.bind_ok]
  cases properties ms with
  | error fault => rfl
  | ok props =>
  cases property.name.asKey with
  | error fault => rfl
  | ok key =>
  simp only [Except.bind_ok]
  cases props.has key <;> simp only [Bool.not_true, Bool.not_false, Bool.false_eq_true, if_false, if_true,
    Noted.outcome_bind, Noted.outcome_note, Noted.outcome_liftM, Except.bind_ok] <;> cases required ms <;> rfl

private theorem followFlat_convert_eq (name : Json) (mapping : Mapping) (source type : Json) :
    (followFlat (.obj ms) (.convert name mapping source type)).outcome =
      ((LensOp.convert name mapping source type).revise (roster ms)).map fun r => .obj (r.write ms) := by
  refine Eq.trans ?_ (redescribe_eq _ _ _)
  unfold followFlat
  simp only [Json.asObject, Schema.convert, converted, Noted.outcome_bind, Noted.outcome_liftM, Except.bind_ok]
  cases described ms name .convert with
  | error fault => rfl
  | ok part =>
  simp only [Except.bind_ok]
  cases type.isNull with
  | false => rfl
  | true =>
    simp only [Bool.not_true, Bool.false_eq_true, if_false, bind_assoc, pure_bind]
    congr 1
    funext recoded
    cases recoded.get? "enum" with
    | none => rfl
    | some values =>
      simp only [bind_assoc, pure_bind]
      rfl

theorem outcome_follow_eq {op : LensOp} (heach : ∀ lens, op ≠ .each lens) (ms : Members) :
    (LensOp.follow (.obj ms) op).outcome = (op.revise (roster ms)).map fun r => .obj (r.write ms) := by
  cases op with
  | rename source destination => exact followFlat_rename_eq source destination
  | hoist host name => exact followFlat_hoist_eq host name
  | plunge host name => exact followFlat_plunge_eq host name
  | wrap name =>
    rw [revise, ← redescribe_eq]
    simp only [LensOp.follow, followFlat, Json.asObject, Schema.wrap, Noted.outcome_bind, Noted.outcome_liftM,
      Except.bind_ok, bind_assoc, pure_bind]
    rfl
  | head name => exact followFlat_head_eq name
  | add property => exact followFlat_add_eq property
  | remove property => exact followFlat_remove_eq property
  | inside name lens =>
    rw [revise, ← redescribe_eq]
    simp only [LensOp.follow, Noted.outcome_bind, Noted.outcome_liftM]
    rfl
  | convert name mapping source type => exact followFlat_convert_eq name mapping source type
  | each lens => exact absurd rfl (heach lens)

end LensOp

/-- What a lens makes of a schema hangs on what the schema says about members alone. -/
theorem Lens.outcome_follow_eq {lens : Lens} (heach : ∀ inner, .each inner ∉ lens) (ms : Members) :
    (Lens.follow (.obj ms) lens).outcome = (lens.revise (roster ms)).map fun r => .obj (r.write ms) := by
  induction lens generalizing ms with
  | nil => rfl
  | cons op rest ih =>
    have hop : ∀ inner, op ≠ .each inner := fun inner h => heach inner (h ▸ List.mem_cons_self)
    rw [Lens.follow, Noted.outcome_bind, LensOp.outcome_follow_eq hop, Lens.revise]
    cases op.revise (roster ms) with
    | error fault => rfl
    | ok first =>
    simp only [Except.map, Except.bind_ok, ih (fun inner h => heach inner (List.mem_cons_of_mem _ h)), roster_write]
    cases Lens.revise ((roster ms).after first) rest with
    | error fault => rfl
    | ok second => exact congrArg (fun ns => Except.ok (Json.obj ns)) (first.write_followedBy second).symm

end EditLens
