import EditLens.Json.Display
import EditLens.Json.Equality
import EditLens.Text.Shorten

/-!
The reasons for which reading a lens, carrying a patch, following a schema or editing a document
stops, and the wording of those that are reported in words.
-/
namespace EditLens

/-- The families of the faults that are reported in words; the first one holds all the others. -/
inductive Family where
  | lens
  | mapping
  | operation
  | source
  | schema
  deriving DecidableEq, Repr

def Family.title : Family → String
  | .lens => "LensException"
  | .mapping => "NoMappingException"
  | .operation => "UnknownLensOpException"
  | .source => "LensSourceException"
  | .schema => "SchemaException"

def Family.report (family : Family) (message : String) : String := family.title ++ ": " ++ message

inductive SchemaStep where
  | hoist (name : Json)
  | wrap
  | head
  | inside
  | convert
  deriving DecidableEq

inductive Request where
  | carry
  | reverse
  | follow
  deriving DecidableEq

inductive Fault where
  /-- A convert table has no entry for the value with this key. -/
  | unmapped (key : String)
  /-- Lens data names an operation that there is not. -/
  | unknownOperation (tag : Scalar)
  /-- A value that is no lens operation was to be run. -/
  | notAnOperation (value : Json)
  /-- An operation without a kind was asked for something. -/
  | undefinedRequest (request : Request)
  | notOperationData (data : Json)
  | ambiguousData (data : Json)
  | badFields (tag : String) (fields : Members)
  | notAMapping (value : Json)
  | noLensEntry
  | notALens (data : Json)
  /-- The schema does not describe the property that a step is about. -/
  | undescribed (step : SchemaStep) (name : Json)
  | undescribedIn (host name : Json)
  | undescribedHost (host name : Json)
  | noName
  | noType
  | noDefault (type : Json)
  | notAnArray (name : Json)
  | noElements
  /-- A path is no JSON pointer, or leads nowhere in a document. -/
  | badPointer
  /-- An operation of a patch does not fit the document. -/
  | conflict
  /-- An operation of a patch is about a member or an element that is not there. -/
  | absentTarget
  /-- An operation of a patch makes no sense for any document. -/
  | invalidOperation
  /-- A text is no JSON value. -/
  | malformedText
  /-- A member that has to be there is not. -/
  | absentMember
  /-- A value is of a kind that the step cannot take. -/
  | wrongKind
  /-- A value is of the right kind but has the wrong number of parts. -/
  | wrongShape
  /-- A value whose members were asked for is no object. -/
  | notAnObject
  /-- A check did not hold. -/
  | failedCheck (message : String)
  deriving DecidableEq

def Request.text : Request → String
  | .carry => "how to rewrite patches"
  | .reverse => "a reverse"
  | .follow => "how to update a schema"

def SchemaStep.text : SchemaStep → String
  | .hoist name => "hoist '" ++ name.plain ++ "' out of"
  | .wrap => "wrap"
  | .head => "head"
  | .inside => "go into"
  | .convert => "convert"

namespace Fault

/-- The family and the wording of a fault that is reported in words. -/
def report? : Fault → Option (Family × String)
  | unmapped key => some (.mapping, "No mapping for value: " ++ Text.shorten key 40)
  | unknownOperation tag => some (.operation, "Unknown lens operation: " ++ tag.display)
  | notAnOperation value => some (.operation, "Unexpected lens operation: " ++ value.display)
  | undefinedRequest request => some (.operation, "LensOp() does not define " ++ request.text)
  | notOperationData data =>
    some (.source, "Expected a lens operation, not " ++ data.display)
  | ambiguousData data =>
    some (.source, "Cannot tell which lens operation " ++ data.display ++ " is")
  | badFields tag fields =>
    some (.source, "Bad fields for a " ++ tag ++ " lens: " ++ (Json.obj fields).display)
  | notAMapping value =>
    some (.source, "A convert mapping must be a [forward, backward] pair, not " ++ value.display)
  | noLensEntry => some (.source, "Expected a 'lens' entry in the lens data.")
  | notALens data => some (.source, "Expected a list of lens operations, not " ++ data.display)
  | undescribed step name =>
    some (.schema, "Cannot " ++ step.text ++ " '" ++ name.plain ++
      "': the schema has no such property")
  | undescribedIn host name =>
    some (.schema, "Cannot hoist '" ++ name.plain ++ "': '" ++ host.plain ++
      "' has no such property")
  | undescribedHost host name =>
    some (.schema, "Cannot plunge '" ++ name.plain ++ "' into '" ++ host.plain ++
      "': no such property")
  | noName => some (.schema, "Missing property name when adding a property")
  | noType => some (.schema, "A property needs a type or a default value")
  | noDefault type => some (.schema, "No default value for the type " ++ type.display)
  | notAnArray name =>
    some (.schema, "Cannot head '" ++ name.plain ++ "': it is not described as an array")
  | noElements => some (.schema, "Cannot map over a schema which does not describe an array")
  | _ => none

end Fault

end EditLens
