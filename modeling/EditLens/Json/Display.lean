import EditLens.Json.Basic
import EditLens.Text.Quoted

/-!
Values as messages show them: text in quotes, members in their order. The plain form of a value is
the same but for text, which stands as it is.
-/
namespace EditLens

namespace Scalar

def display : Scalar → String
  | .null => "None"
  | .bool true => "True"
  | .bool false => "False"
  | .int n => toString n
  | .float x => x.text
  | .str s => Text.quoted s

def plain : Scalar → String
  | .str s => s
  | s => s.display

end Scalar

namespace Json

mutual

def display : Json → String
  | .scalar s => s.display
  | .arr es => "[" ++ ", ".intercalate (displayElements es) ++ "]"
  | .obj ms => "\x7b" ++ ", ".intercalate (displayMembers ms) ++ "\x7d"

def displayElements : List Json → List String
  | [] => []
  | e :: rest => display e :: displayElements rest

def displayMembers : List (Scalar × Json) → List String
  | [] => []
  | (k, v) :: rest => (k.display ++ ": " ++ display v) :: displayMembers rest

end

def plain : Json → String
  | .scalar s => s.plain
  | v => v.display

/-- The entry of a value in a table of conversions: its JSON spelling for the constants, the whole
number for a number without a fractional part, and else its plain form. -/
def entry : Json → String
  | .null => "null"
  | .bool b => if b then "true" else "false"
  | .float x =>
    match x.integer? with
    | some n => toString n
    | none => x.text
  | v => v.plain

end Json

end EditLens
