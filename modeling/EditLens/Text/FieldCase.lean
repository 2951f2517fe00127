import EditLens.Text.LetterCase

/-!
Field names in the two spellings of lens data: words joined by underscores, and words told apart by
their capitals.
-/
namespace EditLens.Text

def snakeCase (name : String) : String :=
  .ofList (name.toList.flatMap fun c => if isUpper c then '_' :: lower c else [c])

def splitAt (separator : Char) : List Char → List (List Char)
  | [] => [[]]
  | c :: rest =>
    match splitAt separator rest with
    | part :: parts => if c = separator then [] :: part :: parts else (c :: part) :: parts
    | [] => [[c]]

/-- The first word as it is, and the others in title case without their underscores. -/
def camelCase (name : String) : String :=
  match splitAt '_' name.toList with
  | first :: rest => .ofList (first ++ rest.flatMap titled)
  | [] => name

end EditLens.Text
