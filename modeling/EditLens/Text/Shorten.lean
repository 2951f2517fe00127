/-! Texts cut to a length for display. -/
namespace EditLens.Text

def shortLength : Int := 10

/-- The text up to a length, marked if something is left out. A negative length leaves out so many
characters at the end. -/
def shorten (text : String) (length : Int) : String :=
  if (text.length : Int) ≤ length then text
  else
    let kept := if length < 0 then (text.length : Int) + length else length
    .ofList (text.toList.take kept.toNat) ++ "..."

end EditLens.Text
