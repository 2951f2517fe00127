import EditLens.Json.Access

/-! Checks that stop with a message if they do not hold. -/
namespace EditLens

def check (condition message : Json) : Except Fault Unit :=
  if condition.truthy then .ok ()
  else .error (.failedCheck (message.orElse (.str "")).plain)

def checkSame (got expected : Json) : Except Fault Unit :=
  check (.bool (got.same expected))
    (.str ("Expected >>>" ++ expected.plain ++ "<<< but got >>>" ++ got.plain ++ "<<<"))

end EditLens
