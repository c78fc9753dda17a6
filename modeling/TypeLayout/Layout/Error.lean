/-!
# Errors of the layout

Why the requested types cannot be laid out.
-/

namespace TypeLayout

/-- What is wrong with the requested types. -/
inductive LayoutError where
  /-- Names that are unknown or never completely defined, as they are spelled. -/
  | missingKeys (names : List String)
  /-- A function type is reachable. -/
  | poisonedFunction (name : String)
  /-- A struct without fields or a union without members is reachable. -/
  | emptyType (name : String)
deriving DecidableEq, Repr

/-- The text of an error. -/
def LayoutError.message : LayoutError → String
  | missingKeys names => "Undefined key types: " ++ String.intercalate ", " names
  | poisonedFunction name => name ++ " contains a function, which cannot be described"
  | emptyType name => name ++ " has no fields"

end TypeLayout
