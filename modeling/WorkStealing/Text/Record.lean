/-!
# Records as text

How the library writes a value for a reader: a record as its name and its
fields between braces, an optional value by the word `None` or inside `Some`.
-/

namespace WorkStealing
namespace Text

/-- A record is its name, then its fields in order between braces. -/
def record (name : String) (fields : List (String × String)) : String :=
  name ++ " \x7b " ++ ", ".intercalate (fields.map fun field => field.1 ++ ": " ++ field.2) ++
    " \x7d"

def optional : Option String → String
  | none => "None"
  | some text => "Some(" ++ text ++ ")"

def truth (value : Bool) : String :=
  if value then "true" else "false"

end Text
end WorkStealing
