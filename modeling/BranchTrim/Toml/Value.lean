/-!
Values of TOML documents.
-/

set_option autoImplicit false

namespace BranchTrim.Toml

/-- A value. Numbers with a fraction, dates and times are kept in their notation. -/
inductive Value where
  | string (text : String)
  | boolean (value : Bool)
  | integer (value : Int)
  | float (text : String)
  | datetime (text : String)
  | array (items : List Value)
  | table (entries : List (List String × Value))

def booleanText (value : Bool) : String :=
  if value then "true" else "false"

/-- The notation of a text that holds no quote, no backslash and no control character. -/
def quotedText (text : String) : String :=
  "\"" ++ text ++ "\""

end BranchTrim.Toml
