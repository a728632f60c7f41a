/-
The notation of summaries: the name of a part, then its fields by name in braces. Two dots stand
for fields that are left out.
-/
namespace Micro8051.Text

/-- A truth value in words. -/
def truth (b : Bool) : String := if b then "true" else "false"

/-- A field: its name and the text of its value. -/
def field (f : String × String) : String := f.1 ++ ": " ++ f.2

/-- A named part with all of its fields. -/
def fields (name : String) (parts : List (String × String)) : String :=
  name ++ " \x7b " ++ ", ".intercalate (parts.map field) ++ " \x7d"

/-- A named part with some of its fields. -/
def someFields (name : String) (parts : List (String × String)) : String :=
  name ++ " \x7b " ++ ", ".intercalate (parts.map field ++ [".."]) ++ " \x7d"

end Micro8051.Text
