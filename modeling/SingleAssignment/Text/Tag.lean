import SingleAssignment.Text.Quoted

/-!
# Tags

A tag is what the owner of a program attaches to an instruction.  Conversion never looks at tags;
only the graph description prints them.  `Tag` is a ready-made choice: a text, a whole number, or
nothing at all.
-/

namespace SingleAssignment

/-- A text, a whole number, or nothing. -/
inductive Tag where
  | text (value : String)
  | number (value : Int)
  | unit
  deriving DecidableEq, Repr

/-- How a tag is shown: texts in quotes, numbers in decimal, nothing as `()`. -/
def Tag.describe : Tag → String
  | .text s => Text.quoted s
  | .number n => toString n
  | .unit => "()"

end SingleAssignment
