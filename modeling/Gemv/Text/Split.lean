import Gemv.Text.Blank

/-! Texts in pieces: fields between separators, and lines. -/
namespace Gemv.Text

/-- The maximal runs of characters that do not separate. -/
def fields (separates : Char → Bool) (cs : List Char) : List (List Char) :=
  (cs.splitOnP separates).filter (!·.isEmpty)

/-- The text without a carriage return at its end. -/
def dropReturn (cs : List Char) : List Char :=
  if cs.getLast? = some '\r' then cs.dropLast else cs

/-- The lines of a text. A line feed ends a line, along with a carriage return before it; the last
line needs none. -/
def lines (cs : List Char) : List (List Char) :=
  let segments := cs.splitOnP (· == '\n')
  let last := segments.getLastD []
  segments.dropLast.map dropReturn ++ (if last.isEmpty then [] else [last])

end Gemv.Text
