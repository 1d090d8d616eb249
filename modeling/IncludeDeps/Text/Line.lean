/-!
# Lines of a text

A line ends at a line feed.  One carriage return right before that line feed
belongs to the line's end and not to the line.  What follows the last line
feed is a line of its own unless it is empty, and it keeps a carriage return
at its end.
-/

namespace IncludeDeps.Text

/-- The text without one carriage return at its end. -/
def dropReturn (line : List Char) : List Char :=
  if line.getLast? = some '\r' then line.dropLast else line

/-- The lines of a text, in order. -/
def lines (text : List Char) : List (List Char) :=
  let pieces := text.splitOn '\n'
  pieces.dropLast.map dropReturn ++ (pieces.getLast?.toList.filter fun line => !line.isEmpty)

@[simp] theorem lines_nil : lines [] = [] := rfl

end IncludeDeps.Text
