import IncludeDeps.Graph.Basic

/-!
# Graphs as JSON

A graph is written as one object that maps each source to the array of its
prerequisites, with two spaces for each level of nesting.  Strings escape the
quote, the backslash and the controls, and nothing else.
-/

namespace IncludeDeps.Graph.Json

/-- The digit of a number below sixteen. -/
def hexDigit (n : Nat) : Char :=
  Nat.digitChar n

/-- The written form of one character of a JSON string. -/
def escaped (c : Char) : List Char :=
  if c = '"' then ['\\', '"']
  else if c = '\\' then ['\\', '\\']
  else if c = '\x08' then ['\\', 'b']
  else if c = '\x0C' then ['\\', 'f']
  else if c = '\n' then ['\\', 'n']
  else if c = '\r' then ['\\', 'r']
  else if c = '\t' then ['\\', 't']
  else if c.toNat < 0x20 then
    ['\\', 'u', '0', '0', hexDigit (c.toNat / 16), hexDigit (c.toNat % 16)]
  else [c]

/-- A JSON string. -/
def string (text : String) : String :=
  String.ofList ('"' :: (text.toList.flatMap escaped ++ ['"']))

/-- Members between brackets, each on a line of its own and indented one level
more than the closing bracket. -/
def block (opening closing : String) (indent : String) (members : List String) : String :=
  if members.isEmpty then opening ++ closing
  else
    opening ++ "\n" ++ ",\n".intercalate (members.map fun member => indent ++ "  " ++ member) ++
      "\n" ++ indent ++ closing

/-- The array of the prerequisites of a source. -/
def array (prerequisites : Prerequisites) : String :=
  block "[" "]" "  " (prerequisites.paths.map string)

/-- A source with its prerequisites. -/
def member (entry : String × Prerequisites) : String :=
  string entry.1 ++ ": " ++ array entry.2

end Json

/-- The graph as a JSON text, without a line end at its end. -/
def json (graph : Graph) : String :=
  Json.block "\x7b" "\x7d" "" (graph.entries.map Json.member)

end IncludeDeps.Graph
