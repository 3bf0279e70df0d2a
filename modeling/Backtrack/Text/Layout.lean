/-!
# Layouts — nested text on one line or on many

A layout is a text made of atoms, labelled parts and bracketed lists. It can be written on one line,
with commas between the parts, or over many lines, one part a line.
-/

namespace Backtrack.Text

/-- A nested text. -/
inductive Layout where
  /-- Text that is never broken. -/
  | atom (text : String)
  /-- A part with its name in front. -/
  | labelled (label : String) (part : Layout)
  /-- Parts between brackets; on one line `pad` stands inside the brackets. -/
  | block (opening pad closing : String) (parts : List Layout)

namespace Layout

mutual

/-- The text on one line. -/
def plain : Layout → String
  | atom text                       => text
  | labelled label part             => label ++ ": " ++ part.plain
  | block opening _ closing []      => opening ++ closing
  | block opening pad closing (p :: ps) =>
      opening ++ pad ++ p.plain ++ plainRest ps ++ pad ++ closing

/-- The parts behind the first one, on one line. -/
def plainRest : List Layout → String
  | []      => ""
  | p :: ps => ", " ++ p.plain ++ plainRest ps

end

/-- The blanks in front of a line `depth` levels down. -/
def indent (depth : Nat) : String :=
  String.ofList (List.replicate (4 * depth) ' ')

mutual

/-- The text over many lines; it stands `depth` levels down. -/
def pretty (depth : Nat) : Layout → String
  | atom text                  => text
  | labelled label part        => label ++ ": " ++ part.pretty depth
  | block opening _ closing [] => opening ++ closing
  | block opening _ closing (p :: ps) =>
      opening ++ "\n" ++ prettyLines (depth + 1) (p :: ps) ++ indent depth ++ closing

/-- The parts of a block, each on its own line. -/
def prettyLines (depth : Nat) : List Layout → String
  | []      => ""
  | p :: ps => indent depth ++ p.pretty depth ++ ",\n" ++ prettyLines depth ps

end

/-- A record: its name, then its fields in braces. -/
def record (name : String) (fields : List (String × Layout)) : Layout :=
  block (name ++ " \x7b") " " "\x7d" (fields.map fun (label, part) => labelled label part)

/-- A list in square brackets. -/
def list (parts : List Layout) : Layout :=
  block "[" "" "]" parts

/-- A name applied to parts in parentheses; without a name, a tuple. -/
def apply (name : String) (parts : List Layout) : Layout :=
  block (name ++ "(") "" ")" parts

end Layout

end Backtrack.Text
