import Backtrack.Text.SpelledOut

/-!
# Escapes — characters written between quotes

Two styles of quoted text are used in reports: the one of data interchange, in which only the
characters below U+0020 are spelled out, and the one of inspection, in which every character is that
cannot be seen by itself.
-/

namespace Backtrack.Text

/-- The code point in lower-case hexadecimal, with zeros in front up to `width` digits. -/
def hex (width : Nat) (c : Char) : String :=
  let digits := Nat.toDigits 16 c.toNat
  String.ofList (List.replicate (width - digits.length) '0' ++ digits)

/-- A character of a text in data style. -/
def dataChar (c : Char) : String :=
  match c with
  | '"'    => "\\\""
  | '\\'   => "\\\\"
  | '\x08' => "\\b"
  | '\x0c' => "\\f"
  | '\n'   => "\\n"
  | '\x0d' => "\\r"
  | '\t'   => "\\t"
  | c      => if c.toNat < 0x20 then "\\u" ++ hex 4 c else c.toString

/-- A text in data style, with its quotes. -/
def dataText (s : String) : String :=
  "\"" ++ String.join (s.toList.map dataChar) ++ "\""

/-- A character in inspection style, inside the given quotes. Only the quote in use is escaped. -/
def inspectChar (quote c : Char) : String :=
  match c with
  | '\x00' => "\\0"
  | '\t'   => "\\t"
  | '\x0d' => "\\r"
  | '\n'   => "\\n"
  | '\\'   => "\\\\"
  | c      =>
      if c = quote then "\\" ++ c.toString
      else if isSpelledOut c then "\\u\x7b" ++ hex 1 c ++ "\x7d"
      else c.toString

/-- A single character in inspection style, with its quotes. -/
def inspectSymbol (c : Char) : String :=
  "'" ++ inspectChar '\'' c ++ "'"

/-- A text in inspection style, with its quotes. -/
def inspectText (s : String) : String :=
  "\"" ++ String.join (s.toList.map (inspectChar '"')) ++ "\""

end Backtrack.Text
