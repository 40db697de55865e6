import PauliAlgebra.Text.CharacterClass

/-!
# Quoted characters

A message shows a character between single quotes. Quotes, backslashes and the usual
control characters are escaped by a letter, and any other character that cannot be
seen by itself by its code point.
-/

namespace PauliAlgebra.Text

/-- A character by its code point in lower-case hexadecimal. -/
def codePointEscape (character : Char) : String :=
  "\\u\x7b" ++ .ofList (Nat.toDigits 16 character.toNat) ++ "\x7d"

/-- A character as it stands between single quotes. -/
def escape (character : Char) : String :=
  match character with
  | '\x00' => "\\0"
  | '\t' => "\\t"
  | '\r' => "\\r"
  | '\n' => "\\n"
  | '\x27' => "\\'"
  | '\\' => "\\\\"
  | _ =>
      if invisible.contains character || extending.contains character then
        codePointEscape character
      else character.toString

/-- A character between single quotes. -/
def quoted (character : Char) : String :=
  "'" ++ escape character ++ "'"

end PauliAlgebra.Text
