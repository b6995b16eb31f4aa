import FormulaEngine.Text.Unprintable

/-! A character between single quotes. The quote, the backslash and the common
controls have short escapes; what would not show is written by its code point in
hexadecimal. -/

namespace FormulaEngine.Text

/-- The character as it stands between the quotes. -/
def escaped (c : Char) : List Char :=
  match c with
  | '\x00' => ['\\', '0']
  | '\t' => ['\\', 't']
  | '\r' => ['\\', 'r']
  | '\n' => ['\\', 'n']
  | '\\' => ['\\', '\\']
  | '\'' => ['\\', '\'']
  | _ =>
    if isUnprintable c then ['\\', 'u', '\x7b'] ++ Nat.toDigits 16 c.toNat ++ ['\x7d'] else [c]

def quoted (c : Char) : String := String.ofList ('\'' :: escaped c ++ ['\''])

end FormulaEngine.Text
