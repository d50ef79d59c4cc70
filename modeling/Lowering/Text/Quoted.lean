import Lowering.Text.Printable

/-!
# Quoted text

A text between double quotes, with escapes for quotes, backslashes and characters that cannot be
shown.
-/

namespace Lowering.Text

/-- An escape by code in lowercase hexadecimal digits. -/
def codeEscape (c : Char) : List Char :=
  "\\u\x7b".toList ++ Nat.toDigits 16 c.toNat ++ ['\x7d']

/-- A character inside quotes. -/
def quotedChar (c : Char) : List Char :=
  match c with
  | '"' => ['\\', '"']
  | '\\' => ['\\', '\\']
  | '\t' => ['\\', 't']
  | '\n' => ['\\', 'n']
  | '\r' => ['\\', 'r']
  | '\x00' => ['\\', '0']
  | _ => if isPrintable c then [c] else codeEscape c

def quoted (text : String) : String :=
  String.ofList ('"' :: text.toList.flatMap quotedChar ++ ['"'])

end Lowering.Text
