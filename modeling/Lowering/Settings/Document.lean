import Lowering.Digits

/-!
# Settings files

A settings file is a flat document in TOML: on each line one key with a truth value or an integer,
a comment, or nothing.  Tables, arrays, texts, dates and fractions belong to no setting, so a
document that has one is refused as a whole.
-/

namespace Lowering.Settings

inductive Value where
  | bool (value : Bool)
  | int (value : Int)
deriving DecidableEq, Repr

namespace Document

def isBlank (c : Char) : Bool := c == ' ' || c == '\t'

/-- Control characters other than the tab stand nowhere in a line. -/
def isControl (c : Char) : Bool := (c.toNat < 0x20 && c != '\t') || c.toNat == 0x7f

def isBareKeyChar (c : Char) : Bool := c.isAlphanum || c == '_' || c == '-'

/-- The character with a given code, written as hexadecimal digits. -/
def coded? (digits : List Char) : Option Char :=
  (Digits.number? 16 digits).bind fun code =>
    if code.isValidChar then some (Char.ofNat code) else none

/-- The character that a one-letter escape stands for. -/
def escaped? : Char → Option Char
  | '"' => some '"'
  | '\\' => some '\\'
  | 'b' => some '\x08'
  | 'f' => some '\x0c'
  | 'n' => some '\n'
  | 'r' => some '\r'
  | 't' => some '\t'
  | _ => none

/-- The rest of a key in double quotes, and what follows the closing quote. -/
def quotedKey? : List Char → Option (List Char × List Char)
  | '"' :: rest => some ([], rest)
  | '\\' :: 'u' :: a :: b :: c :: d :: rest => do
      let meant ← coded? [a, b, c, d]
      let (key, rest) ← quotedKey? rest
      some (meant :: key, rest)
  | '\\' :: 'U' :: a :: b :: c :: d :: e :: f :: g :: h :: rest => do
      let meant ← coded? [a, b, c, d, e, f, g, h]
      let (key, rest) ← quotedKey? rest
      some (meant :: key, rest)
  | '\\' :: c :: rest => do
      let meant ← escaped? c
      let (key, rest) ← quotedKey? rest
      some (meant :: key, rest)
  | c :: rest => do
      let (key, rest) ← quotedKey? rest
      some (c :: key, rest)
  | [] => none

/-- A key and what follows it. -/
def key? (line : List Char) : Option (List Char × List Char) :=
  match line with
  | '"' :: rest => quotedKey? rest
  | '\'' :: rest =>
      match rest.dropWhile (· != '\'') with
      | _ :: after => some (rest.takeWhile (· != '\''), after)
      | [] => none
  | _ =>
      let key := line.takeWhile isBareKeyChar
      if key.isEmpty then none else some (key, line.dropWhile isBareKeyChar)

/-- A decimal number without a superfluous leading zero. -/
def decimal? (word : List Char) : Option Nat :=
  (Digits.ungrouped? word).bind fun digits =>
    if 1 < digits.length && digits.head? == some '0' then none else Digits.number? 10 digits

/-- A number after the mark of its base. -/
def based? (base : Nat) (word : List Char) : Option Nat :=
  (Digits.ungrouped? word).bind (Digits.number? base)

def int? (word : List Char) : Option Int :=
  match word with
  | '0' :: 'x' :: digits => (based? 16 digits).map Int.ofNat
  | '0' :: 'o' :: digits => (based? 8 digits).map Int.ofNat
  | '0' :: 'b' :: digits => (based? 2 digits).map Int.ofNat
  | '+' :: digits => (decimal? digits).map Int.ofNat
  | '-' :: digits => (decimal? digits).map fun n => -(Int.ofNat n)
  | digits => (decimal? digits).map Int.ofNat

/-- An integer of 64 bits. -/
def word64? (word : List Char) : Option Int :=
  (int? word).filter fun n => -9223372036854775808 ≤ n && n ≤ 9223372036854775807

def value? (word : List Char) : Option Value :=
  if word = "true".toList then some (.bool true)
  else if word = "false".toList then some (.bool false)
  else (word64? word).map .int

/-- Nothing but blanks and perhaps a comment. -/
def isTrailing (line : List Char) : Bool :=
  match line.dropWhile isBlank with
  | [] => true
  | c :: _ => c == '#'

/-- Does a value end before the character? -/
def endsValue (c : Char) : Bool := isBlank c || c == '#'

/-- The setting of a line. -/
def setting? (line : List Char) : Option (String × Value) := do
  let (key, rest) ← key? line
  let '=' :: rest := rest.dropWhile isBlank | none
  let rest := rest.dropWhile isBlank
  let value ← value? (rest.takeWhile (!endsValue ·))
  if isTrailing (rest.dropWhile (!endsValue ·)) then some (String.ofList key, value) else none

/-- The settings of a line, at most one. -/
def line? (line : List Char) : Option (List (String × Value)) :=
  if line.any isControl then none
  else if isTrailing line then some []
  else (setting? (line.dropWhile isBlank)).map fun setting => [setting]

/-- A line without the carriage return that may end it. -/
def withoutReturn (line : List Char) : List Char :=
  match line.getLast? with
  | some '\r' => line.dropLast
  | _ => line

/-- The lines of a text.  A line feed ends a line, with or without a carriage return before it; the
end of the text ends the last line. -/
def lines (text : String) : List (List Char) :=
  let parts := (text.splitOn "\n").map String.toList
  parts.dropLast.map withoutReturn ++ parts.getLast?.toList

/-- A text without the byte order mark that may start it. -/
def withoutMark (text : String) : String :=
  match text.toList with
  | '\ufeff' :: rest => String.ofList rest
  | _ => text

/-- The settings of a document in order. -/
def parse? (text : String) : Option (List (String × Value)) :=
  ((lines (withoutMark text)).mapM line?).map List.flatten

end Document

end Lowering.Settings
