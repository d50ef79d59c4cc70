import Lowering.Digits
import Lowering.Json.Value

/-!
# Reading JSON text

Text is read in two passes, each a recursion on its input: characters are gathered into tokens by a
small automaton, and tokens into a value by a stack of unfinished arrays and objects.
-/

namespace Lowering.Json

inductive Token where
  | openArray
  | closeArray
  | openObject
  | closeObject
  | colon
  | comma
  | scalar (value : Json)

/-- A piece of a string: a character, or a code unit written as an escape. -/
inductive Piece where
  | char (c : Char)
  | unit (value : Nat)

def isHighSurrogate (unit : Nat) : Bool := 0xD800 ≤ unit && unit < 0xDC00

def isLowSurrogate (unit : Nat) : Bool := 0xDC00 ≤ unit && unit < 0xE000

/-- The characters of a string; code units above the basic plane have to come in pairs. -/
def joinPieces? : List Piece → Option (List Char)
  | [] => some []
  | .char c :: rest => (joinPieces? rest).map (c :: ·)
  | .unit high :: .unit low :: rest =>
      if isHighSurrogate high then
        if isLowSurrogate low then
          let code := 0x10000 + (high - 0xD800) * 0x400 + (low - 0xDC00)
          (joinPieces? rest).map (Char.ofNat code :: ·)
        else none
      else if isLowSurrogate high then none
      else (joinPieces? (.unit low :: rest)).map (Char.ofNat high :: ·)
  | .unit code :: rest =>
      if isHighSurrogate code || isLowSurrogate code then none
      else (joinPieces? rest).map (Char.ofNat code :: ·)

/-- The value of a string token. -/
def ofPieces (pieces : List Piece) : Json :=
  match joinPieces? pieces with
  | some chars => str (String.ofList chars)
  | none => noise

/-- The number written by decimal digits. -/
def ofDigits (digits : List Char) : Nat :=
  digits.foldl (fun n c => 10 * n + (c.toNat - '0'.toNat)) 0

/-- Is it a nonempty run of digits? -/
def isDigits (chars : List Char) : Bool := !chars.isEmpty && chars.all Char.isDigit

/-- Is it an integer part: digits without a superfluous leading zero? -/
def isIntegerPart (chars : List Char) : Bool :=
  isDigits chars && (chars.length == 1 || chars.head? != some '0')

/-- Is it what may follow the mark of an exponent? -/
def isExponent (chars : List Char) : Bool :=
  match chars with
  | '+' :: digits | '-' :: digits => isDigits digits
  | digits => isDigits digits

def isExponentMark (c : Char) : Bool := c == 'e' || c == 'E'

/-- Is it a fraction, an exponent, or a fraction and an exponent? -/
def isNumberTail (chars : List Char) : Bool :=
  match chars with
  | '.' :: rest =>
      isDigits (rest.takeWhile Char.isDigit) &&
        match rest.dropWhile Char.isDigit with
        | [] => true
        | c :: exponent => isExponentMark c && isExponent exponent
  | c :: exponent => isExponentMark c && isExponent exponent
  | [] => false

/-- The number a word denotes. -/
def number? (word : List Char) : Option Json :=
  let (negative, digits) := match word with
    | '-' :: rest => (true, rest)
    | _ => (false, word)
  let whole := digits.takeWhile Char.isDigit
  let tail := digits.dropWhile Char.isDigit
  if !isIntegerPart whole then none
  else if tail.isEmpty then
    let n := ofDigits whole
    if negative then some (if n = 0 then noise else int (-(Int.ofNat n))) else some (nat n)
  else if isNumberTail tail then some noise
  else none

/-- The scalar a bare word denotes. -/
def word? (word : List Char) : Option Json :=
  if word = "null".toList then some null
  else if word = "true".toList then some (bool true)
  else if word = "false".toList then some (bool false)
  else number? word

/-- What the automaton is in the middle of; gathered characters are in reverse. -/
inductive Mode where
  | between
  | word (gathered : List Char)
  | text (gathered : List Piece)
  | escape (gathered : List Piece)
  | unit (gathered : List Piece) (digits : Nat) (value : Nat)

def isWordChar (c : Char) : Bool := c.isAlphanum || c == '-' || c == '+' || c == '.'

/-- The token of a single character. -/
def mark? : Char → Option Token
  | '[' => some .openArray
  | ']' => some .closeArray
  | '\x7b' => some .openObject
  | '\x7d' => some .closeObject
  | ':' => some .colon
  | ',' => some .comma
  | _ => none

def isBlank (c : Char) : Bool := c == ' ' || c == '\n' || c == '\t' || c == '\r'

/-- The character that a one-letter escape stands for. -/
def escaped? : Char → Option Char
  | '"' => some '"'
  | '\\' => some '\\'
  | '/' => some '/'
  | 'b' => some '\x08'
  | 'f' => some '\x0c'
  | 'n' => some '\n'
  | 'r' => some '\r'
  | 't' => some '\t'
  | _ => none

/-- One character outside words and strings: the mode after it and the token it makes. -/
def outside? (c : Char) : Option (Mode × List Token) :=
  if isBlank c then some (.between, [])
  else if c == '"' then some (.text [], [])
  else if isWordChar c then some (.word [c], [])
  else (mark? c).map fun token => (.between, [token])

/-- One character: the mode after it and the tokens it completes. -/
def advance? : Mode → Char → Option (Mode × List Token)
  | .between, c => outside? c
  | .word gathered, c =>
      if isWordChar c then some (.word (c :: gathered), [])
      else do
        let value ← word? gathered.reverse
        let (mode, tokens) ← outside? c
        some (mode, .scalar value :: tokens)
  | .text gathered, c =>
      if c == '"' then some (.between, [.scalar (ofPieces gathered.reverse)])
      else if c == '\\' then some (.escape gathered, [])
      else if c.toNat < 0x20 then none
      else some (.text (.char c :: gathered), [])
  | .escape gathered, c =>
      if c == 'u' then some (.unit gathered 0 0, [])
      else (escaped? c).map fun meant => (.text (.char meant :: gathered), [])
  | .unit gathered digits value, c =>
      (Digits.value? c).map fun digit =>
        let value := 16 * value + digit
        if digits = 3 then (.text (.unit value :: gathered), [])
        else (.unit gathered (digits + 1) value, [])

/-- The tokens of a text read in a given mode. -/
def tokensFrom? (mode : Mode) : List Char → Option (List Token)
  | [] =>
      match mode with
      | .between => some []
      | .word gathered => (word? gathered.reverse).map fun value => [.scalar value]
      | _ => none
  | c :: rest => do
      let (mode, tokens) ← advance? mode c
      let later ← tokensFrom? mode rest
      some (tokens ++ later)

def tokens? (text : String) : Option (List Token) := tokensFrom? .between text.toList

/-- An array or object under construction; what it holds so far is in reverse. -/
inductive Frame where
  | items (gathered : List Json)
  | members (gathered : List (String × Json)) (key : String)

/-- What may come next. -/
inductive Expect where
  | value
  | firstItem
  | firstKey
  | key
  | colon
  | separator

/-- A value under construction, or the whole value. -/
inductive Building where
  | open (frames : List Frame) (expect : Expect)
  | done (value : Json)

/-- Puts a finished value where it belongs. -/
def deliver (value : Json) : List Frame → Building
  | [] => .done value
  | .items gathered :: frames => .open (.items (value :: gathered) :: frames) .separator
  | .members gathered key :: frames =>
      .open (.members ((key, value) :: gathered) key :: frames) .separator

/-- Starts a value. -/
def begin? (frames : List Frame) : Token → Option Building
  | .openArray => some (.open (.items [] :: frames) .firstItem)
  | .openObject => some (.open (.members [] "" :: frames) .firstKey)
  | .scalar value => some (deliver value frames)
  | _ => none

/-- Takes a key into the innermost object. -/
def takeKey? (frames : List Frame) : Token → Option Building
  | .scalar (.str key) =>
      match frames with
      | .members gathered _ :: outer => some (.open (.members gathered key :: outer) .colon)
      | _ => none
  | _ => none

/-- Ends or continues the innermost array or object. -/
def separate? : List Frame → Token → Option Building
  | .items gathered :: frames, .closeArray => some (deliver (.arr gathered.reverse) frames)
  | .items gathered :: frames, .comma => some (.open (.items gathered :: frames) .value)
  | .members gathered _ :: frames, .closeObject =>
      some (deliver (.obj gathered.reverse) frames)
  | .members gathered key :: frames, .comma =>
      some (.open (.members gathered key :: frames) .key)
  | _, _ => none

def build? (building : Building) (token : Token) : Option Building :=
  match building with
  | .done _ => none
  | .open frames .value => begin? frames token
  | .open frames .firstItem =>
      match token with
      | .closeArray => separate? frames token
      | _ => begin? frames token
  | .open frames .firstKey =>
      match token with
      | .closeObject => separate? frames token
      | _ => takeKey? frames token
  | .open frames .key => takeKey? frames token
  | .open frames .colon =>
      match token with
      | .colon => some (.open frames .value)
      | _ => none
  | .open frames .separator => separate? frames token

/-- The value of a text that holds one value and blanks. -/
def parse? (text : String) : Option Json := do
  let tokens ← tokens? text
  match ← tokens.foldlM build? (.open [] .value) with
  | .done value => some value
  | .open _ _ => none

end Lowering.Json
