import LeafStore.Json.Numeral
import LeafStore.Text.Hex
/-!
Tokens of JSON texts. The text is read one character at a time; what a token needs to remember
until it ends is the state between two characters.
-/
namespace LeafStore.Json

inductive Token where
  | openArray
  | closeArray
  | openObject
  | closeObject
  | colon
  | comma
  | null
  | bool (value : Bool)
  | number (numeral : Numeral)
  /-- Text; `paired` tells that each escaped surrogate belongs to a pair. -/
  | text (value : String) (paired : Bool)
  deriving DecidableEq

def isBlank (c : Char) : Bool :=
  c = ' ' || c = '\t' || c = '\n' || c = '\r'

def isWordChar (c : Char) : Bool :=
  c.isAlphanum || c = '-' || c = '+' || c = '.'

def punctuation? : Char → Option Token
  | '[' => some .openArray
  | ']' => some .closeArray
  | '\x7b' => some .openObject
  | '\x7d' => some .closeObject
  | ':' => some .colon
  | ',' => some .comma
  | _ => none

def wordToken? (word : List Char) : Option Token :=
  if word = "null".toList then some .null
  else if word = "true".toList then some (.bool true)
  else if word = "false".toList then some (.bool false)
  else (Numeral.read word).map .number

/-! Text is gathered as code units, so that two escapes may stand for one character. -/

def isHighSurrogate (unit : Nat) : Bool := 0xd800 ≤ unit && unit < 0xdc00

def isLowSurrogate (unit : Nat) : Bool := 0xdc00 ≤ unit && unit < 0xe000

def joinPair (high low : Nat) : Char :=
  Char.ofNat (0x10000 + (high - 0xd800) * 0x400 + (low - 0xdc00))

/-- The characters of a list of units; a surrogate outside a pair becomes U+FFFD. -/
def unitsText : List Nat → List Char
  | high :: low :: rest =>
    if isHighSurrogate high && isLowSurrogate low then joinPair high low :: unitsText rest
    else if isHighSurrogate high || isLowSurrogate high then '\ufffd' :: unitsText (low :: rest)
    else Char.ofNat high :: unitsText (low :: rest)
  | [unit] =>
    if isHighSurrogate unit || isLowSurrogate unit then ['\ufffd'] else [Char.ofNat unit]
  | [] => []

def unitsPaired : List Nat → Bool
  | high :: low :: rest =>
    if isHighSurrogate high && isLowSurrogate low then unitsPaired rest
    else !(isHighSurrogate high || isLowSurrogate high) && unitsPaired (low :: rest)
  | [unit] => !(isHighSurrogate unit || isLowSurrogate unit)
  | [] => true

def unitsToken (newestFirst : List Nat) : Token :=
  let units := newestFirst.reverse
  .text (String.ofList (unitsText units)) (unitsPaired units)

def escapedUnit? : Char → Option Nat
  | '"' => some 0x22
  | '\\' => some 0x5c
  | '/' => some 0x2f
  | 'b' => some 0x08
  | 'f' => some 0x0c
  | 'n' => some 0x0a
  | 'r' => some 0x0d
  | 't' => some 0x09
  | _ => none

/-- What has been read of a token that has not ended. Lists are newest first. -/
inductive Pending where
  | nothing
  | word (chars : List Char)
  | text (units : List Nat)
  | escape (units : List Nat)
  /-- Four hexadecimal digits, of which `missing + 1` are still to come. -/
  | code (units : List Nat) (value : Nat) (missing : Nat)
  deriving DecidableEq

namespace Pending

def start (c : Char) : Option (Pending × List Token) :=
  if isBlank c then some (.nothing, [])
  else if c = '"' then some (.text [], [])
  else if isWordChar c then some (.word [c], [])
  else (punctuation? c).map fun token => (.nothing, [token])

def step (pending : Pending) (c : Char) : Option (Pending × List Token) :=
  match pending with
  | .nothing => start c
  | .word chars =>
    if isWordChar c then some (.word (c :: chars), [])
    else do
      let token ← wordToken? chars.reverse
      let (pending, tokens) ← start c
      pure (pending, token :: tokens)
  | .text units =>
    if c = '"' then some (.nothing, [unitsToken units])
    else if c = '\\' then some (.escape units, [])
    else if c.toNat < 0x20 then none
    else some (.text (c.toNat :: units), [])
  | .escape units =>
    if c = 'u' then some (.code units 0 3, [])
    else (escapedUnit? c).map fun unit => (.text (unit :: units), [])
  | .code units value missing => do
    let digit ← Text.hexValue? c
    let value := 16 * value + digit
    match missing with
    | 0 => pure (.text (value :: units), [])
    | missing + 1 => pure (.code units value missing, [])

def finish : Pending → Option (List Token)
  | .nothing => some []
  | .word chars => (wordToken? chars.reverse).map ([·])
  | _ => none

end Pending

end LeafStore.Json
