import LeafStore.Double.Layout
import LeafStore.Json
import LeafStore.Text.Hex
/-!
Compact JSON texts: no white space, members in the order of the value, and escapes only where
JSON demands them.
-/
namespace LeafStore.Json

def escapedChar (c : Char) : List Char :=
  match c with
  | '"' => ['\\', '"']
  | '\\' => ['\\', '\\']
  | '\n' => ['\\', 'n']
  | '\t' => ['\\', 't']
  | '\r' => ['\\', 'r']
  | '\x08' => ['\\', 'b']
  | '\x0c' => ['\\', 'f']
  | _ =>
    if c.toNat < 0x20 then
      ['\\', 'u', '0', '0', Text.hexDigit (c.toNat / 16), Text.hexDigit (c.toNat % 16)]
    else [c]

def quotedText (s : String) : List Char :=
  '"' :: s.toList.flatMap escapedChar ++ ['"']

def integerText (n : Int) : List Char :=
  (if n < 0 then ['-'] else []) ++ Nat.toDigits 10 n.natAbs

mutual

def print : Json → List Char
  | .null => "null".toList
  | .bool true => "true".toList
  | .bool false => "false".toList
  | .int n => integerText n
  | .float d => d.text .json
  | .text s => quotedText s
  | .array [] => ['[', ']']
  | .array (item :: rest) => '[' :: item.print ++ printItems rest
  | .object [] => ['\x7b', '\x7d']
  | .object ((name, member) :: rest) =>
    '\x7b' :: quotedText name ++ ':' :: member.print ++ printMembers rest

def printItems : List Json → List Char
  | [] => [']']
  | item :: rest => ',' :: item.print ++ printItems rest

def printMembers : List (String × Json) → List Char
  | [] => ['\x7d']
  | (name, member) :: rest =>
    ',' :: quotedText name ++ ':' :: member.print ++ printMembers rest

end

def compact (json : Json) : String := String.ofList json.print

end LeafStore.Json
