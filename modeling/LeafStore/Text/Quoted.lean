import LeafStore.Text.Hex
import LeafStore.Text.Printable
/-!
Text between double quotes, written so that every character can be seen: the quote and the
backslash are escaped, and a character without a visible form is given by its code point.
-/
namespace LeafStore.Text

def quotedChar (c : Char) : List Char :=
  match c with
  | '\u0000' => ['\\', '0']
  | '\t' => ['\\', 't']
  | '\n' => ['\\', 'n']
  | '\r' => ['\\', 'r']
  | '"' => ['\\', '"']
  | '\\' => ['\\', '\\']
  | _ =>
    if isPrintable c then [c]
    else ['\\', 'u', '\x7b'] ++ hex c.toNat ++ ['\x7d']

def quoted (text : String) : String :=
  String.ofList ('"' :: text.toList.flatMap quotedChar ++ ['"'])

end LeafStore.Text
