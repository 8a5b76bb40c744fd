import LeafStore.Error
import LeafStore.Text.Base64
/-!
Page tokens: the key that a page ended with, in characters that need no escape in an address.
-/
namespace LeafStore.PageToken

def encode (key : String) : String :=
  String.ofList (Text.Base64.encode key.toUTF8.data.toList)

def withoutPadding (token : String) : List Char :=
  (token.toList.reverse.dropWhile (· = '=')).reverse

/-- The key of a token. Padding at its end is allowed. -/
def decode (token : String) : Except TokenError String :=
  match Text.Base64.decode? (withoutPadding token) with
  | none => .error .malformed
  | some bytes =>
    match String.fromUTF8? ⟨bytes.toArray⟩ with
    | none => .error .notUnicode
    | some key => .ok key

end LeafStore.PageToken
