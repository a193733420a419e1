import InductiveTerms.Text.Unprintable

/-!
Text in double quotes. A quote and a backslash are escaped by a backslash, some controls have short
names, and whatever has no appearance of its own is written as its code point in hexadecimal.
-/
namespace InductiveTerms.Text

def escapeChar (c : Char) : List Char :=
  match c with
  | '"' => ['\\', '"']
  | '\\' => ['\\', '\\']
  | '\n' => ['\\', 'n']
  | '\t' => ['\\', 't']
  | '\r' => ['\\', 'r']
  | '\x00' => ['\\', '0']
  | c =>
      if isUnprintable c then
        '\\' :: 'u' :: '\x7b' :: (Nat.toDigits 16 c.toNat ++ ['\x7d'])
      else
        [c]

def quote (s : String) : String := String.ofList ('"' :: (s.toList.flatMap escapeChar ++ ['"']))

end InductiveTerms.Text
