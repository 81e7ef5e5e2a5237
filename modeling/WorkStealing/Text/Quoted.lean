import WorkStealing.Text.Marks

/-!
# Quoted text

A text between double quotes. Quotes, backslashes and the characters that a
reader would not see are written as escapes: six of them by a letter, the
others by their code points in hexadecimal.
-/

namespace WorkStealing
namespace Text

/-- A reader would not see the character where it stands. -/
def isUnseen (c : Char) : Bool :=
  inRanges unprintedRanges c.toNat || inRanges fillerRanges c.toNat ||
    inRanges extendingRanges c.toNat

/-- One character of a quoted text: a short escape, an escape by number, or itself. -/
def quotedChar (c : Char) : List Char :=
  match c with
  | '"' => ['\\', '"']
  | '\\' => ['\\', '\\']
  | '\n' => ['\\', 'n']
  | '\r' => ['\\', 'r']
  | '\t' => ['\\', 't']
  | '\x00' => ['\\', '0']
  | c =>
    if isUnseen c then
      ['\\', 'u', '\x7b'] ++ Nat.toDigits 16 c.toNat ++ ['\x7d']
    else [c]

/-- The text between double quotes. -/
def quoted (text : String) : String :=
  String.ofList ('"' :: text.toList.flatMap quotedChar ++ ['"'])

end Text
end WorkStealing
