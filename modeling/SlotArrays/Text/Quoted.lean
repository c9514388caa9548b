/-! Quoted text.

A text stands between double quotes. Quotes, backslashes and the control
characters of the ASCII range are written as escapes, the five common ones by a
letter and the others by their number in braces; every other character stands
for itself. -/
namespace SlotArrays

def isControl (c : Char) : Bool := c.toNat < 0x20 || c.toNat == 0x7f

/-- One character between the quotes. -/
def escape (c : Char) : List Char :=
  match c with
  | '"' => ['\\', '"']
  | '\\' => ['\\', '\\']
  | '\n' => ['\\', 'n']
  | '\t' => ['\\', 't']
  | '\r' => ['\\', 'r']
  | '\x00' => ['\\', '0']
  | c =>
    if isControl c then ['\\', 'u', '\x7b'] ++ Nat.toDigits 16 c.toNat ++ ['\x7d']
    else [c]

def quoted (s : String) : String :=
  String.ofList ('"' :: s.toList.flatMap escape ++ ['"'])

end SlotArrays
