import ValueFlow.Text.Visible

/-!
# Quoted text

Text between double quotes, on one line and free of hidden characters: tab, line breaks, quote,
backslash and the null character have short escapes, any other hidden character is written by its
number.
-/

namespace ValueFlow.Text

def escape (c : Char) : List Char :=
  match c with
  | '\t' => ['\\', 't']
  | '\r' => ['\\', 'r']
  | '\n' => ['\\', 'n']
  | '\x22' => ['\\', '\x22']
  | '\\' => ['\\', '\\']
  | '\x00' => ['\\', '0']
  | c =>
    if isVisible c then [c]
    else ['\\', 'u', '\x7b'] ++ Nat.toDigits 16 c.toNat ++ ['\x7d']

def quote (s : String) : String :=
  String.ofList (['\x22'] ++ s.toList.flatMap escape ++ ['\x22'])

/-- The entries between two brackets, with commas. -/
def listed (left right : String) (entries : List String) : String :=
  left ++ ", ".intercalate entries ++ right

end ValueFlow.Text
