import EscapeAnalysis.Text.Unseen

/-!
# Quoted text

`Text.quote` : a text between double quotes. Quotes and backslashes get a backslash, the usual
controls are written `\n`, `\r`, `\t` and `\0`, and other characters without a form of their own by
their number in hexadecimal, as in `\u{200b}`.
-/

namespace EscapeAnalysis.Text

/-- One character inside quotes. -/
def quoteChar (c : Char) : List Char :=
  if c = '"' then ['\\', '"']
  else if c = '\\' then ['\\', '\\']
  else if c = '\n' then ['\\', 'n']
  else if c = '\r' then ['\\', 'r']
  else if c = '\t' then ['\\', 't']
  else if c.toNat = 0 then ['\\', '0']
  else if isSeen c then [c]
  else ['\\', 'u', '\x7b'] ++ Nat.toDigits 16 c.toNat ++ ['\x7d']

def quote (s : String) : String :=
  String.ofList ('"' :: s.toList.flatMap quoteChar ++ ['"'])

end EscapeAnalysis.Text
