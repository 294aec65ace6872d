import RubyIndent.Text.Printable

/-!
# Quoted text

The form in which a message shows a text: between quotation marks, with
everything escaped that would end the quotation, break the line or not be
visible.
-/

namespace RubyIndent.Text

def escapeByNumber (c : Char) : List Char :=
  "\\u\x7b".toList ++ Nat.toDigits 16 c.toNat ++ ['\x7d']

/-- How a quotation shows one character: quotation mark and backslash after a
backslash, four control characters by name, the others that cannot be shown by
number. -/
def quoteChar (c : Char) : List Char :=
  if c = '\"' ∨ c = '\\' then ['\\', c]
  else if c = '\t' then ['\\', 't']
  else if c = '\n' then ['\\', 'n']
  else if c = '\r' then ['\\', 'r']
  else if c = '\x00' then ['\\', '0']
  else if isPrintable c then [c]
  else escapeByNumber c

def quote (s : String) : String :=
  String.ofList ('\"' :: s.toList.flatMap quoteChar ++ ['\"'])

end RubyIndent.Text
