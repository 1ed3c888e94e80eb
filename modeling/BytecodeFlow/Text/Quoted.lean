import BytecodeFlow.Text.Printable

/-!
# Quoted text

The form in which names, labels and string constants appear in messages: between double quotes,
with a short escape for the common controls, the quote and the backslash, and with the code point
in braces for every other character that is not printable.
-/

namespace BytecodeFlow.Text

/-- The code point of `c` in lower-case hexadecimal digits, without leading zeros. -/
def hexCode (c : Char) : String :=
  String.ofList (Nat.toDigits 16 c.toNat)

/-- One character as it stands between the quotes. -/
def quoteChar (c : Char) : String :=
  match c with
  | '\x00' => "\\0"
  | '\t' => "\\t"
  | '\n' => "\\n"
  | '\r' => "\\r"
  | '"' => "\\\""
  | '\\' => "\\\\"
  | c => if isPrintable c then c.toString else "\\u\x7b" ++ hexCode c ++ "\x7d"

/-- `text` between double quotes. -/
def quote (text : String) : String :=
  "\"" ++ String.join (text.toList.map quoteChar) ++ "\""

end BytecodeFlow.Text
