import SExpression.Text.Printable

/-! # Names in messages

A file name is put between double quotes in a message.  The quote and the backslash get a backslash
before them, tab, line feed, carriage return and NUL have a letter or a digit of their own, and
every other character that does not print as itself is given by its code point in hexadecimal
between braces. -/
set_option autoImplicit false
namespace SExpression.Quoted

def hexadecimal (n : Nat) : String := String.ofList (Nat.toDigits 16 n)

def encodeChar (c : Char) : String :=
  if c = '"' then "\\\""
  else if c = '\\' then "\\\\"
  else if c = '\t' then "\\t"
  else if c = '\r' then "\\r"
  else if c = '\n' then "\\n"
  else if c = '\x00' then "\\0"
  else if isPrintable c then c.toString
  else "\\u\x7b" ++ hexadecimal c.toNat ++ "\x7d"

def encode (name : String) : String :=
  "\"" ++ String.join (name.toList.map encodeChar) ++ "\""

end SExpression.Quoted
