/-!
# Formatted texts

Hexadecimal digits and the quoted form that the standard library gives a string.
-/
namespace Texts

def hexDigits (n : Nat) : List Char := Nat.toDigits 16 n

/-- One character of a quoted string; the backslash is written by its code. The Unicode tables say
which of the other characters are printable. -/
def escapeDebug (printable : Char → Bool) (c : Char) : List Char :=
  let backslash := Char.ofNat 92
  if c.toNat = 0 then [backslash, '0']
  else if c.toNat = 9 then [backslash, 't']
  else if c.toNat = 10 then [backslash, 'n']
  else if c.toNat = 13 then [backslash, 'r']
  else if c.toNat = 34 ∨ c.toNat = 92 then [backslash, c]
  else if printable c then [c]
  else [backslash, 'u', Char.ofNat 123] ++ hexDigits c.toNat ++ [Char.ofNat 125]

/-- A string in quotes, as `{:?}` writes it. -/
def debugStr (printable : Char → Bool) (s : String) : String :=
  String.ofList ([Char.ofNat 34] ++ s.toList.flatMap (escapeDebug printable) ++ [Char.ofNat 34])

end Texts
