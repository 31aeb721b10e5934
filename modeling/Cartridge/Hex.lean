/-
# `Cartridge.Hex` — numbers in base sixteen

Addresses are written in upper-case hexadecimal behind a dollar sign, with at
least four digits; other quantities with as many digits as they need.
-/

namespace Cartridge

/-- Upper-case hexadecimal digits of `n`, without leading zeros. -/
def hex (n : Nat) : String :=
  String.ofList ((Nat.toDigits 16 n).map Char.toUpper)

/-- Hexadecimal digits of `n`, filled with zeros on the left up to four. -/
def hex4 (n : Nat) : String :=
  let digits := hex n
  String.ofList (List.replicate (4 - digits.length) '0') ++ digits

/-- An address as it is printed: `$C000`. -/
def showAddress (a : UInt16) : String :=
  "$" ++ hex4 a.toNat

end Cartridge
