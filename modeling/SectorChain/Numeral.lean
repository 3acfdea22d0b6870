/-!
# Numerals

A number is written as one or more decimal digits, with at most one plus sign before them, and
must lie below a limit.
-/

namespace SectorChain.Numeral

/-- The value of a decimal digit. -/
def digit? (c : Char) : Option Nat :=
  if '0' ≤ c ∧ c ≤ '9' then some (c.toNat - '0'.toNat) else none

/-- The number that the digits spell behind `n`, if it is below `limit`. -/
def digits? (limit n : Nat) : List Char → Option Nat
  | [] => some n
  | c :: rest => do
    let next := 10 * n + (← digit? c)
    if next < limit then digits? limit next rest else none

/-- The number that the text spells, if it is below `limit`. -/
def parse? (limit : Nat) (text : String) : Option Nat := do
  let digits :=
    match text.toList with
    | '+' :: rest => rest
    | cs => cs
  if digits.isEmpty then none else digits? limit 0 digits

/-- The limit of a machine word of 64 bits. -/
def wordLimit : Nat := 0x10000000000000000

end SectorChain.Numeral
