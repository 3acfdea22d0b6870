/-!
# Words of a line

White space of any script is dropped at both ends of a line; within it only blanks, tabs, line
feeds, form feeds and carriage returns stand between words.
-/

namespace SectorChain.Shell

/-- The Unicode property `White_Space`. -/
def isBlank (c : Char) : Bool :=
  let n := c.toNat
  (0x9 ≤ n && n ≤ 0xD) || n == 0x20 || n == 0x85 || n == 0xA0 || n == 0x1680 ||
    (0x2000 ≤ n && n ≤ 0x200A) || n == 0x2028 || n == 0x2029 || n == 0x202F || n == 0x205F ||
    n == 0x3000

/-- What stands between two words. -/
def isSeparator (c : Char) : Bool :=
  c == ' ' || c == '\t' || c == '\n' || c == '\x0c' || c == '\r'

/-- The line without white space at its ends. -/
def trimmed (line : List Char) : List Char :=
  ((line.dropWhile isBlank).reverse.dropWhile isBlank).reverse

/-- The words of a line. -/
def words (line : String) : List String :=
  (((trimmed line.toList).splitOnP isSeparator).filter (!·.isEmpty)).map String.ofList

end SectorChain.Shell
