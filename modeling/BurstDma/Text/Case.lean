/-!
# Letters of either case

Names are compared in small letters. Only names in plain letters are ever looked for, so
the table of capitals holds those, and the one sign outside them whose small letter is a
plain one.
-/

namespace BurstDma.Text

/-- The small letter of a capital. The sign for kelvins counts as a capital. -/
def lowerChar (c : Char) : Char :=
  if c = '\u212a' then 'k' else c.toLower

/-- The text in small letters. -/
def lower (s : String) : String :=
  String.ofList (s.toList.map lowerChar)

end BurstDma.Text
