import BurstDma.Toml.Layout

/-!
# Strings

Basic strings stand between double quotes and know escapes; literal strings stand
between single quotes and do not. Either kind may go over several lines between tripled
quotes. A line feed right behind the opening quotes is dropped, and up to two quotes may
stand directly before the closing ones.
-/

namespace BurstDma.Toml

/-- The character with the hexadecimal code that stands next, in `width` digits. -/
def codePoint (width : Nat) : Scanner (List Char) := do
  let digits ← (List.range width).mapM fun _ => Scanner.satisfy (·.isHexDigit)
  let code := digits.foldl (fun n c => n * 16 + (hexValue c)) 0
  if code.isValidChar then return [Char.ofNat code] else failure
where
  /-- The value of a hexadecimal digit. -/
  hexValue (c : Char) : Nat :=
    if c.isDigit then c.toNat - '0'.toNat else c.toLower.toNat - 'a'.toNat + 10

/-- An escape sequence. -/
def escape : Scanner (List Char) := do
  Scanner.expect '\\'
  match ← Scanner.satisfy fun _ => true with
  | 'b' => return ['\x08']
  | 't' => return ['\t']
  | 'n' => return ['\n']
  | 'f' => return ['\x0c']
  | 'r' => return ['\r']
  | '"' => return ['"']
  | '\\' => return ['\\']
  | 'u' => codePoint 4
  | 'U' => codePoint 8
  | _ => failure

/-- A character of a basic string. -/
def basicPiece : Scanner (List Char) :=
  ((fun c => [c]) <$> Scanner.satisfy fun c => isPlain c && c != '"' && c != '\\') <|> escape

/-- A character of a literal string. -/
def literalPiece : Scanner (List Char) :=
  (fun c => [c]) <$> Scanner.satisfy fun c => isPlain c && c != '\''

/-- The end of a line inside a string. -/
def lineFeed : Scanner (List Char) := do
  newline
  return ['\n']

/-- A backslash before the end of a line hides all blanks and line ends from there on. -/
def joint : Scanner (List Char) := do
  Scanner.expect '\\'
  blanks
  newline
  let _ ← Scanner.many (newline <|> (do let _ ← Scanner.satisfy isBlank))
  return []

/-- A quote that does not belong to the closing ones: no two further quotes follow. -/
def loneQuote (quote : Char) : Scanner (List Char)
  | a :: rest =>
    if a = quote ∧ rest.take 2 ≠ [quote, quote] then some ([quote], rest) else none
  | [] => none

/-- The closing quotes of a string over several lines, and what they hold of it. -/
def tripleClose (quote : Char) : Scanner (List Char) := do
  let triple := List.replicate 3 quote
  (do Scanner.expectAll (quote :: quote :: triple); return [quote, quote])
    <|> (do Scanner.expectAll (quote :: triple); return [quote])
    <|> (do Scanner.expectAll triple; return [])

/-- A string over several lines, from its opening quotes on. -/
def tripleQuoted (quote : Char) (piece : Scanner (List Char)) : Scanner (List Char) := do
  Scanner.expectAll (List.replicate 3 quote)
  let _ ← Scanner.optional newline
  let pieces ← Scanner.many (piece <|> lineFeed <|> loneQuote quote)
  return pieces.flatten ++ (← tripleClose quote)

/-- A string on one line. -/
def singleQuoted (quote : Char) (piece : Scanner (List Char)) : Scanner (List Char) := do
  Scanner.expect quote
  let pieces ← Scanner.many piece
  Scanner.expect quote
  return pieces.flatten

/-- A string that can also be a key. -/
def quotedLine : Scanner (List Char) :=
  singleQuoted '"' basicPiece <|> singleQuoted '\'' literalPiece

/-- A string. -/
def quoted : Scanner (List Char) :=
  tripleQuoted '"' (joint <|> basicPiece) <|> tripleQuoted '\'' literalPiece <|> quotedLine

end BurstDma.Toml
