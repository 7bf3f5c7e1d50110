import BurstDma.Bus.Signal
import BurstDma.Problem

/-!
# Memory images

An image is a text with one hexadecimal word per line. Written images have sixteen
digits on every line; read ones may have fewer, and prefixes before them.
-/

namespace BurstDma

namespace Text

/-- The text after every copy of `mark` at its front. -/
def dropMarks (mark : Char) : List Char → List Char
  | '0' :: c :: rest => if c = mark then dropMarks mark rest else '0' :: c :: rest
  | s => s

/-- The text after the marks of a hexadecimal number, small ones before large ones. -/
def withoutHexMarks (s : List Char) : List Char :=
  dropMarks 'X' (dropMarks 'x' s)

end Text

namespace Image

/-- Reads a line: nothing, or one word. -/
def readLine (line : List Char) : Except LineError (Option Word) :=
  let text := Text.trim line
  if text.isEmpty then .ok none
  else
    match Radix.sixteen.read limit64 (Text.withoutHexMarks text) with
    | .ok n => .ok (some (UInt64.ofNat n))
    | .error cause => .error (.imageWord (String.ofList text) cause)

/-- The words of an image. `file` is where the text came from. -/
def read (text file : String) : Attempt (List Word) :=
  match Text.readLines readLine text.toList with
  | .ok words => .ok (words.map (·.item))
  | .error e => .error (.badLine file e)

/-- The image of some words. -/
def write (words : List Word) : String :=
  String.ofList (words.flatMap fun w => Radix.sixteen.writeWide 16 w.toNat ++ ['\n'])

end Image

end BurstDma
