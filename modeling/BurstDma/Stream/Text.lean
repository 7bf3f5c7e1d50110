import BurstDma.Problem
import BurstDma.Stream.Fifo

/-!
# Stream files

One beat per line: a word in decimal or after `0x`, and `eof` behind the word that ends
a frame. Whatever follows an `eof` on its line is not looked at.
-/

namespace BurstDma.StreamText

/-- The word that a token denotes: hexadecimal after one mark, decimal otherwise. -/
def readWord : List Char → Except NumeralError Nat
  | '0' :: 'x' :: digits => Radix.sixteen.read limit64 digits
  | '0' :: 'X' :: digits => Radix.sixteen.read limit64 digits
  | digits => Radix.ten.read limit64 digits

/-- Whether a token is the end-of-frame tag, in letters of either case. -/
def isEndTag (token : List Char) : Bool :=
  token.map Char.toLower == ['e', 'o', 'f']

/-- The end-of-frame tag of a line, from what follows its word. -/
def readTag : List (List Char) → Except LineError Bool
  | [] => .ok false
  | token :: _ =>
    if isEndTag token then .ok true else .error (.unexpected (String.ofList token))

/-- Reads a line: nothing, or one beat. -/
def readLine (line : List Char) : Except LineError (Option Beat) :=
  match Text.tokens line with
  | [] => .ok none
  | word :: rest =>
    match readWord word with
    | .error cause => .error (.streamWord (String.ofList word) cause)
    | .ok n => (readTag rest).map fun last => some ⟨UInt64.ofNat n, last⟩

/-- The beats of a stream file. `file` is where the text came from. -/
def read (text file : String) : Attempt (List Beat) :=
  match Text.readLines readLine text.toList with
  | .ok beats => .ok (beats.map (·.item))
  | .error e => .error (.badLine file e)

/-- The line of a beat. -/
def writeBeat (b : Beat) : List Char :=
  Radix.ten.write b.data.toNat ++ (if b.last then [' ', 'e', 'o', 'f'] else []) ++ ['\n']

/-- The stream file of some beats. -/
def write (beats : List Beat) : String :=
  String.ofList (beats.flatMap writeBeat)

end BurstDma.StreamText
