import BurstDma.Journal.Run
import BurstDma.Text.Blank

/-!
# Which notices are shown

A filter is written as a list of directives with commas between them: a level for
everything, `area=level` for one area of the program, or an area alone for all it has to
say. **The directive with the longest area decides.** A text behind a slash lets only
notices through that contain it.
-/

namespace BurstDma.Cli

/-- The area of the program that a notice belongs to, as filters name it. -/
def area : Notice → String
  | .beatWithoutPending => "axidma::dma::credit"
  | .burstEndWithoutPending => "axidma::dma::credit"
  | .responseWithoutBurst => "axidma::dma::writer"
  | .startMoved side .. => "axidma::dma::" ++ side.name
  | .burstIssued side .. => "axidma::dma::" ++ side.name
  | .errorLatched side .. => "axidma::dma::" ++ side.name
  | .transferDone side .. => "axidma::dma::" ++ side.name
  | .descriptorDropped .. => "axidma::dma::regs"
  | .readOnlyWrite .. => "axidma::dma::regs"
  | .readGranted .. => "axidma::arbiter::read"
  | .writeLocked .. => "axidma::arbiter::write"
  | .beatCountDiffers .. => "axidma::memory"
  | .writeAnswered .. => "axidma::memory"
  | .imageLoaded .. => "axidma::memory"
  | .beatLost .. => "axidma::system::port"
  | .noSuchPort .. => "axidma::system"
  | .machineReset .. => "axidma::system"
  | .readDiffers .. => "axidma::simulator::script"
  | .inputLoaded .. => "axidma::simulator::simulator"
  | .runStarted .. => "axidma::simulator::simulator"
  | .traceOpened .. => "axidma::simulator::trace"
  | .traceClosed .. => "axidma::simulator::simulator"
  | .memoryDumped .. => "axidma::simulator::simulator"
  | .sinkDiffers .. => "axidma::simulator::simulator"
  | .memoryDiffers .. => "axidma::simulator::simulator"
  | .shallowFifo .. => "axidma::simulator::config::config"
  | .vectorsWritten .. => "axidma::simulator::testgen"
  | .gaveUp .. => "axidma"

/-- A directive: what is shown of the areas whose names begin with `area`. -/
structure Directive where
  area : List Char := []
  /-- Nothing at all without a level. -/
  level : Option Level
deriving Repr, DecidableEq, Inhabited

/-- A filter. -/
structure Filter where
  directives : List Directive
  /-- What notices have to contain. -/
  within : List Char := []
deriving Repr, DecidableEq, Inhabited

namespace Filter

/-- Everything from a level on. -/
def ofLevel (l : Level) : Filter where
  directives := [{ level := some l }]

/-- Whether a text contains another one. -/
def contains (part : List Char) : List Char → Bool
  | [] => part.isEmpty
  | c :: rest => part.isPrefixOf (c :: rest) || contains part rest

/-- The longer of two directives, the second one if they are equally long. -/
def longer (best : Option Directive) (d : Directive) : Option Directive :=
  match best with
  | some b => if d.area.length < b.area.length then some b else some d
  | none => some d

/-- Whether a filter shows a notice. -/
def shows (f : Filter) (n : Notice) : Bool :=
  let fitting := f.directives.filter fun d => d.area.isPrefixOf (area n).toList
  let level := (fitting.foldl longer none).bind (·.level)
  level.any n.level.shownAt && contains f.within n.text.toList

/-! ## Reading -/

/-- The parts of a text between separators. -/
def split (separator : Char) : List Char → List (List Char)
  | [] => [[]]
  | c :: rest =>
    if c = separator then [] :: split separator rest
    else
      match split separator rest with
      | [] => [[c]]
      | part :: more => (c :: part) :: more

/-- A level by its name in letters of either case; `off` shows nothing. -/
def readLevel (s : List Char) : Option (Option Level) :=
  let word := String.ofList (s.map Char.toUpper)
  if word = "OFF" then some none else (Level.all.find? (·.name == word)).map some

/-- A directive, or the part of it that makes no sense. -/
def readDirective (s : List Char) : Except (List Char) Directive :=
  match split '=' s with
  | [name] =>
    match readLevel name with
    | some level => .ok { level }
    | none => .ok { area := name, level := some .trace }
  | [name, level] =>
    match Text.trim level with
    | [] => .ok { area := name, level := some .trace }
    | level =>
      match readLevel level with
      | some level => .ok { area := name, level }
      | none => .error level
  | _ => .error s

/-- A filter with one more directive, which replaces one for the same area. -/
def add (f : Filter) (d : Directive) : Filter :=
  { f with directives := f.directives.filter (·.area != d.area) ++ [d] }

/-- The filter with the directives of a list, and the parts that make no sense. Without
any directive it shows errors. -/
def ofDirectives (within : List Char) (parts : List (List Char)) : Filter × List (List Char) :=
  let read := (parts.map Text.trim |>.filter (!·.isEmpty)).map readDirective
  let directives := read.filterMap (·.toOption)
  let complaints := read.filterMap fun r => match r with
    | .error part => some part
    | .ok _ => none
  let filter := directives.foldl add { directives := [], within }
  (if directives.isEmpty then { ofLevel .error with within } else filter, complaints)

/-- The filter that a text denotes, and the parts of it that make no sense. -/
def read (text : String) : Filter × List (List Char) :=
  match split '/' text.toList with
  | [list] => ofDirectives [] (split ',' list)
  | [list, within] => ofDirectives within (split ',' list)
  | _ => (ofLevel .error, [text.toList])

/-- The complaint about a part that makes no sense. -/
def complaint (part : List Char) : String :=
  s!"warning: invalid logging spec '{String.ofList part}', ignoring it\n"

end Filter

end BurstDma.Cli
