import BurstDma.Journal.Notice

/-!
# Bus traces

One record per handshake at a port, and one per finished transfer. Written out, a
record is one JSON object on a line of its own, its fields in the order in which
they are declared.
-/

namespace BurstDma

/-- A handshake at a port, or the end of a transfer. -/
inductive BusEvent where
  | ar (addr len : Nat)
  | r (data : Word) (resp : Resp) (last : Bool)
  | aw (addr len : Nat)
  | w (data : Word) (last : Bool)
  | b (resp : Resp)
  | done (side : Side)
deriving Repr, DecidableEq, Inhabited

/-- An event with its time and place. -/
structure TraceRecord where
  cycle : Nat
  port : Nat
  event : BusEvent
deriving Repr, DecidableEq, Inhabited

/-- A field's value in a record. -/
inductive TraceField where
  | number (n : Nat)
  | flag (b : Bool)
  | word (s : String)
deriving Repr, DecidableEq

namespace TraceField

/-- The JSON text of a value. -/
def text : TraceField → String
  | number n => Numeral.decimal n
  | flag true => "true"
  | flag false => "false"
  | word s => "\"" ++ s ++ "\""

end TraceField

namespace BusEvent

/-- The channel of an event. -/
def channel : BusEvent → String
  | ar .. => "ar"
  | r .. => "r"
  | aw .. => "aw"
  | w .. => "w"
  | b .. => "b"
  | done .. => "done"

/-- What a record says about its event besides the channel. -/
def fields : BusEvent → List (String × TraceField)
  | ar addr len => [("addr", .number addr), ("len", .number len)]
  | r data resp last =>
    [("data", .number data.toNat), ("resp", .word resp.name), ("last", .flag last)]
  | aw addr len => [("addr", .number addr), ("len", .number len)]
  | w data last => [("data", .number data.toNat), ("last", .flag last)]
  | b resp => [("resp", .word resp.name)]
  | done side => [("engine", .word side.name)]

end BusEvent

namespace TraceRecord

/-- All fields of a record in their order. -/
def fields (r : TraceRecord) : List (String × TraceField) :=
  ("cycle", .number r.cycle) :: ("port", .number r.port)
    :: ("channel", .word r.event.channel) :: r.event.fields

/-- The line of a record. -/
def text (r : TraceRecord) : String :=
  "\x7b" ++ ",".intercalate (r.fields.map fun f => "\"" ++ f.1 ++ "\":" ++ f.2.text) ++ "\x7d"

end TraceRecord

end BurstDma
