import BurstDma.Toml.Value

/-!
# Growing a table

A document adds to its tables statement by statement. **Nothing is ever said twice**: a
key gets one value, a table one header, and what a dotted key has begun only dotted keys
may go on with. The operations here follow a path from the root, make the tables that
are missing on the way, and refuse whatever would say a thing again.
-/

namespace BurstDma.Toml

/-- A key with the keys that lead to its table. -/
abbrev Path := List String

/-- A table that is still growing. -/
structure OpenTable where
  origin : Origin := .header
  entries : Entries := []
deriving Inhabited

namespace OpenTable

/-- The value of a key. -/
def get? (t : OpenTable) (key : String) : Option Value :=
  t.entries.lookup key

/-- The table with another value of a key; a new key comes last. -/
def put (t : OpenTable) (key : String) (v : Value) : OpenTable :=
  if t.entries.any (·.1 == key) then
    { t with entries := t.entries.map fun e => if e.1 == key then (key, v) else e }
  else { t with entries := t.entries ++ [(key, v)] }

/-- The value that the table is. -/
def value (t : OpenTable) : Value :=
  .table t.origin t.entries

/-- Changes the table at the end of a path. `dotted` says whether a dotted key leads
there; it may not enter tables that have a header. A path leads into the last table of
a growing array. -/
def change (dotted : Bool) (f : OpenTable → Option OpenTable) :
    Path → OpenTable → Option OpenTable
  | [], t => f t
  | key :: rest, t =>
    match t.get? key with
    | none => do
      let inner ← change dotted f rest { origin := if dotted then .dotted else .implied }
      return t.put key inner.value
    | some (.table origin entries) =>
      if origin = .braces ∨ (dotted ∧ origin = .header) then none
      else do
        let inner ← change dotted f rest { origin, entries }
        return t.put key inner.value
    | some (.array true items) =>
      match items.getLast? with
      | some (.table origin entries) => do
        let inner ← change dotted f rest { origin, entries }
        return t.put key (.array true (items.dropLast ++ [inner.value]))
      | _ => none
    | some _ => none

/-- Adds a value under a key that has none. Dotted keys add only to tables that dotted
keys have made, and other keys only to other tables. -/
def add (dotted : Bool) (key : String) (v : Value) (t : OpenTable) : Option OpenTable :=
  if decide (t.origin = .dotted) != dotted || (t.get? key).isSome then none
  else some (t.put key v)

/-- Adds a value under a dotted key. -/
def assign (path : Path) (key : String) (v : Value) (t : OpenTable) : Option OpenTable :=
  t.change true (add (!path.isEmpty) key v) path

/-- Gives a table its header. A table that was only passed through so far may still get
one. -/
def openTable (key : String) (t : OpenTable) : Option OpenTable :=
  match t.get? key with
  | none => some (t.put key (.table .header []))
  | some (.table .implied entries) => some (t.put key (.table .header entries))
  | some _ => none

/-- Adds a table to a growing array. -/
def openItem (key : String) (t : OpenTable) : Option OpenTable :=
  match t.get? key with
  | none => some (t.put key (.array true [.table .header []]))
  | some (.array true items) => some (t.put key (.array true (items ++ [.table .header []])))
  | some _ => none

end OpenTable

end BurstDma.Toml
