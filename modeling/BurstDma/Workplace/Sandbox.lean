import BurstDma.Disk.Tree
import BurstDma.Workplace.Basic

/-!
# Sandboxes

A workplace that is a value. Work in it is a function from sandbox to sandbox, so what a
task does to its surroundings can be looked at afterwards.
-/

namespace BurstDma

/-- Files, an environment, typed lines, and what was told so far, newest first. -/
structure Sandbox where
  tree : Disk.Tree := {}
  environ : List (String × String) := []
  typed : List String := []
  newestTold : List Entry := []
deriving Repr, DecidableEq, Inhabited

namespace Sandbox

/-- What was told, in order. -/
def told (s : Sandbox) : List Entry :=
  s.newestTold.reverse

/-- An operation on the files alone. -/
def onTree {α : Type} (work : StateM Disk.Tree α) : StateM Sandbox α := fun s =>
  let (a, tree) := work s.tree
  (a, { s with tree })

/-- Writes a file. -/
def store (path text : String) : StateM Disk.Tree (Except FileError Unit) := do
  match (← get).store path text with
  | .ok t => set t; return .ok ()
  | .error e => return .error e

instance : Workplace (StateM Sandbox) where
  load path := do return (← get).tree.load path
  store path text := onTree (store path text)
  makeDirs path := onTree (Disk.Tree.makeDirs path)
  isThere path := do return ((← get).tree.find? path).isSome
  isFile path := do return (← get).tree.isFile path
  environment := do return (← get).environ
  typedLines := do return (← get).typed
  tell entries := modify fun s => { s with newestTold := entries.reverse ++ s.newestTold }

/-- A sandbox that also has the file, with the directories on the way to it. -/
def withFile (s : Sandbox) (path text : String) : Sandbox :=
  let dirs := (onTree (Disk.Tree.makeDirs ((Disk.parent? path).getD ""))).run s
  ((onTree (store path text)).run dirs.2).2

end Sandbox

end BurstDma
