import Wordlang.LLVM.Render

/-!
# Writing a module out

A module is written line by line while it is rendered. Once a write was refused, no further one is
tried; rendering goes on all the same, and goes on to note the first malformed value. At the end a
refused write counts more than a malformed value.

Where rendering meets something missing, no outcome is left, whatever was written before.
-/

namespace Wordlang.LLVM

open IR

/-- A place that lines are written to, one in each write: the error with which it answers the write
of the given number, counted from one, if it refuses that write. -/
def Writer (ε : Type) : Type := Nat → Option ε

namespace Writer

/-- Takes every write. -/
def unfailing (ε : Type) : Writer ε := fun _ => none

/-- Refuses the writes from the given one on. -/
def failingFrom {ε : Type} (n : Nat) (e : ε) : Writer ε := fun k => if n ≤ k then some e else none

end Writer

/-- Why a module was not written as a whole. -/
inductive GenerateError (ε : Type) where
  /-- A write was refused. -/
  | refused (e : ε)
  /-- The module has a malformed value. -/
  | malformed (e : Malformed)
  deriving DecidableEq, Repr

/-- What has been written, and what went wrong so far. -/
structure Output (ε : Type) where
  /-- The lines that arrived. -/
  lines : List Line := []
  /-- The number of writes that were tried. -/
  tried : Nat := 0
  /-- The error of the first write that was refused. -/
  refusal : Option ε := none
  /-- The first malformed value. -/
  malformed : Option Malformed := none

namespace Output

variable {ε : Type}

/-- Writes a line, unless a write was refused before. -/
def write (w : Writer ε) (s : Output ε) (l : Line) : Output ε :=
  if s.refusal.isSome then s
  else match w (s.tried + 1) with
    | none => { s with lines := s.lines ++ [l], tried := s.tried + 1 }
    | some e => { s with tried := s.tried + 1, refusal := some e }

/-- Notes a malformed value, unless one was noted before. -/
def note (s : Output ε) (e : Malformed) : Output ε := { s with malformed := s.malformed <|> some e }

/-- What went wrong in the end. -/
def error (s : Output ε) : Option (GenerateError ε) :=
  s.refusal.map .refused <|> s.malformed.map .malformed

end Output

/-- A step of writing a module out. -/
abbrev Generator (ε : Type) := StateT (Output ε) Option

namespace Generator

variable {ε : Type} (w : Writer ε) (m : Module)

/-- Writes a line. -/
def emit (l : Line) : Generator ε Unit := modify fun s => s.write w l

/-- Notes a malformed value. -/
def note (e : Malformed) : Generator ε Unit := modify fun s => s.note e

/-- Writes the lines of a value, or notes that it is malformed. -/
def value (f : Func) (r : ValueRef) : Generator ε Unit := do
  let v ← m.value? r
  let piece ← renderValue? m f r.index v
  piece.lines.forM (emit w)
  match piece.malformed with
  | none => pure ()
  | some e => note e

/-- Writes a block. -/
def block (f : Func) (x : Nat × Block) : Generator ε Unit := do
  emit w (.label x.1)
  x.2.values.forM (value w m f)
  emit w (← renderEnd? m x.2)

/-- Writes a function defined in the module, after a blank line. -/
def func (f : Func) : Generator ε Unit := do
  let sig ← f.sig
  emit w .blank
  emit w (.define f.name sig.params sig.result)
  f.bodyBlocks.forM (block w m f)
  emit w .close

/-- Writes the line of a function that lives elsewhere. -/
def declaration (f : Func) : Generator ε Unit := do emit w (← declare? f)

/-- Writes the lines of functions that live elsewhere, after a blank line if there are any. -/
def declarations (fs : List Func) : Generator ε Unit := do
  unless fs.isEmpty do emit w .blank
  fs.forM (declaration w)

/-- Writes a module. -/
def ofModule : Generator ε Unit := do
  (header m).forM (emit w)
  (group (m.globals.map fun g => .global g.name g.data)).forM (emit w)
  declarations w (m.funcs.filter (·.external))
  (m.funcs.filter (!·.external)).forM (func w m)

end Generator

/-- Writes a module to `w`: the lines that arrive there, and what went wrong. -/
def generate {ε : Type} (w : Writer ε) (m : Module) :
    Option (List Line × Option (GenerateError ε)) :=
  (Generator.ofModule w m {}).map fun (_, s) => (s.lines, s.error)

end Wordlang.LLVM
