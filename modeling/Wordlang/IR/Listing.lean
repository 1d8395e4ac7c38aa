import Wordlang.IR.Violation
import Wordlang.Text.Quoted

/-!
# Listings

The readable form of a module:

    module main [x86_64-pc-linux-gnu]
    global .str.0 = "hello"
    func add(a i32, b i32) i32:
      b0: (entry)
        v0 = Arg <i32> [0] {a}
        v1 = Arg <i32> [1] {b}
        v2 = Add32 <i32> v0 v1
        Return v2

A listing has to follow every reference. It is `none` if one of them leads nowhere.
-/

namespace Wordlang.IR

/-- What a value refers to, as it is listed. -/
def Module.listAux? (m : Module) : Aux → Option String
  | .none => some "<nil>"
  | .name s => some s
  | .func f => m.funcs[f]?.map (·.name)
  | .global g => m.globals[g]?.map (·.name)
  | .outerFunc name _ | .outerGlobal name => some name
  | .signature s => some s.text
  | .number n => some (toString n)
  | .noGlobal | .noFunc => none

namespace Module

variable (m : Module)

/-- The line of a value, without indentation. -/
def listValue? (n : Nat) (v : Value) : Option String := do
  let head := if v.op.isVoid then v.op.name
    else valueLabel n ++ " = " ++ v.op.name ++ " <" ++ v.type.name ++ ">"
  let number := if v.op = .const32 ∨ v.op = .arg then " [" ++ toString v.number ++ "]" else ""
  let aux ←
    if v.op = .alloca then
      (m.listAux? v.aux).map fun s => " \x7b" ++ v.elem.name ++ " " ++ s ++ "\x7d"
    else if v.aux = .none then some ""
    else (m.listAux? v.aux).map fun s => " \x7b" ++ s ++ "\x7d"
  let args ← v.args.mapM fun a => a.map fun r => " " ++ valueLabel r.index
  return head ++ number ++ aux ++ String.join args

/-- The line of the value a reference leads to. -/
def listRef? (r : ValueRef) : Option String := do m.listValue? r.index (← m.value? r)

/-- The line of a block's end. -/
def listEnd (b : Block) : String :=
  match b.kind with
  | .plain => "Plain"
  | .ret =>
    match b.controls.head?.join with
    | some r => "Return " ++ valueLabel r.index
    | none => "Return"
  | _ => "???"

/-- The lines of a block. -/
def listBlock? (isEntry : Bool) (n : Nat) (b : Block) : Option String := do
  let values ← b.values.mapM fun r => (m.listRef? r).map fun s => "    " ++ s ++ "\n"
  return "  " ++ blockLabel n ++ ":" ++ (if isEntry then " (entry)" else "") ++ "\n" ++
    String.join values ++ "    " ++ listEnd b ++ "\n"

/-- The parameters of a function, each with its name if it has one. -/
def listParams (f : Func) (sig : Signature) : String :=
  let params := sig.params.zipIdx.map fun (t, i) =>
    (if f.paramName i = "" then "" else f.paramName i ++ " ") ++ t.name
  ", ".intercalate (params ++ if sig.variadic then ["..."] else [])

/-- The lines of a function, the one at the given place of the module. -/
def listFunc? (place : Nat) (f : Func) : Option String := do
  let head := "func " ++ f.name ++
    match f.sig with
    | some sig => "(" ++ listParams f sig ++ ") " ++ sig.result.name
    | none => "()"
  if f.external then return head ++ " extern\n"
  else
    let blocks ← f.bodyBlocks.mapM fun (n, b) =>
      m.listBlock? (f.entry = some ⟨place, n⟩) n b
    return head ++ ":\n" ++ String.join blocks

/-- The lines of a module. -/
def listing? : Option String := do
  let globals := m.globals.map fun g =>
    "global " ++ g.name ++ " = " ++ Text.quoteGlyphs (Text.Utf8.decode g.data) ++ "\n"
  let funcs ← m.funcs.zipIdx.mapM fun (f, i) => m.listFunc? i f
  return "module " ++ m.name ++ (if m.triple = "" then "" else " [" ++ m.triple ++ "]") ++ "\n" ++
    String.join globals ++ String.join funcs

end Module

end Wordlang.IR
