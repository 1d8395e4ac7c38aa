import Mathlib.Data.List.Nodup
import Wordlang.LLVM.Line

/-!
# Straight-line code

A function that is rendered has one block: instructions, and one that ends it. The instructions are
in static single assignment form when each defines a value of its own and works on values that were
defined before it.
-/

namespace Wordlang.LLVM

open IR (Ty Signature)

/-- The number of the value that an instruction defines. -/
def Inst.dst? : Inst → Option Nat
  | alloca dst .. | load dst .. | add dst .. | call dst .. => some dst
  | _ => none

/-- What an instruction works on. -/
def Inst.operands : Inst → List Operand
  | load _ _ slot => [slot]
  | store _ value slot => [value, slot]
  | add _ a b => [a, b]
  | call _ _ callee args => callee :: args.map (·.2)
  | ret _ value => [value]
  | _ => []

/-- Whether an instruction ends a block. -/
def Inst.isEnd : Inst → Bool
  | ret .. | retVoid | unreachable => true
  | _ => false

/-- The numbers of the values that instructions define. -/
def defs (code : List Inst) : List Nat := code.filterMap Inst.dst?

/-- The operand can be used in a function with `arity` parameters when `values` are defined and
`symbols` are those of the module. -/
def Operand.Fits (symbols : List String) (arity : Nat) (values : List Nat) : Operand → Prop
  | .const _ => True
  | .symbol name => name ∈ symbols
  | .arg n => ∃ k < arity, n = (k : Nat)
  | .value n => n ∈ values

/-- Each instruction defines a value that none before it defines, and works on values that are
defined before it. -/
inductive Straight (symbols : List String) (arity : Nat) : List Inst → Prop
  | nil : Straight symbols arity []
  | concat {code : List Inst} {i : Inst} (h : Straight symbols arity code)
    (hdst : ∀ n ∈ i.dst?, n ∉ defs code)
    (huses : ∀ x ∈ i.operands, x.Fits symbols arity (defs code)) :
    Straight symbols arity (code ++ [i])

variable {symbols : List String} {arity : Nat} {code : List Inst}

theorem defs_concat (code : List Inst) (i : Inst) :
    defs (code ++ [i]) = defs code ++ i.dst?.toList := by
  rw [defs, List.filterMap_append]
  cases h : i.dst? with
  | none => simp [defs, h]
  | some n => simp [defs, h]

theorem Straight.nodup (h : Straight symbols arity code) : (defs code).Nodup := by
  induction h with
  | nil => exact List.nodup_nil
  | @concat code i _ hdst _ ih =>
    rw [defs_concat]
    cases hi : i.dst? with
    | none => simpa using ih
    | some n =>
      rw [Option.toList_some, ← List.concat_eq_append]
      exact ih.concat (hdst n hi)

theorem Straight.earlier (h : Straight symbols arity code) {k : Nat} {i : Inst}
    (hi : code[k]? = some i) : ∀ x ∈ i.operands, x.Fits symbols arity (defs (code.take k)) := by
  induction h with
  | nil => simp at hi
  | @concat code j _ _ huses ih =>
    -- the last instruction is not among those before any other
    rcases Nat.lt_or_ge k code.length with hk | hk
    · rw [List.getElem?_append_left hk] at hi
      rw [List.take_append_of_le_length (Nat.le_of_lt hk)]
      exact ih hi
    · rw [List.getElem?_append_right hk] at hi
      obtain ⟨hlt, hj⟩ := List.getElem?_eq_some_iff.1 hi
      obtain rfl : k = code.length := by
        rw [List.length_singleton] at hlt
        omega
      have hij : j = i := by simpa using hj
      subst hij
      simpa using huses

/-- The symbol that a line introduces. -/
def Line.introduces? : Line → Option String
  | .define name _ _ => some name
  | .declare name _ => some name
  | .global name _ => some name
  | _ => none

/-- What a line has in it that is written as it is, and of which nothing is known. -/
def Line.raw : Line → String
  | .moduleComment name => name
  | .triple t => t
  | .inst (.alloca _ _ comment) => comment
  | _ => ""

/-- A function as it is rendered. -/
structure Body where
  name : String
  params : List Ty
  result : Ty
  code : List Inst
  stop : Inst

/-- The lines of a function, after a blank one. -/
def Body.lines (b : Body) : List Line :=
  [.blank, .define b.name b.params b.result, .label 0] ++ b.code.map .inst ++ [.inst b.stop, .close]

theorem Body.mem_lines {b : Body} {l : Line} (h : l ∈ b.lines) :
    (∃ i ∈ b.code ++ [b.stop], l = .inst i) ∨
      l ∈ [.blank, .define b.name b.params b.result, .label 0, .close] := by
  simp only [Body.lines, List.mem_append, List.mem_cons, List.mem_map, List.not_mem_nil,
    or_false] at h ⊢
  rcases h with ((h | ⟨i, hi, rfl⟩) | rfl | rfl)
  · rcases h with rfl | rfl | rfl
    · exact .inr (.inl rfl)
    · exact .inr (.inr (.inl rfl))
    · exact .inr (.inr (.inr (.inl rfl)))
  · exact .inl ⟨i, .inl hi, rfl⟩
  · exact .inl ⟨b.stop, .inr rfl, rfl⟩
  · exact .inr (.inr (.inr (.inr rfl)))

/-- A function in static single assignment form, which returns an integer or does not return. -/
structure Body.Ok (symbols : List String) (b : Body) : Prop where
  straight : Straight symbols b.params.length (b.code ++ [b.stop])
  plain : ∀ i ∈ b.code, i.isEnd = false
  ends : b.stop = .unreachable ∨ ∃ x, b.stop = .ret .i32 x

end Wordlang.LLVM
