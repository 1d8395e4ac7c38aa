import Wordlang.Proofs.Lowering.Literals
import Wordlang.Proofs.Lowering.Reached

/-!
# The built-in functions and the entry function

A program may define functions under any name, also under the names of the functions that are there
from the start. Such a function gets a symbol of its own and the name stands for it from then on,
but the functions that were there are the same as before: nothing is written to them, and they refer
to each other by place and not by name.
-/

namespace Wordlang

open IR Outcome Builder

namespace IR

/-! ## What a function returns -/

/-- The value that a function with one block returns. -/
def Func.returned? (f : Func) : Option ValueRef :=
  match f.bodyBlocks with
  | [(_, { kind := .ret, controls := [some r], .. })] => some r
  | _ => none

/-- What a value is: an operation, its number and its reference, and the values it is applied to. -/
def Value.computed (v : Value) : Op × Int × Aux × List (Option ValueRef) :=
  (v.op, v.number, v.aux, v.args)

namespace Module

variable (m : Module)

/-- The head of the function at the given place. -/
def head? (f : Nat) : Option Head := m.funcs[f]?.map Func.head

/-- The value that the function at the given place returns, if it has one block. -/
def returned? (f : Nat) : Option ValueRef := m.funcs[f]?.bind Func.returned?

/-- The value is computed by the operation, with the given number and reference, from the given
values. -/
def Computes (r : ValueRef) (op : Op) (number : Int) (aux : Aux) (args : List ValueRef) : Prop :=
  (m.value? r).map Value.computed = some (op, number, aux, args.map some)

instance (r : ValueRef) (op : Op) (number : Int) (aux : Aux) (args : List ValueRef) :
    Decidable (m.Computes r op number aux args) := inferInstanceAs (Decidable (_ = _))

/-- The module starts with the output function, `+`, `print` and the entry function. The function `+`
returns the sum of its arguments; `print` returns what the output function gives for a format and its
argument. -/
structure BuiltIn : Prop where
  output : m.head? 0 =
    some ⟨"printf", some { params := [.ptr], result := .i32, variadic := true }, [], true⟩
  add : m.head? 1 = some ⟨"+", some (userSignature 2), ["a", "b"], false⟩
  add_returns : m.returned? 1 = some ⟨1, 2⟩
  sum : m.Computes ⟨1, 2⟩ .add32 0 .none [⟨1, 0⟩, ⟨1, 1⟩]
  left : m.Computes ⟨1, 0⟩ .arg 0 (.name "a") []
  right : m.Computes ⟨1, 1⟩ .arg 1 (.name "b") []
  print : m.head? 2 = some ⟨"print", some (userSignature 1), ["x"], false⟩
  print_returns : m.returned? 2 = some ⟨2, 2⟩
  call : m.Computes ⟨2, 2⟩ .call 0 (.func 0) [⟨2, 1⟩, ⟨2, 0⟩]
  format : m.Computes ⟨2, 1⟩ .globalAddr 0 (.global 0) []
  text : m.globals[0]?.map (·.data) = some (Text.Utf8.ofString "%d\n")
  argument : m.Computes ⟨2, 0⟩ .arg 0 (.name "x") []
  main : m.head? 3 = some ⟨"main", some (userSignature 0), [], false⟩

/-- The entry function has one block, which returns the constant zero. -/
def EndsWithZero : Prop := ∃ r, m.returned? 3 = some r ∧ m.Computes r .const32 0 .none []

end Module

/-! ## Modules that extend others -/

namespace Module.Extends

variable {m m' : Module} {f : Nat}

theorem head? {i : Nat} {x : Head} (h : m.Extends f m') (hx : m.head? i = some x) :
    m'.head? i = some x := by
  obtain ⟨g, hg, rfl⟩ := Option.map_eq_some_iff.1 hx
  by_cases hi : i = f
  · subst hi
    obtain ⟨g', hg', hext⟩ := h.here g hg
    have hhead : g'.head = g.head := by
      rw [← hext.head]
      rfl
    rw [Module.head?, hg', Option.map_some, hhead]
  · rw [Module.head?, h.others i g hi hg, Option.map_some]

/-- What the other functions return is the same. -/
theorem returned? {i : Nat} {r : ValueRef} (h : m.Extends f m') (hi : i ≠ f)
    (hr : m.returned? i = some r) : m'.returned? i = some r := by
  obtain ⟨g, hg, hgr⟩ := Option.bind_eq_some_iff.1 hr
  exact Option.bind_eq_some_iff.2 ⟨g, h.others i g hi hg, hgr⟩

theorem computes {r : ValueRef} {op : Op} {number : Int} {aux : Aux} {args : List ValueRef}
    (h : m.Extends f m') (hr : m.Computes r op number aux args) :
    m'.Computes r op number aux args := by
  obtain ⟨v, hv, hcomputed⟩ := Option.map_eq_some_iff.1 hr
  obtain ⟨v', hv', hext⟩ := h.value? hv
  have hsame : v'.core.computed = v.core.computed := congrArg Value.computed hext.core
  exact Option.map_eq_some_iff.2 ⟨v', hv', hsame.trans hcomputed⟩

/-- Writing to the entry function and adding functions leaves the built-in functions alone. -/
theorem builtIn (h : m.Extends 3 m') (hm : m.BuiltIn) : m'.BuiltIn where
  output := h.head? hm.output
  add := h.head? hm.add
  add_returns := h.returned? (by decide) hm.add_returns
  sum := h.computes hm.sum
  left := h.computes hm.left
  right := h.computes hm.right
  print := h.head? hm.print
  print_returns := h.returned? (by decide) hm.print_returns
  call := h.computes hm.call
  format := h.computes hm.format
  text := by
    obtain ⟨g, hg, hdata⟩ := Option.map_eq_some_iff.1 hm.text
    rw [getElem?_later h.globals hg, Option.map_some, hdata]
  argument := h.computes hm.argument
  main := h.head? hm.main

end Module.Extends

/-! ## Modules with drafts -/

namespace Module.Drafted

variable {m : Module} {ds : List Draft} {f : Nat} {d : Draft}

theorem head? (h : m.Drafted ds) (hd : ds[f]? = some d) : m.head? f = some d.head := by
  rw [Module.head?, ← List.getElem?_map, h.map_head, List.getElem?_map, hd, Option.map_some]

theorem returned? (h : m.Drafted ds) (hd : ds[f]? = some d) (he : d.external = false) :
    m.returned? f = d.result := by
  obtain ⟨g, hg, hcore⟩ := h.getElem?_funcs hd
  have hreturned : g.returned? = (d.func f).returned? := by
    rw [← hcore]
    rfl
  rw [Module.returned?, hg, Option.bind_some, hreturned]
  cases hr : d.result <;> simp [Func.returned?, Func.bodyBlocks, Draft.func, Draft.block, he, hr]

theorem computes (h : m.Drafted ds) (hd : ds[f]? = some d) (he : d.external = false) {j : Nat}
    {op : Op} {number : Int} {aux : Aux} {args : List ValueRef}
    (hj : d.code[j]?.map Value.computed = some (op, number, aux, args.map some)) :
    m.Computes ⟨f, j⟩ op number aux args := by
  obtain ⟨v, hv, hcomputed⟩ := Option.map_eq_some_iff.1 hj
  have hvalue := h.value? hd he j
  rw [hv] at hvalue
  obtain ⟨w, hw, rfl⟩ := Option.map_eq_some_iff.1 hvalue
  exact Option.map_eq_some_iff.2 ⟨w, hw, hcomputed⟩

end Module.Drafted

end IR

namespace Lowering

theorem initial_builtIn (name triple : String) : (Builder.initial name triple).module.BuiltIn := by
  have hdrafted := initial_drafted name triple
  have hadd : startDrafts[1]? = some startDrafts[1] := rfl
  have hprint : startDrafts[2]? = some startDrafts[2] := rfl
  exact {
    output := hdrafted.head? (d := startDrafts[0]) rfl
    add := hdrafted.head? hadd
    add_returns := hdrafted.returned? hadd rfl
    sum := hdrafted.computes hadd rfl rfl
    left := hdrafted.computes hadd rfl rfl
    right := hdrafted.computes hadd rfl rfl
    print := hdrafted.head? hprint
    print_returns := hdrafted.returned? hprint rfl
    call := hdrafted.computes hprint rfl rfl
    format := hdrafted.computes hprint rfl rfl
    text := by
      rw [initial_globals]
      rfl
    argument := hdrafted.computes hprint rfl rfl
    main := hdrafted.head? (d := entryDraft) rfl }

/-- The functions behind the entry function are those of the literals that were begun, in order, also
after a failure. -/
theorem lower_funcs (o : CompileOptions) (es : List Expr) :
    List.Forall₂ (fun f l => f.head.IsOf l) ((lower o es).module.funcs.drop 4)
      (begunAt 0 es (Builder.initial o.effectiveName o.triple)) := by
  obtain ⟨ds, hdrafted, new, hnew, hls⟩ : ∃ ds, (lower o es).module.Drafted ds ∧
      Follows startDrafts ds (begunAt 0 es (Builder.initial o.effectiveName o.triple)) := by
    have hbegins := topLevel_begins 0 es (initial_inv o.effectiveName o.triple).now
    rw [lower_module]
    cases htop : topLevel 0 es (Builder.initial o.effectiveName o.triple) with
    | error e b =>
      rw [htop] at hbegins
      exact hbegins
    | ok u b =>
      rw [htop] at hbegins
      obtain ⟨ds, d, hat, hfollows⟩ := hbegins
      -- ending the entry function changes no head
      have hset : Follows ds (ds.set entryPlace ((d.append [statusCode entryPlace]).ret
          (next entryPlace d))) [] := .set hat.here rfl
      have hended := hfollows.trans hset
      rw [List.append_nil] at hended
      exact ⟨_, (finish_spec hat).1, hended⟩
  have hheads : ((lower o es).module.funcs.drop 4).map Func.head = new := by
    rw [List.map_drop, hdrafted.map_head, hnew]
    rfl
  rw [← hheads] at hls
  exact List.forall₂_map_left_iff.1 hls

theorem lower_builtIn (o : CompileOptions) (es : List Expr) : (lower o es).module.BuiltIn := by
  have hext : (Builder.initial o.effectiveName o.triple).module.Extends entryPlace
      (lower o ([] ++ es)).module := topLevel_extends rfl es
  exact hext.builtIn (initial_builtIn o.effectiveName o.triple)

/-- Ending the entry function makes it return zero. -/
theorem finish_endsWithZero {b : Builder} {ds : List Draft} {d : Draft} (h : At b ds entryPlace d) :
    b.finish.module.EndsWithZero := by
  have hdrafted := (finish_spec h).1
  have hhere := List.getElem?_set_self (a := (d.append [statusCode entryPlace]).ret
    (next entryPlace d)) h.lt_length
  refine ⟨next entryPlace d, hdrafted.returned? hhere h.inside, hdrafted.computes hhere h.inside ?_⟩
  show (d.code ++ [statusCode entryPlace])[d.code.length]?.map Value.computed = _
  rw [List.getElem?_concat_length]
  rfl

end Lowering

open Lowering in
/-- A program cannot disturb the built-in functions or the entry function. Whatever it defines, and
also after a failure, the module starts with them as they were, and only then come the functions of
the program: one for each function literal whose body was begun, in the order of the text. After a
success all have been begun, and the entry function returns zero. -/
theorem builtins_undisturbed (o : CompileOptions) (es : List Expr) :
    (lower o es).module.BuiltIn ∧
    List.Forall₂ (fun f l => f.head.IsOf l) ((lower o es).module.funcs.drop 4)
      (begunAt 0 es (Builder.initial o.effectiveName o.triple)) ∧
    begunAt 0 es (Builder.initial o.effectiveName o.triple) <+: Expr.functionLiteralsAll es ∧
    ((lower o es).failure = none →
      begunAt 0 es (Builder.initial o.effectiveName o.triple) = Expr.functionLiteralsAll es ∧
        (lower o es).module.EndsWithZero) := by
  refine ⟨lower_builtIn o es, lower_funcs o es, begunAt_le 0 es _, ?_⟩
  intro hnone
  have hbegins := topLevel_begins 0 es (initial_inv o.effectiveName o.triple).now
  rw [lower_module]
  rw [lower_failure] at hnone
  cases htop : topLevel 0 es (Builder.initial o.effectiveName o.triple) with
  | error e b =>
    rw [htop] at hnone
    cases hnone
  | ok u b =>
    rw [htop] at hbegins
    obtain ⟨ds, d, hat, -⟩ := hbegins
    exact ⟨begunAt_of_topLevel 0 es htop, finish_endsWithZero hat⟩

/-- A program that defines functions under the names of those that are there from the start. -/
def usurpers : List Expr :=
  [.assign {} { name := "main" } (.function {} [.name { name := "x" }]
    [.assign {} { name := "print" } (.function {} [.name { name := "y" }] [.name { name := "y" }]),
      .name { name := "x" }]),
  .assign {} { name := "+" } (.function {} [.name { name := "a" }, .name { name := "b" }]
    [.name { name := "a" }]),
  .assign {} { name := "printf" } (.function {} [.name { name := "a" }]
    [.call {} { name := "+" } [.name { name := "a" }, .int {} 1]]),
  .call {} { name := "print" } [.call {} { name := "printf" } [.int {} 2]]]

theorem usurpers_follow : (lower {} usurpers).module.BuiltIn ∧
    (lower {} usurpers).module.EndsWithZero ∧
    (lower {} usurpers).module.funcs.map (·.name) =
      ["printf", "+", "print", "main", "main.1", "print.1", "+.1", "printf.1"] := by
  obtain ⟨hbuiltIn, -, -, hsuccess⟩ := builtins_undisturbed {} usurpers
  have hnone : (lower {} usurpers).failure = none := by decide +kernel
  exact ⟨hbuiltIn, (hsuccess hnone).2, by decide +kernel⟩

end Wordlang
