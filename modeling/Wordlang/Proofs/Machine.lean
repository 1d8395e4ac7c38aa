import Wordlang.Builtin
import Wordlang.Proofs.Outcome
import Wordlang.Proofs.Verify
import Wordlang.Text.Utf8

/-!
# Running a module

A machine for modules: the values of a function's entry block are computed in the order in which the
block lists them, a slot is a fresh cell, and a call runs the callee with values of its own on the
arguments it is passed. The machine goes wrong where a value cannot be computed; each way of going
wrong is a fault.

Calls may nest to a given depth. A program that recurses without end exceeds every depth, and no
other program that does not go wrong does.

The machine is used in two ways. With checks on, it also refuses to read a cell that was never
written, and to call a function through another signature than its own.
-/

namespace Wordlang.IR

/-- What a value is when it is computed. -/
inductive Datum where
  /-- Nothing, the result of a write. -/
  | nil
  /-- An integer. -/
  | int (n : Int32)
  /-- The address of a cell. -/
  | cell (i : Nat)
  /-- The address of a function. -/
  | func (f : Nat)
  /-- The address of a global. -/
  | global (g : Nat)
  deriving DecidableEq, Repr

/-- How a run goes wrong. -/
inductive Fault where
  /-- The calls nest too deeply. -/
  | tooDeep
  /-- A cell is read that was never written. -/
  | unsetCell
  /-- What is read or written is no cell. -/
  | notCell
  /-- An integer is needed. -/
  | notInteger
  /-- More arguments are needed than were passed. -/
  | noArgument
  /-- What is called is no function. -/
  | notFunction
  /-- A function is called through another signature than its own. -/
  | wrongSignature
  /-- The end of a body is reached that does not return. -/
  | noReturn
  /-- The output function is called in a way that it does not support. -/
  | badOutput
  /-- A value is no computation, or leads nowhere. -/
  | illFormed
  deriving DecidableEq, Repr

/-- What the functions of a running program share. -/
structure Memory where
  /-- The cells, in the order of their creation; a cell is empty until it is written. -/
  cells : List (Option Datum) := []
  /-- The output so far. -/
  out : String := ""
  deriving DecidableEq, Repr

/-- A step of the machine. -/
abbrev Exec := EStateM Fault Memory

/-- The values computed so far in a function, the latest first. -/
abbrev Vals := List (ValueRef × Datum)

namespace Machine

/-- What an argument of a value stands for. -/
def operand (vals : Vals) (a : Option ValueRef) : Datum := (a.bind fun r => vals.lookup r).getD .nil

/-- A fresh cell. -/
def alloc : Exec Datum :=
  modifyGet fun μ => (.cell μ.cells.length, { μ with cells := μ.cells ++ [none] })

/-- Reads a cell. -/
def load (checked : Bool) : Datum → Exec Datum
  | .cell i => do
    match (← get).cells[i]? with
    | none => throw .notCell
    | some (some x) => return x
    | some none => if checked then throw .unsetCell else return .nil
  | _ => throw .notCell

/-- Writes a cell. -/
def store (x : Datum) : Datum → Exec Datum
  | .cell i => do
    if i < (← get).cells.length then
      modify fun μ => { μ with cells := μ.cells.set i (some x) }
      return .nil
    else throw .notCell
  | _ => throw .notCell

/-- Calls what an address leads to, when the functions have the signatures `sigs` and `want` is the
signature on record. -/
def callThrough (checked : Bool) (sigs : Nat → Option Signature)
    (call : Nat → List Datum → Exec Datum) (want : Aux) (args : List Datum) : Datum → Exec Datum
  | .func f =>
    if checked = true ∧ (sigs f).map Aux.signature ≠ some want then throw .wrongSignature
    else call f args
  | _ => throw .notFunction

/-- Computes a value, when `args` were passed to the function and `vals` have been computed. -/
def compute (checked : Bool) (sigs : Nat → Option Signature) (call : Nat → List Datum → Exec Datum)
    (args : List Datum) (vals : Vals) (v : Value) : Exec Datum :=
  match v.op, v.args.map (operand vals), v.aux with
  | .const32, _, _ => return .int (Int32.ofInt v.number)
  | .globalAddr, _, .global g => return .global g
  | .funcAddr, _, .func f => return .func f
  | .arg, _, _ =>
    match if v.number < 0 then none else args[v.number.toNat]? with
    | some x => return x
    | none => throw .noArgument
  | .alloca, _, _ => alloc
  | .load, p :: _, _ => load checked p
  | .store, p :: x :: _, _ => store x p
  | .add32, .int x :: .int y :: _, _ => return .int (x + y)
  | .add32, _ :: _ :: _, _ => throw .notInteger
  | .call, xs, .func f => call f xs
  | .callIndirect, p :: xs, want => callThrough checked sigs call want xs p
  | _, _, _ => throw .illFormed

variable (checked : Bool) (m : Module)

/-- The signature of the function at a place. -/
def sigAt (f : Nat) : Option Signature := (m.funcs[f]?).bind (·.sig)

/-- Computes the listed values in order. -/
def computeAll (call : Nat → List Datum → Exec Datum) (args : List Datum) (vals : Vals) :
    List ValueRef → Exec Vals
  | [] => return vals
  | r :: rs =>
    match m.value? r with
    | none => throw .illFormed
    | some v => do
      let x ← compute checked (sigAt m) call args vals v
      computeAll call args ((r, x) :: vals) rs

/-- Runs the body of a function. -/
def runBody (call : Nat → List Datum → Exec Datum) (f : Func) (args : List Datum) : Exec Datum :=
  match f.entry.bind m.block? with
  | none => throw .illFormed
  | some b => do
    let vals ← computeAll checked m call args [] b.values
    match b.kind, b.controls with
    | .ret, c :: _ => return operand vals c
    | .ret, [] => throw .illFormed
    | _, _ => throw .noReturn

/-- The output function: it writes an integer and a line feed, and gives the number of bytes. -/
def output (f : Func) : List Datum → Exec Datum
  | [.global g, .int n] => do
    if f.name = Builtin.output ∧
        (m.globals[g]?).map (·.data) = some (Text.Utf8.ofString Builtin.printFormat) then
      let line := toString n.toInt ++ "\n"
      modify fun μ => { μ with out := μ.out ++ line }
      return .int (Int32.ofNat line.utf8ByteSize)
    else throw .badOutput
  | _ => throw .badOutput

/-- Calls a function, whose body is run by `body` unless it lives outside the module. -/
def enter (body : Func → List Datum → Exec Datum) (f : Nat) (args : List Datum) : Exec Datum :=
  match m.funcs[f]? with
  | none => throw .notFunction
  | some g => if g.external then output m g args else body g args

/-- Calls a function. Calls of functions with a body nest to the given depth. -/
def call : Nat → Nat → List Datum → Exec Datum
  | 0 => enter m fun _ _ => throw .tooDeep
  | depth + 1 => enter m (runBody checked m (call depth))

/-- What a call of the entry function comes to: the result and the output, or the fault. -/
def outcome : EStateM.Result Fault Memory Datum → Except Fault (Int32 × String)
  | .ok (.int n) μ => .ok (n, μ.out)
  | .ok _ _ => .error .notInteger
  | .error e _ => .error e

/-- Runs a program from its entry function. -/
def run (depth : Nat) : Except Fault (Int32 × String) :=
  match m.findFunc? Builtin.entry with
  | none => .error .notFunction
  | some f => outcome (call checked m depth f [] {})

/-! ## Running drafts -/

/-- Computes values in order, which the function `f` numbers from `k` on. -/
def runCode (sigs : Nat → Option Signature) (call : Nat → List Datum → Exec Datum)
    (args : List Datum) (f k : Nat) (vals : Vals) : List Value → Exec Vals
  | [] => return vals
  | v :: vs => do
    let x ← compute checked sigs call args vals v
    runCode sigs call args f (k + 1) ((⟨f, k⟩, x) :: vals) vs

variable {checked m} {ds : List Draft} {d : Draft} {f : Nat} {sigs : Nat → Option Signature}
  {callee : Nat → List Datum → Exec Datum} {args : List Datum}

open Outcome

theorem runCode_append (k : Nat) (vals : Vals) (vs ws : List Value) :
    runCode checked sigs callee args f k vals (vs ++ ws) =
      (runCode checked sigs callee args f k vals vs >>= fun vals =>
        runCode checked sigs callee args f (k + vs.length) vals ws) := by
  induction vs generalizing k vals with
  | nil => rfl
  | cons v vs ih =>
    simp only [List.cons_append, runCode, ih, bind_assoc, List.length_cons]
    rw [Nat.add_assoc, Nat.add_comm 1]

theorem sigAt_eq (h : m.Drafted ds) : sigAt m = Draft.sigs ds := by
  funext g
  rw [sigAt, Draft.sigs]
  have hg := h.getElem?_core g
  rw [Module.core, List.getElem?_map] at hg
  cases hd : ds[g]? with
  | none =>
    rw [hd] at hg
    rw [Option.map_eq_none_iff.1 hg]
    rfl
  | some d =>
    rw [hd] at hg
    obtain ⟨x, hx, hxd⟩ := Option.map_eq_some_iff.1 hg
    rw [hx]
    show x.core.sig = some d.sig
    rw [hxd, Draft.sig_func]

/-- Computing the values that a draft lists is running its code. -/
theorem computeAll_eq (h : m.Drafted ds) (hd : ds[f]? = some d) (he : d.external = false)
    (k n : Nat) (hn : k + n = d.code.length) (vals : Vals) :
    computeAll checked m callee args vals ((List.range' k n).map (ValueRef.mk f)) =
      runCode checked (sigAt m) callee args f k vals (d.code.drop k) := by
  induction n generalizing k vals with
  | zero =>
    rw [List.drop_eq_nil_of_le (by omega)]
    rfl
  | succ n ih =>
    have hk : k < d.code.length := by omega
    have hw := h.value? hd he k
    rw [List.getElem?_eq_getElem hk] at hw
    obtain ⟨w, hw, hwv⟩ := Option.map_eq_some_iff.1 hw
    rw [List.range'_succ, List.map_cons, computeAll, hw, List.drop_eq_getElem_cons hk, runCode,
      ← hwv]
    -- the number of uses plays no part
    show (compute checked (sigAt m) callee args vals w >>= fun x =>
      computeAll checked m callee args ((⟨f, k⟩, x) :: vals) _) = _
    congr 1
    funext x
    exact ih (k + 1) (by omega) _

theorem runBody_eq (h : m.Drafted ds) (hd : ds[f]? = some d) (he : d.external = false)
    {r : ValueRef} (hr : d.result = some r) {x : Func} (hx : m.funcs[f]? = some x)
    (hxd : x.core = d.func f) (args : List Datum) :
    runBody checked m callee x args =
      (runCode checked (Draft.sigs ds) callee args f 0 [] d.code >>= fun vals =>
        pure (operand vals (some r))) := by
  have hentry : x.entry = some ⟨f, 0⟩ := by
    have := congrArg Func.entry hxd
    simpa [Func.core, Draft.func, he] using this
  have hblocks : x.blocks = [d.block f] := by
    have := congrArg Func.blocks hxd
    simpa [Func.core, Draft.func, he] using this
  have hblock : m.block? ⟨f, 0⟩ = some (d.block f) := by
    simp [Module.block?, hx, hblocks]
  have hcode : computeAll checked m callee args [] (Draft.refs f d.code.length) =
      runCode checked (Draft.sigs ds) callee args f 0 [] d.code := by
    rw [← sigAt_eq h, Draft.refs, List.range_eq_range']
    exact computeAll_eq h hd he 0 d.code.length (by omega) []
  rw [runBody, hentry, Option.bind_some, hblock]
  simp only [Draft.block, hr, hcode]
  rfl

/-- Calling a function that has been completed runs its code and gives what it returns. -/
theorem call_succ (h : m.Drafted ds) (hd : ds[f]? = some d) (he : d.external = false)
    {r : ValueRef} (hr : d.result = some r) (depth : Nat) (args : List Datum) :
    call checked m (depth + 1) f args =
      (runCode checked (Draft.sigs ds) (call checked m depth) args f 0 [] d.code >>= fun vals =>
        pure (operand vals (some r))) := by
  obtain ⟨x, hx, hxd⟩ := h.getElem?_funcs hd
  have hexternal : x.external = false := by
    have := congrArg Func.external hxd
    simpa [Func.core, Draft.func, he] using this
  rw [call, enter, hx]
  simp only [hexternal, Bool.false_eq_true, if_false]
  exact runBody_eq h hd he hr hx hxd args

theorem call_zero (h : m.Drafted ds) (hd : ds[f]? = some d) (he : d.external = false)
    (args : List Datum) : call checked m 0 f args = throw .tooDeep := by
  obtain ⟨x, hx, hxd⟩ := h.getElem?_funcs hd
  have hexternal : x.external = false := by
    have := congrArg Func.external hxd
    simpa [Func.core, Draft.func, he] using this
  rw [call, enter, hx]
  simp only [hexternal, Bool.false_eq_true, if_false]

/-- Calling a function that lives outside the module writes output. -/
theorem call_external (h : m.Drafted ds) (hd : ds[f]? = some d) (he : d.external = true)
    (depth : Nat) (args : List Datum) :
    call checked m depth f args = output m (d.func f) args := by
  obtain ⟨x, hx, hxd⟩ := h.getElem?_funcs hd
  have hexternal : x.external = true := by
    have := congrArg Func.external hxd
    simpa [Func.core, Draft.func, he] using this
  have hout : output m x args = output m (d.func f) args := by
    rw [← hxd]
    rfl
  cases depth with
  | zero => simp only [call, enter, hx, hexternal, if_true, hout]
  | succ depth => simp only [call, enter, hx, hexternal, if_true, hout]

end Machine

end Wordlang.IR
