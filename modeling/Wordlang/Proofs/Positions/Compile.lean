import Wordlang.Proofs.LLVM.Compile
import Wordlang.Proofs.Positions

/-!
# Compiled text carries no positions

Rendering reads everything of a module but positions. So trees that differ in positions only are
compiled to the same text, and if they are not compiled, for the same reason.
-/

namespace Wordlang

open IR

namespace IR.Module

variable (m : Module)

theorem value?_erase (r : ValueRef) : m.erase.value? r = (m.value? r).map Value.erase := by
  simp only [value?, erase, List.getElem?_map]
  cases m.funcs[r.func]? with
  | none => rfl
  | some f => exact List.getElem?_map

theorem callee?_erase (v : Value) : m.erase.callee? v.erase = (m.callee? v).map Func.erase := by
  obtain ⟨op, _, _, _, _, aux, _, _, _⟩ := v
  cases op <;> cases aux <;> first | rfl | exact List.getElem?_map

theorem callSignature?_erase (v : Value) :
    m.erase.callSignature? v.erase = m.callSignature? v := by
  have hcall : (m.erase.callee? v.erase).bind (·.sig) = (m.callee? v).bind (·.sig) := by
    rw [callee?_erase]
    cases m.callee? v <;> rfl
  simp only [callSignature?, hcall]
  rfl

end IR.Module

namespace LLVM

variable (m : Module)

/-! ## Rendering -/

theorem operand?_erase (n : Nat) (v : Value) : operand? m.erase n v.erase = operand? m n v := by
  have hname (f : Nat) : m.erase.funcs[f]?.map (Operand.symbol ·.name) =
      m.funcs[f]?.map (Operand.symbol ·.name) := by
    have := congrArg (Option.map Operand.symbol) (m.name_erase f)
    rwa [Option.map_map, Option.map_map] at this
  obtain ⟨op, _, _, _, _, aux, _, _, _⟩ := v
  cases op <;> cases aux <;> first | rfl | exact hname _

theorem typedOperand?_erase (a : Option ValueRef) : typedOperand? m.erase a = typedOperand? m a := by
  cases a with
  | none => rfl
  | some r =>
    simp only [typedOperand?, Option.bind_eq_bind, Option.bind_some, Module.value?_erase,
      Option.bind_map, Function.comp_def, operand?_erase]
    rfl

theorem argument?_erase (v : Value) (i : Nat) : argument? m.erase v.erase i = argument? m v i := by
  simp only [argument?, typedOperand?_erase]
  rfl

theorem renderCall?_erase (n : Nat) (sig : Signature) (callee : Operand)
    (args : List (Option ValueRef)) :
    renderCall? m.erase n sig callee args = renderCall? m n sig callee args := by
  have hoperand : typedOperand? m.erase = typedOperand? m := funext (typedOperand?_erase m)
  simp only [renderCall?, hoperand]

theorem renderValue?_erase (f : Func) (n : Nat) (v : Value) :
    renderValue? m.erase f.erase n v.erase = renderValue? m f n v := by
  have hop : v.erase.op = v.op := rfl
  have hargs : v.erase.args = v.args := rfl
  simp only [renderValue?, hop, hargs, argument?_erase, typedOperand?_erase, renderCall?_erase,
    Module.callSignature?_erase, Module.callee?_erase]
  cases v.op with
  | call => cases m.callee? v <;> rfl
  | _ => rfl

theorem renderEnd?_erase (b : Block) : renderEnd? m.erase b = renderEnd? m b := by
  simp only [renderEnd?, typedOperand?_erase]

theorem renderBlock?_erase (f : Func) (n : Nat) (b : Block) :
    renderBlock? m.erase f.erase n b = renderBlock? m f n b := by
  simp only [renderBlock?, Option.bind_eq_bind, Module.value?_erase, Option.bind_map,
    Function.comp_def, renderValue?_erase, renderEnd?_erase]

theorem renderFunc?_erase (f : Func) : renderFunc? m.erase f.erase = renderFunc? m f := by
  simp only [renderFunc?, renderBlock?_erase]
  rfl

theorem render?_erase : render? m.erase = render? m := by
  -- declarations and definitions are told apart by a field that has no position in it
  have hfilter (p : Bool → Bool) : m.erase.funcs.filter (fun f => p f.external) =
      (m.funcs.filter (fun f => p f.external)).map Func.erase := by
    rw [Module.erase, List.filter_map]
    rfl
  have hdeclared := hfilter id
  have hdefined := hfilter not
  simp only [id] at hdeclared
  simp only [render?, hdeclared, hdefined, List.mapM_map, Function.comp_def, renderFunc?_erase]
  rfl

end LLVM

/-! ## Compiling -/

def CompileFailure.erase : CompileFailure → CompileFailure
  | .lowering e => .lowering e.erase
  | f => f

namespace Builder

theorem erase_finish (b : Builder) : b.erase.finish = b.finish.erase := by
  let v : Value := { op := .const32, type := .i32, number := Builtin.entryStatus.toInt }
  have hvalue : b.module.erase.addValue b.site.func b.site v [] =
      (b.module.addValue b.site.func b.site v []).map id Module.erase :=
    b.module.erase_addValue b.site.func b.site v []
  show ({ b.erase with
    module := (b.module.erase.addValue b.site.func b.site v []).2.setReturn b.site
      (some (b.module.erase.addValue b.site.func b.site v []).1) } : Builder) = _
  rw [hvalue]
  simp only [Prod.map, Module.erase_setReturn]
  rfl

theorem erase_initial (name triple : String) : (initial name triple).erase = initial name triple := by
  have hfuncs := Lowering.initial_funcs name triple
  have herase : (initial "" "").module.funcs.map Func.erase = (initial "" "").module.funcs := by
    decide +kernel
  have hmodule : (initial name triple).module.erase = (initial name triple).module := by
    rw [Module.erase, hfuncs, herase, ← hfuncs]
  rw [Builder.erase, hmodule]
  rfl

end Builder

open Lowering in
theorem lower_eraseAll (o : CompileOptions) (es : List Expr) :
    (lower o (Expr.eraseAll es)).module = (lower o es).module.erase ∧
      (lower o (Expr.eraseAll es)).failure = (lower o es).failure.map CompileFailure.erase := by
  have htop := topLevel_erases 0 es (Builder.initial o.effectiveName o.triple)
  rw [Builder.erase_initial] at htop
  rw [lower_module, lower_module, lower_failure, lower_failure, htop]
  cases topLevel 0 es (Builder.initial o.effectiveName o.triple) with
  | ok u b => exact ⟨congrArg Builder.module b.erase_finish, rfl⟩
  | error e b => exact ⟨rfl, rfl⟩

/-- A tree without positions is compiled to the same text, or fails for the same reason. -/
theorem compile_eraseAll (o : CompileOptions) (es : List Expr) :
    (compile o (Expr.eraseAll es)).text = (compile o es).text ∧
      (compile o (Expr.eraseAll es)).failure = (compile o es).failure.map CompileFailure.erase := by
  obtain ⟨hmodule, hfailure⟩ := lower_eraseAll o es
  simp only [compile, hmodule, hfailure, LLVM.render?_erase]
  cases LLVM.render? (lower o es).module with
  | none =>
    refine ⟨rfl, ?_⟩
    cases (lower o es).failure <;> rfl
  | some r =>
    refine ⟨rfl, ?_⟩
    cases (lower o es).failure with
    | some e => rfl
    | none =>
      show r.malformed.map CompileFailure.rendering =
        (r.malformed.map CompileFailure.rendering).map CompileFailure.erase
      rw [Option.map_map]
      rfl

/-- Trees that differ in positions only are compiled to the same text, or fail for the same reason. -/
theorem compile_congr {es es' : List Expr} (h : Expr.eraseAll es = Expr.eraseAll es')
    (o : CompileOptions) : (compile o es).text = (compile o es').text ∧
      (compile o es).failure.map CompileFailure.erase =
        (compile o es').failure.map CompileFailure.erase := by
  obtain ⟨htext, hfailure⟩ := compile_eraseAll o es
  obtain ⟨htext', hfailure'⟩ := compile_eraseAll o es'
  rw [← htext, ← htext', ← hfailure, ← hfailure', h]
  exact ⟨rfl, rfl⟩

end Wordlang
