import Wordlang.Proofs.Outcome
import Wordlang.Lowering.Expr

/-!
# Steps that only build

Most steps of lowering build the function at hand and do nothing else: they bind no name, report
nothing and add no function.
-/

namespace Wordlang

open IR Outcome

namespace IR.Module

/-- The symbols of the functions, in order. -/
def funcSymbols (m : Module) : List String := m.funcs.map (·.name)

variable (m : Module)

theorem funcSymbols_modifyFunc (f : Nat) {k : Func → Func} (hk : ∀ g, (k g).name = g.name) :
    (m.modifyFunc f k).funcSymbols = m.funcSymbols := by
  apply List.ext_getElem?
  intro i
  simp only [funcSymbols, modifyFunc, List.getElem?_map, List.getElem?_modify]
  cases m.funcs[i]? with
  | none => rfl
  | some g =>
    by_cases hi : f = i
    · simp [hi, hk]
    · simp [hi]

theorem funcSymbols_addArg (r arg : ValueRef) : (m.addArg r arg).funcSymbols = m.funcSymbols := by
  rw [addArg, countUse, modifyValue, modifyValue, funcSymbols_modifyFunc, funcSymbols_modifyFunc]
  · exact fun _ => rfl
  · exact fun _ => rfl

theorem funcSymbols_addValue (f : Nat) (block : BlockRef) (v : Value) (args : List ValueRef) :
    (m.addValue f block v args).2.funcSymbols = m.funcSymbols := by
  have hfold : ∀ (r : ValueRef) (m : Module),
      (args.foldl (fun m a => m.addArg r a) m).funcSymbols = m.funcSymbols := by
    intro r
    induction args with
    | nil => exact fun _ => rfl
    | cons a args ih => exact fun m => (ih _).trans (funcSymbols_addArg m r a)
  rw [addValue, modifyBlock, funcSymbols_modifyFunc, hfold, funcSymbols_modifyFunc]
  · exact fun _ => rfl
  · exact fun _ => rfl

theorem funcSymbols_setReturn (block : BlockRef) (r : ValueRef) :
    (m.setReturn block (some r)).funcSymbols = m.funcSymbols := by
  rw [setReturn, setControl, countUse, modifyValue, modifyBlock, modifyBlock, funcSymbols_modifyFunc,
    funcSymbols_modifyFunc, funcSymbols_modifyFunc]
  · exact fun _ => rfl
  · exact fun _ => rfl
  · exact fun _ => rfl

theorem funcSymbols_internString (data : List UInt8) :
    (m.internString data).2.funcSymbols = m.funcSymbols := by
  unfold internString
  split <;> rfl

end IR.Module

namespace Lowering

/-- From `b` to `b'` nothing was bound or reported, and no function was added. -/
structure Unmoved (b b' : Builder) : Prop where
  env : b'.env = b.env
  events : b'.events = b.events
  symbols : b'.module.funcSymbols = b.module.funcSymbols

theorem Unmoved.refl (b : Builder) : Unmoved b b := ⟨rfl, rfl, rfl⟩

theorem Unmoved.trans {b b' b'' : Builder} (h : Unmoved b b') (h' : Unmoved b' b'') :
    Unmoved b b'' :=
  ⟨h'.env.trans h.env, h'.events.trans h.events, h'.symbols.trans h.symbols⟩

/-- The step binds and reports nothing and adds no function, also if it fails. -/
def Quiet {α : Type} (x : Lowering α) : Prop :=
  ∀ b, Ends (x b) (fun _ b' => Unmoved b b') fun b' => Unmoved b b'

namespace Quiet

variable {α β : Type}

/-- A step that only builds goes on from a state with the same names and the same report. -/
theorem after {x : Lowering α} {b b₁ : Builder} (hx : Quiet x) (h : Unmoved b b₁) :
    Ends (x b₁) (fun _ b' => Unmoved b b') fun b' => Unmoved b b' :=
  (hx b₁).imp (fun _ _ h' => h.trans h') fun _ h' => h.trans h'

theorem bind {x : Lowering α} {k : α → Lowering β} (hx : Quiet x)
    (hk : ∀ a, Quiet (k a)) : Quiet (x >>= k) := by
  intro b
  exact (hx b).bind fun a b' hb' => (hk a).after hb'

theorem pure (a : α) : Quiet (Pure.pure a : Lowering α) := .refl

theorem fail (pos : Position) (fault : LoweringFault) :
    Quiet (Lowering.fail pos fault : Lowering α) := .refl

theorem fail_bind (pos : Position) (fault : LoweringFault) (k : α → Lowering β) :
    Quiet (Lowering.fail pos fault >>= k) := .refl

theorem get : Quiet (MonadState.get : Lowering Builder) := .refl

theorem emit (v : Value) (args : List ValueRef) : Quiet (Lowering.emit v args) :=
  fun b => ⟨rfl, rfl, b.module.funcSymbols_addValue _ _ _ _⟩

theorem emitSlot (elem : Ty) (name : String) (pos : Position) :
    Quiet (Lowering.emitSlot elem name pos) := emit _ _

theorem emitStore (slot v : ValueRef) (pos : Position) :
    Quiet (Lowering.emitStore slot v pos) := (emit _ _).bind fun _ => pure _

theorem emitRead (x : Operand) (pos : Position) : Quiet (Lowering.emitRead x pos) := by
  unfold Lowering.emitRead
  split
  · exact emit _ _
  · exact pure _

theorem emitFuncAddr (g : Nat) (sig : Signature) (pos : Position) :
    Quiet (Lowering.emitFuncAddr g sig pos) := (emit _ _).bind fun _ => pure _

theorem nameValue (id : Ident) : Quiet (Lowering.nameValue id) := by
  refine get.bind fun b => ?_
  dsimp only
  split
  · exact pure _
  · split
    · exact emitFuncAddr _ _ _
    · exact fail _ _

theorem stringLiteral (pos : Position) (content : String) :
    Quiet (Lowering.stringLiteral pos content) := by
  have hintern : ∀ data, Quiet (modifyGet fun b : Builder =>
      ((b.module.internString data).1, { b with module := (b.module.internString data).2 })) :=
    fun data b => ⟨rfl, rfl, b.module.funcSymbols_internString data⟩
  exact (hintern _).bind fun _ => (emit _ _).bind fun _ => pure _

theorem callTarget (pos : Position) (name : String) :
    Quiet (Lowering.callTarget pos name) := by
  refine get.bind fun b => ?_
  dsimp only
  split
  · exact pure _
  · split
    · split
      · exact pure _
      · exact fail _ _
    · exact fail _ _

theorem readArgs (name : String) (i : Nat) (types : List Ty) (xs : List (Position × Operand)) :
    Quiet (Lowering.readArgs name i types xs) := by
  induction xs generalizing i types with
  | nil => exact pure _
  | cons a xs ih =>
    obtain ⟨pos, x⟩ := a
    rw [Lowering.readArgs]
    refine (emitRead x pos).bind fun v => ?_
    dsimp only
    split
    · split
      · exact fail_bind _ _ _
      · exact (ih _ _).bind fun _ => pure _
    · exact (ih _ _).bind fun _ => pure _

theorem callNamed (pos : Position) (name : String) (xs : List (Position × Operand)) :
    Quiet (Lowering.callNamed pos name xs) := by
  refine (callTarget pos name).bind fun target => ?_
  obtain ⟨target, sig⟩ := target
  have hkeep : ∀ r, Quiet (do
      let slot ← Lowering.emitSlot sig.result name pos
      Lowering.emitStore slot r pos
      return ({ ref := slot, type := sig.result, isSlot := true } : Operand)) :=
    fun r => (emitSlot _ _ _).bind fun slot => (emitStore slot r pos).bind fun _ => pure _
  dsimp only
  split
  · exact fail_bind _ _ _
  · refine (readArgs name 0 sig.params xs).bind fun vals => ?_
    split
    · exact (emit _ _).bind hkeep
    · exact (emit _ _).bind fun _ => (emit _ _).bind hkeep

theorem returnTail (name : String) (pos : Position) (tail : Option (Position × Operand)) :
    Quiet (Lowering.returnTail name pos tail) := by
  cases tail with
  | none => exact fail _ _
  | some last =>
    obtain ⟨last, x⟩ := last
    refine (emitRead x last).bind fun v => ?_
    dsimp only
    split
    · exact fail_bind _ _ _
    · exact fun b => ⟨rfl, rfl, b.module.funcSymbols_setReturn _ _⟩

end Quiet

end Lowering

end Wordlang
