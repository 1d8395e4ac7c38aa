import Wordlang.Proofs.Lowering.Verified
import Wordlang.Proofs.Shape

/-!
# Positions do not matter

Positions are carried through lowering and come to light in errors and events only. Everything that
lowering does commutes with forgetting them: lowering a tree without positions gives what is left of
the outcome when positions are forgotten.
-/

namespace Wordlang

open IR

/-! ## Forgetting positions -/

def IR.Value.erase (v : Value) : Value := { v with pos := {} }

def IR.Func.erase (f : Func) : Func := { f with values := f.values.map Value.erase }

def IR.Module.erase (m : Module) : Module := { m with funcs := m.funcs.map Func.erase }

def Event.erase : Event → Event
  | .expression index kind _ => .expression index kind {}
  | .function name symbol params _ => .function name symbol params {}
  | e => e

def LoweringError.erase (e : LoweringError) : LoweringError := ⟨{}, e.fault⟩

def Builder.erase (b : Builder) : Builder :=
  { b with module := b.module.erase, events := b.events.map Event.erase }

theorem Expr.pos_erase (e : Expr) : e.erase.pos = {} := by cases e <;> rfl

theorem Expr.kind_erase (e : Expr) : e.erase.kind = e.kind := by cases e <;> rfl

namespace IR.Module

variable (m : Module)

/-! ## Modules -/

theorem erase_modifyFunc {g : Func → Func} (g' : Func → Func) (h : ∀ f, (g f).erase = g' f.erase)
    (f : Nat) : (m.modifyFunc f g).erase = m.erase.modifyFunc f g' := by
  simp only [erase, modifyFunc, map_modify h]

theorem erase_modifyValue {g : Value → Value} (h : ∀ v, (g v).erase = g v.erase) (r : ValueRef) :
    (m.modifyValue r g).erase = m.erase.modifyValue r g := by
  apply erase_modifyFunc
  intro f
  simp only [Func.erase, map_modify h]

theorem erase_modifyBlock (g : Block → Block) (r : BlockRef) :
    (m.modifyBlock r g).erase = m.erase.modifyBlock r g := by
  apply erase_modifyFunc
  intro f
  rfl

theorem erase_countUse (r : ValueRef) : (m.countUse r).erase = m.erase.countUse r := by
  apply erase_modifyValue
  intro v
  rfl

theorem erase_addArg (r a : ValueRef) : (m.addArg r a).erase = m.erase.addArg r a := by
  rw [addArg, erase_countUse, erase_modifyValue]
  · rfl
  · intro v
    rfl

theorem erase_addArgs (r : ValueRef) (args : List ValueRef) :
    (args.foldl (fun m a => m.addArg r a) m).erase =
      args.foldl (fun m a => m.addArg r a) m.erase := by
  induction args generalizing m with
  | nil => rfl
  | cons a args ih => rw [List.foldl_cons, List.foldl_cons, ih, erase_addArg]

theorem erase_addValue (f : Nat) (block : BlockRef) (v : Value) (args : List ValueRef) :
    m.erase.addValue f block v.erase args = (m.addValue f block v args).map id erase := by
  have hlength : ((m.erase.funcs[f]?).map (·.values.length)).getD 0 =
      ((m.funcs[f]?).map (·.values.length)).getD 0 := by
    rw [erase, List.getElem?_map]
    cases m.funcs[f]? <;> simp [Func.erase]
  simp only [addValue, hlength, Prod.map, id]
  rw [erase_modifyBlock, erase_addArgs, erase_modifyFunc]
  intro g
  simp [Func.erase, Value.erase]

theorem erase_setReturn (block : BlockRef) (r : ValueRef) :
    m.erase.setReturn block (some r) = (m.setReturn block (some r)).erase := by
  simp only [setReturn, setControl]
  rw [erase_countUse, erase_modifyBlock, erase_modifyBlock]

theorem erase_freshSymbol (name : String) :
    m.erase.freshSymbol name = (m.freshSymbol name).map id erase := by
  have hsymbols : m.erase.symbols = m.symbols := rfl
  rw [freshSymbol, freshSymbol, hsymbols]
  cases m.symbols.lookup name <;> rfl

theorem erase_addDeclaration (name : String) (sig : Signature) (external : Bool)
    (names : List String) : m.erase.addDeclaration name sig external names =
      (m.addDeclaration name sig external names).map id erase := by
  simp only [addDeclaration, erase_freshSymbol]
  simp [erase, Func.erase]

theorem erase_addBlock (f : Nat) (kind : BlockKind) :
    (m.addBlock f kind).erase = m.erase.addBlock f kind := by
  apply erase_modifyFunc
  intro g
  rfl

theorem erase_addFunc (name : String) (sig : Signature) (names : List String) :
    m.erase.addFunc name sig names = (m.addFunc name sig names).map id erase := by
  simp only [addFunc, erase_addDeclaration, Prod.map, id]
  rw [erase_modifyFunc, erase_addBlock]
  intro g
  rfl

theorem name_erase (f : Nat) : m.erase.funcs[f]?.map (·.name) = m.funcs[f]?.map (·.name) := by
  rw [erase, List.getElem?_map, Option.map_map]
  rfl

theorem erase_internString (data : List UInt8) :
    m.erase.internString data = (m.internString data).map id erase := by
  have hglobals : m.erase.globals = m.globals := rfl
  rw [internString, internString, hglobals]
  cases m.globals.findIdx? (·.data = data) <;> rfl

end IR.Module

namespace Lowering

/-! ## Steps of lowering -/

variable {α β γ δ : Type}

/-- An outcome without positions, if `g` forgets those of the result. -/
def eraseResult (g : α → β) :
    EStateM.Result LoweringError Builder α → EStateM.Result LoweringError Builder β
  | .ok a b => .ok (g a) b.erase
  | .error e b => .error e.erase b.erase

/-- The step `y` does on a state without positions what is left of the step `x` when they are
forgotten. -/
def Erases (g : α → β) (x : Lowering α) (y : Lowering β) : Prop :=
  ∀ b, y b.erase = eraseResult g (x b)

theorem erase_closeScope (b : Builder) : b.erase.closeScope = b.closeScope.erase := by
  have henv : b.erase.env = b.env := rfl
  simp only [Builder.closeScope, henv]
  cases b.env.scopes with
  | nil => rfl
  | cons s outer => simp [Builder.erase, Event.erase]

theorem paramNames_eraseAll (i : Nat) (ps : List Expr) : paramNames i (Expr.eraseAll ps) =
    ((paramNames i ps).map (·.map Ident.erase)).mapError LoweringError.erase := by
  induction ps generalizing i with
  | nil => rfl
  | cons p ps ih =>
    cases p with
    | name id =>
      simp only [Expr.eraseAll, Expr.erase, paramNames, ih]
      cases paramNames (i + 1) ps <;> rfl
    | _ => rfl

namespace Erases

theorem pure {g : α → β} (a : α) : Erases g (pure a) (pure (g a)) := fun _ => rfl

theorem bind {g : α → β} {h : γ → δ} {x : Lowering α} {y : Lowering β} {k : α → Lowering γ}
    {l : β → Lowering δ} (hx : Erases g x y) (hk : ∀ a, Erases h (k a) (l (g a))) :
    Erases h (x >>= k) (y >>= l) := by
  intro b
  have hb := hx b
  cases hr : x b with
  | ok a b' =>
    rw [hr] at hb
    rw [Outcome.bind_ok hb, Outcome.bind_ok hr]
    exact hk a b'
  | error e b' =>
    rw [hr] at hb
    rw [Outcome.bind_error hb, Outcome.bind_error hr]
    rfl

theorem map {g : α → β} {h : γ → δ} {x : Lowering α} {y : Lowering β} {f : α → γ} {f' : β → δ}
    (hx : Erases g x y) (hf : ∀ a, f' (g a) = h (f a)) : Erases h (f <$> x) (f' <$> y) := by
  rw [map_eq_pure_bind, map_eq_pure_bind]
  refine hx.bind fun a => ?_
  rw [hf]
  exact .pure _

theorem fail {g : α → β} (pos : Position) (fault : LoweringFault) :
    Erases g (fail pos fault) (fail {} fault) := fun _ => rfl

theorem get : Erases Builder.erase get get := fun _ => rfl

theorem modify {f f' : Builder → Builder} (h : ∀ b, f' b.erase = (f b).erase) :
    Erases id (modify f) (modify f') := by
  intro b
  show EStateM.Result.ok PUnit.unit (f' b.erase) = .ok PUnit.unit (f b).erase
  rw [h]

theorem modifyGet {g : α → β} {f : Builder → α × Builder} {f' : Builder → β × Builder}
    (h : ∀ b, f' b.erase = (f b).map g Builder.erase) :
    Erases g (modifyGet f) (modifyGet f') := by
  intro b
  show (match f' b.erase with | (a, s) => EStateM.Result.ok a s) = _
  rw [h]
  rfl

theorem ite {g : α → β} {c : Prop} [Decidable c] {x x' : Lowering α} {y y' : Lowering β}
    (h : Erases g x y) (h' : Erases g x' y') :
    Erases g (if c then x else x') (if c then y else y') := by
  split
  · exact h
  · exact h'

/-- What follows a failure does not matter. -/
theorem fail_bind {g : γ → δ} (pos : Position) (fault : LoweringFault) {k : α → Lowering γ}
    {l : β → Lowering δ} : Erases g (Lowering.fail pos fault >>= k) (Lowering.fail {} fault >>= l) :=
  fun _ => rfl

theorem emitEvent (e : Event) : Erases id (emitEvent e) (emitEvent e.erase) :=
  .modify fun b => by simp [Builder.erase]

theorem emit (v : Value) (args : List ValueRef) : Erases id (emit v args) (emit v.erase args) := by
  refine .modifyGet fun b => ?_
  have hvalue := b.module.erase_addValue b.site.func b.site v args
  show ((b.module.erase.addValue b.site.func b.site v.erase args).1,
    { b.erase with module := (b.module.erase.addValue b.site.func b.site v.erase args).2 }) = _
  rw [hvalue]
  rfl

theorem emitSlot (elem : Ty) (name : String) (pos : Position) :
    Erases id (emitSlot elem name pos) (emitSlot elem name {}) := .emit _ _

theorem emitStore (slot v : ValueRef) (pos : Position) :
    Erases id (emitStore slot v pos) (emitStore slot v {}) :=
  (emit _ _).bind fun _ => .pure _

theorem emitRead (x : Operand) (pos : Position) : Erases id (emitRead x pos) (emitRead x {}) :=
  .ite (.emit _ _) (.pure _)

theorem emitFuncAddr (f : Nat) (sig : Signature) (pos : Position) :
    Erases id (emitFuncAddr f sig pos) (emitFuncAddr f sig {}) :=
  (emit _ _).bind fun _ => .pure _

theorem bindVar (v : Binding) : Erases id (bindVar v) (bindVar v) := .modify fun _ => rfl

theorem stringLiteral (pos : Position) (content : String) :
    Erases id (stringLiteral pos content) (stringLiteral {} content) := by
  refine bind (g := id) (.modifyGet fun b => ?_) fun g => (emit _ _).bind fun r => .pure _
  let data := Text.Utf8.ofString (String.ofList (unescape content.toList))
  show ((b.module.erase.internString data).1,
    { b.erase with module := (b.module.erase.internString data).2 }) = _
  rw [Module.erase_internString]
  rfl

theorem nameValue (x : Ident) : Erases id (nameValue x) (nameValue x.erase) := by
  refine get.bind fun b => ?_
  have henv : b.erase.env = b.env := rfl
  have hname : x.erase.name = x.name := rfl
  dsimp only
  rw [henv, hname]
  cases b.env.findVar? x.name with
  | some v => exact .pure _
  | none =>
    cases b.env.findFunc? x.name with
    | some c => exact .emitFuncAddr _ _ _
    | none => exact .fail _ _

theorem assignValue (pos : Position) (name : String) (x : Operand) :
    Erases id (assignValue pos name x) (assignValue {} name x) := by
  refine (emitRead x pos).bind fun v => get.bind fun b => ?_
  have henv : b.erase.env = b.env := rfl
  dsimp only
  rw [henv]
  refine .ite (.fail_bind _ _) ?_
  have hstore (slot : ValueRef) : Erases id
      (do
        Lowering.emitStore slot v pos
        Lowering.bindVar { name, slot, elem := x.type, sig := x.sig }
        return ({ ref := v, type := x.type, sig := x.sig } : Operand))
      (do
        Lowering.emitStore slot v {}
        Lowering.bindVar { name, slot, elem := x.type, sig := x.sig }
        return { ref := v, type := x.type, sig := x.sig }) :=
    (emitStore slot v pos).bind fun _ => (bindVar _).bind fun _ => .pure _
  cases b.env.findVar? name with
  | some old => exact .ite (.fail_bind _ _) (bind (.pure old.slot) hstore)
  | none => exact (emitSlot _ _ _).bind hstore

theorem callTarget (pos : Position) (name : String) :
    Erases id (callTarget pos name) (callTarget {} name) := by
  refine get.bind fun b => ?_
  have henv : b.erase.env = b.env := rfl
  dsimp only
  rw [henv]
  cases b.env.findFunc? name with
  | some c => exact .pure _
  | none =>
    cases b.env.findVar? name with
    | none => exact .fail _ _
    | some v =>
      cases v with
      | mk _ _ _ sig =>
        cases sig with
        | some sig => exact .pure _
        | none => exact .fail _ _

theorem readArgs (name : String) (i : Nat) (types : List Ty) (args : List (Position × Operand)) :
    Erases id (readArgs name i types args)
      (Lowering.readArgs name i types (args.map (Prod.map (fun _ => {}) id))) := by
  induction args generalizing i types with
  | nil => exact .pure _
  | cons a args ih =>
    refine (emitRead a.2 a.1).bind fun v => ?_
    have hrest : Erases id (do return v :: (← Lowering.readArgs name (i + 1) types.tail args))
        (do return v :: (← Lowering.readArgs name (i + 1) types.tail
          (args.map (Prod.map (fun _ => {}) id)))) :=
      (ih _ _).bind fun _ => .pure _
    dsimp only
    cases types.head? with
    | none => exact hrest
    | some t => exact .ite (.fail_bind _ _) hrest

theorem callNamed (pos : Position) (name : String) (args : List (Position × Operand)) :
    Erases id (callNamed pos name args)
      (Lowering.callNamed {} name (args.map (Prod.map (fun _ => {}) id))) := by
  refine (callTarget pos name).bind fun t => ?_
  obtain ⟨target, sig⟩ := t
  dsimp only [id]
  rw [List.length_map]
  refine .ite (.fail_bind _ _) ((readArgs name 0 sig.params args).bind fun vals => ?_)
  have hkeep (r : ValueRef) : Erases id
      (do
        let slot ← Lowering.emitSlot sig.result name pos
        Lowering.emitStore slot r pos
        return ({ ref := slot, type := sig.result, isSlot := true } : Operand))
      (do
        let slot ← Lowering.emitSlot sig.result name {}
        Lowering.emitStore slot r {}
        return { ref := slot, type := sig.result, isSlot := true }) :=
    (emitSlot _ _ _).bind fun slot => (emitStore slot r pos).bind fun _ => .pure _
  cases target with
  | direct f => exact (emit _ _).bind hkeep
  | indirect slot => exact (emit _ _).bind fun _ => (emit _ _).bind hkeep

theorem declareFunc (target : Ident) (pos : Position) (params : List Expr) :
    Erases (Prod.map id (List.map Ident.erase)) (declareFunc target pos params)
      (Lowering.declareFunc target.erase {} (Expr.eraseAll params)) := by
  refine get.bind fun b => ?_
  have henv : b.erase.env = b.env := rfl
  have hname : target.erase.name = target.name := rfl
  dsimp only
  rw [henv, hname, paramNames_eraseAll]
  refine .ite (.fail_bind _ _) ?_
  cases paramNames 0 params with
  | error e => exact .fail_bind _ _
  | ok names =>
    refine bind (g := List.map Ident.erase) (.pure names) fun names => ?_
    have hlength : (names.map Ident.erase).length = names.length := List.length_map _
    have hnames : (names.map Ident.erase).map (·.name) = names.map (·.name) := by
      rw [List.map_map]
      rfl
    rw [hlength, hnames]
    -- the symbol that is reported is that of the function which was just added
    refine bind (g := id) (.modifyGet fun b => ?_) fun x =>
      (emitEvent (.function target.name x.2 (names.map (·.name)) pos)).bind fun _ =>
        .pure (x.1, names)
    have hmodule : b.erase.module = b.module.erase := rfl
    rw [hmodule, Module.erase_addFunc]
    simp only [Prod.map, id, Module.name_erase]
    rfl

theorem spillParams (i : Nat) (params : List Ident) :
    Erases id (spillParams i params) (Lowering.spillParams i (params.map Ident.erase)) := by
  induction params generalizing i with
  | nil => exact .pure _
  | cons p ps ih =>
    exact (emit _ _).bind fun arg => (emitSlot _ _ _).bind fun slot =>
      (emitStore slot arg p.pos).bind fun _ => (bindVar _).bind fun _ => ih (i + 1)

theorem returnTail (name : String) (pos : Position) (tail : Option (Position × Operand)) :
    Erases id (returnTail name pos tail)
      (Lowering.returnTail name {} (tail.map (Prod.map (fun _ => {}) id))) := by
  cases tail with
  | none => exact .fail _ _
  | some x =>
    refine (emitRead x.2 x.1).bind fun v => .ite (.fail_bind _ _) (.modify fun b => ?_)
    show ({ b.erase with module := b.module.erase.setReturn b.site (some v) } : Builder) = _
    rw [Module.erase_setReturn]
    rfl

theorem inScope {g : α → β} {x : Lowering α} {y : Lowering β} (title : String) (site : BlockRef)
    (h : Erases g x y) :
    Erases g (Builder.inScope title site x) (Builder.inScope title site y) := by
  intro b
  have hb := h { b with env := b.env.openScope title, site }
  have hleave (b' : Builder) : ({ b'.erase.closeScope with site := b.site } : Builder) =
      ({ b'.closeScope with site := b.site } : Builder).erase := by
    rw [erase_closeScope]
    rfl
  show (match y ({ b with env := b.env.openScope title, site } : Builder).erase with
    | .ok a b' => EStateM.Result.ok a { b'.closeScope with site := b.site }
    | .error e b' => .error e { b'.closeScope with site := b.site }) = _
  rw [hb]
  simp only [Builder.inScope]
  cases x { b with env := b.env.openScope title, site } with
  | ok a b' => exact congrArg _ (hleave b')
  | error e b' => exact congrArg _ (hleave b')

end Erases

theorem assign_erases {value : Expr} (h : ∀ pos params body, value ≠ .function pos params body)
    (hvalue : Erases id (expr value) (expr value.erase)) (pos : Position) (target : Ident) :
    Erases id (expr (.assign pos target value)) (expr (Expr.assign pos target value).erase) := by
  -- without positions, too, this is not the definition of a function
  have h' : ∀ pos params body, value.erase ≠ .function pos params body := by
    cases value with
    | function pos params body => exact absurd rfl (h pos params body)
    | _ => simp [Expr.erase]
  rw [Expr.erase, expr_assign h, expr_assign h']
  exact hvalue.bind fun x => .assignValue pos target.name x

mutual

/-- Lowering a tree without positions does what is left of lowering the tree. -/
theorem expr_erases : ∀ e : Expr, Erases id (expr e) (expr e.erase)
  | .int pos n => by
    rw [Expr.erase, expr, expr]
    exact (Erases.emit _ _).bind fun _ => .pure _
  | .name x => by
    rw [Expr.erase, expr, expr]
    exact .nameValue x
  | .string pos content => by
    rw [Expr.erase, expr, expr]
    exact .stringLiteral pos content
  | .assign pos target value => by
    have hvalue := expr_erases value
    cases value with
    | function fpos params body =>
      rw [Expr.erase, Expr.erase, expr, expr]
      refine (Erases.declareFunc target fpos params).bind fun x => ?_
      refine (Erases.inScope (g := id) _ _ ?_).bind fun _ => ?_
      · refine (Erases.spillParams 0 x.2).bind fun _ => ?_
        exact (sequence_erases body).bind fun t => .returnTail target.name fpos t
      · have hlength : (x.2.map Ident.erase).length = x.2.length := List.length_map _
        show Erases id _ (emitFuncAddr x.1 (Builder.userSignature (x.2.map Ident.erase).length) {})
        rw [hlength]
        exact .emitFuncAddr _ _ _
    | _ =>
      exact assign_erases (by simp) hvalue pos target
  | .call pos callee args => by
    rw [Expr.erase, expr, expr]
    exact (arguments_erases args).bind fun xs => .callNamed pos callee.name xs
  | .function pos params body => by
    rw [Expr.erase, expr, expr]
    exact .fail _ _
  | .absent => by
    rw [Expr.erase, expr]
    · exact .fail _ _
    all_goals simp
  | .infixTail pos op rhs => by
    rw [Expr.erase, expr, expr]
    · exact .fail _ _
    all_goals simp
  | .empty pos => by
    rw [Expr.erase, expr, expr]
    · exact .fail _ _
    all_goals simp

theorem arguments_erases : ∀ es : List Expr, Erases (List.map (Prod.map (fun _ => {}) id))
    (arguments es) (arguments (Expr.eraseAll es))
  | [] => by
    rw [Expr.eraseAll, arguments]
    exact .pure _
  | e :: es => by
    rw [Expr.eraseAll, arguments, arguments, Expr.pos_erase]
    exact (expr_erases e).bind fun x => (arguments_erases es).bind fun xs => .pure ((e.pos, x) :: xs)

theorem sequence_erases : ∀ es : List Expr, Erases (Option.map (Prod.map (fun _ => {}) id))
    (sequence es) (sequence (Expr.eraseAll es))
  | [] => by
    rw [Expr.eraseAll, sequence]
    exact .pure _
  | e :: es => by
    rw [Expr.eraseAll, sequence, sequence, Expr.pos_erase]
    refine (expr_erases e).bind fun x => (sequence_erases es).bind fun t => ?_
    cases t with
    | some last => exact .pure (some last)
    | none => exact .pure (some (e.pos, x))

end

theorem topLevel_erases (i : Nat) (es : List Expr) :
    Erases id (topLevel i es) (topLevel i (Expr.eraseAll es)) := by
  induction es generalizing i with
  | nil => exact .pure _
  | cons e es ih =>
    rw [Expr.eraseAll, topLevel, topLevel, Expr.pos_erase, Expr.kind_erase]
    exact (Erases.emitEvent (.expression i e.kind e.pos)).bind fun _ =>
      (expr_erases e).bind fun _ => ih (i + 1)

end Lowering

end Wordlang
