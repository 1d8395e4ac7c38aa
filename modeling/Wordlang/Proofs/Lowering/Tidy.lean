import Wordlang.Proofs.Lowering.Verified

/-!
# What lowering leaves in a module

Beside obeying the typing rules, a module that lowering builds is tidy: every function returns an
integer, the address of a constant is that of one of the module, and the texts in it that are later
written as they are (its name, its target triple and the names of slots) are those that lowering was
given. Each change that lowering makes to a module keeps it tidy, and hence lowering does, also where
it fails.
-/

namespace Wordlang

open IR Outcome

mutual

/-- The names in an expression. -/
def Expr.names : Expr → List String
  | .name id => [id.name]
  | .assign _ target value => target.name :: value.names
  | .call _ callee args => callee.name :: namesAll args
  | .function _ params body => namesAll params ++ namesAll body
  | .infixTail _ op rhs => op.name :: rhs.names
  | _ => []

/-- The names in expressions. -/
def Expr.namesAll : List Expr → List String
  | [] => []
  | e :: es => e.names ++ namesAll es

end

namespace IR

variable {q : String → Prop} {n : Nat}

/-- The value refers to one of `n` constants if to any, and the name of a slot satisfies `q`. -/
structure Value.Tidy (q : String → Prop) (n : Nat) (v : Value) : Prop where
  global : ∀ g, v.aux = .global g → g < n
  name : v.op = .alloca → ∃ s, v.aux = .name s ∧ q s

/-- The function returns an integer, and its values are tidy. -/
structure Func.Tidy (q : String → Prop) (n : Nat) (f : Func) : Prop where
  result : ∀ s, f.sig = some s → s.result = .i32
  values : ∀ v ∈ f.values, v.Tidy q n

/-- The functions of a module are tidy, and its name and its target triple satisfy `q`. -/
structure Module.Tidy (q : String → Prop) (m : Module) : Prop where
  name : q m.name
  triple : q m.triple
  funcs : ∀ f ∈ m.funcs, f.Tidy q m.globals.length

theorem Func.Tidy.mono {f : Func} {n' : Nat} (h : f.Tidy q n) (hn : n ≤ n') : f.Tidy q n' := by
  refine ⟨h.result, ?_⟩
  intro v hv
  obtain ⟨hglobal, hname⟩ := h.values v hv
  exact ⟨fun g hg => Nat.lt_of_lt_of_le (hglobal g hg) hn, hname⟩

theorem forall_mem_modify {α : Type} {P : α → Prop} {g : α → α} (hg : ∀ a, P a → P (g a))
    {l : List α} (h : ∀ a ∈ l, P a) (i : Nat) : ∀ a ∈ l.modify i g, P a := by
  intro a ha
  obtain ⟨j, hj⟩ := List.getElem?_of_mem ha
  rw [List.getElem?_modify] at hj
  obtain ⟨b, hb, rfl⟩ := Option.map_eq_some_iff.1 hj
  have hpb := h b (List.mem_of_getElem? hb)
  split
  · exact hg b hpb
  · exact hpb

/-! ## Changes of a module -/

namespace Module.Tidy

variable {m : Module}

theorem modifyFunc (h : m.Tidy q) {g : Func → Func}
    (hg : ∀ f, f.Tidy q m.globals.length → (g f).Tidy q m.globals.length) (i : Nat) :
    (m.modifyFunc i g).Tidy q :=
  ⟨h.name, h.triple, forall_mem_modify hg h.funcs i⟩

theorem modifyBlock (h : m.Tidy q) (r : BlockRef) (g : Block → Block) :
    (m.modifyBlock r g).Tidy q := by
  refine h.modifyFunc ?_ _
  intro f hf
  exact ⟨hf.result, hf.values⟩

theorem modifyValue (h : m.Tidy q) (r : ValueRef) {g : Value → Value}
    (hg : ∀ v, (g v).op = v.op ∧ (g v).aux = v.aux) : (m.modifyValue r g).Tidy q := by
  refine h.modifyFunc ?_ _
  intro f hf
  refine ⟨hf.result, forall_mem_modify ?_ hf.values _⟩
  intro v hv
  obtain ⟨hop, haux⟩ := hg v
  refine ⟨?_, ?_⟩
  · rw [haux]
    exact hv.global
  · rw [hop, haux]
    exact hv.name

theorem countUse (h : m.Tidy q) (r : ValueRef) : (m.countUse r).Tidy q := by
  refine h.modifyValue r ?_
  intro v
  exact ⟨rfl, rfl⟩

theorem addArg (h : m.Tidy q) (r a : ValueRef) : (m.addArg r a).Tidy q := by
  refine countUse (h.modifyValue r ?_) a
  intro v
  exact ⟨rfl, rfl⟩

theorem foldl_addArg (h : m.Tidy q) (r : ValueRef) (args : List ValueRef) :
    (args.foldl (fun m a => m.addArg r a) m).Tidy q := by
  induction args generalizing m with
  | nil => exact h
  | cons a args ih => exact ih (h.addArg r a)

theorem addValue (h : m.Tidy q) {v : Value} (hv : v.Tidy q m.globals.length) (f : Nat)
    (b : BlockRef) (args : List ValueRef) : (m.addValue f b v args).2.Tidy q := by
  refine modifyBlock (foldl_addArg (h.modifyFunc ?_ f) _ args) b _
  intro x hx
  refine ⟨hx.result, ?_⟩
  intro w hw
  rcases List.mem_append.1 hw with hw | hw
  · exact hx.values w hw
  · obtain rfl := List.mem_singleton.1 hw
    exact ⟨hv.global, hv.name⟩

theorem setReturn (h : m.Tidy q) (b : BlockRef) (r : ValueRef) :
    (m.setReturn b (some r)).Tidy q :=
  countUse ((h.modifyBlock b _).modifyBlock b _) r

theorem internString (h : m.Tidy q) (data : List UInt8) :
    (m.internString data).2.Tidy q ∧
      (m.internString data).1 < (m.internString data).2.globals.length := by
  unfold Module.internString
  split
  · next i hi =>
    exact ⟨h, (List.findIdx?_eq_some_iff_getElem.1 hi).1⟩
  · refine ⟨⟨h.name, h.triple, ?_⟩, by simp⟩
    intro f hf
    exact (h.funcs f hf).mono (by simp)

theorem addFunc (h : m.Tidy q) (name : String) (arity : Nat) (params : List String) :
    (m.addFunc name (Builder.userSignature arity) params).2.Tidy q := by
  have hfresh : (m.freshSymbol name).2.Tidy q := by
    unfold freshSymbol
    split
    · exact ⟨h.name, h.triple, h.funcs⟩
    · exact ⟨h.name, h.triple, h.funcs⟩
  have hdeclared :
      (m.addDeclaration name (Builder.userSignature arity) false params).2.Tidy q := by
    refine ⟨hfresh.name, hfresh.triple, ?_⟩
    intro f hf
    rcases List.mem_append.1 hf with hf | hf
    · exact hfresh.funcs f hf
    · obtain rfl := List.mem_singleton.1 hf
      refine ⟨?_, by simp⟩
      rintro s ⟨⟩
      rfl
  refine modifyFunc (modifyFunc hdeclared ?_ _) ?_ _
  · intro f hf
    exact ⟨hf.result, hf.values⟩
  · intro f hf
    exact ⟨hf.result, hf.values⟩

end Module.Tidy

end IR

/-! ## Lowering -/

namespace Lowering

variable {q : String → Prop} {α β : Type}

/-- Whether it succeeds or fails, the step leaves a tidy module. -/
def KeepsTidy (q : String → Prop) (x : Lowering α) : Prop :=
  ∀ b, b.module.Tidy q → Ends (x b) (fun _ b' => b'.module.Tidy q) (fun b' => b'.module.Tidy q)

namespace KeepsTidy

theorem bind {x : Lowering α} {k : α → Lowering β} (hx : KeepsTidy q x)
    (hk : ∀ a, KeepsTidy q (k a)) : KeepsTidy q (x >>= k) :=
  fun b hb => (hx b hb).bind fun a b' hb' => hk a b' hb'

theorem pure (a : α) : KeepsTidy q (Pure.pure a : Lowering α) := fun _ hb => hb

theorem fail (pos : Position) (fault : LoweringFault) :
    KeepsTidy q (Lowering.fail pos fault : Lowering α) := fun _ hb => hb

/-- What would follow a failure does not matter. -/
theorem fail_bind (pos : Position) (fault : LoweringFault) (k : α → Lowering β) :
    KeepsTidy q (Lowering.fail pos fault >>= k) := fun _ hb => hb

theorem get : KeepsTidy q (MonadState.get : Lowering Builder) := fun _ hb => hb

theorem emitEvent (e : Event) : KeepsTidy q (Lowering.emitEvent e) := fun _ hb => hb

theorem bindVar (v : Binding) : KeepsTidy q (Lowering.bindVar v) := fun _ hb => hb

/-- A value that is neither the address of a constant nor a slot may be appended. -/
theorem emit {v : Value} (hglobal : ∀ g, v.aux ≠ .global g) (hop : v.op ≠ .alloca)
    (args : List ValueRef) : KeepsTidy q (Lowering.emit v args) := by
  intro b hb
  refine hb.addValue ⟨fun g hg => absurd hg (hglobal g), fun h => absurd h hop⟩ _ _ _

theorem emitSlot (elem : Ty) {name : String} (hname : q name) (pos : Position) :
    KeepsTidy q (Lowering.emitSlot elem name pos) := by
  intro b hb
  exact hb.addValue ⟨by simp, fun _ => ⟨name, rfl, hname⟩⟩ _ _ _

theorem emitStore (slot v : ValueRef) (pos : Position) :
    KeepsTidy q (Lowering.emitStore slot v pos) :=
  (emit (by simp) (by simp) _).bind fun _ => pure _

theorem emitRead (x : Operand) (pos : Position) : KeepsTidy q (Lowering.emitRead x pos) := by
  unfold Lowering.emitRead
  split
  · exact emit (by simp) (by simp) _
  · exact pure _

theorem emitFuncAddr (f : Nat) (sig : Signature) (pos : Position) :
    KeepsTidy q (Lowering.emitFuncAddr f sig pos) :=
  (emit (by simp) (by simp) _).bind fun _ => pure _

theorem nameValue (id : Ident) : KeepsTidy q (Lowering.nameValue id) := by
  refine get.bind fun b => ?_
  dsimp only
  split
  · exact pure _
  · split
    · exact emitFuncAddr _ _ _
    · exact fail _ _

theorem stringLiteral (pos : Position) (content : String) :
    KeepsTidy q (Lowering.stringLiteral pos content) := by
  intro b hb
  obtain ⟨htidy, hlt⟩ :=
    hb.internString (Text.Utf8.ofString (String.ofList (unescape content.toList)))
  refine htidy.addValue ⟨?_, by simp⟩ b.site.func b.site []
  rintro g ⟨⟩
  exact hlt

theorem assignValue (pos : Position) {name : String} (hname : q name) (x : Operand) :
    KeepsTidy q (Lowering.assignValue pos name x) := by
  have hstore : ∀ slot v, KeepsTidy q (do
      Lowering.emitStore slot v pos
      Lowering.bindVar { name, slot, elem := x.type, sig := x.sig }
      return ({ ref := v, type := x.type, sig := x.sig } : Operand)) :=
    fun slot v => (emitStore slot v pos).bind fun _ => (bindVar _).bind fun _ => pure _
  refine (emitRead x pos).bind fun v => get.bind fun b => ?_
  dsimp only
  split
  · exact fail_bind _ _ _
  · split
    · split
      · exact fail_bind _ _ _
      · exact (pure _).bind fun slot => hstore slot v
    · exact (emitSlot _ hname _).bind fun slot => hstore slot v

theorem callTarget (pos : Position) (name : String) :
    KeepsTidy q (Lowering.callTarget pos name) := by
  refine get.bind fun b => ?_
  dsimp only
  split
  · exact pure _
  · split
    · split
      · exact pure _
      · exact fail _ _
    · exact fail _ _

theorem readArgs (name : String) (i : Nat) (types : List Ty) (xs : List (Position × Operand)) :
    KeepsTidy q (Lowering.readArgs name i types xs) := by
  induction xs generalizing i types with
  | nil => exact pure _
  | cons a xs ih =>
    obtain ⟨pos, x⟩ := a
    have hrest : ∀ v, KeepsTidy q (do return v :: (← Lowering.readArgs name (i + 1) types.tail xs)) :=
      fun v => (ih (i + 1) types.tail).bind fun _ => pure _
    rw [Lowering.readArgs]
    refine (emitRead x pos).bind fun v => ?_
    dsimp only
    split
    · split
      · exact fail_bind _ _ _
      · exact hrest v
    · exact hrest v

theorem callNamed (pos : Position) {name : String} (hname : q name)
    (args : List (Position × Operand)) : KeepsTidy q (Lowering.callNamed pos name args) := by
  refine (callTarget pos name).bind fun target => ?_
  obtain ⟨target, sig⟩ := target
  have hkeep : ∀ r, KeepsTidy q (do
      let slot ← Lowering.emitSlot sig.result name pos
      Lowering.emitStore slot r pos
      return ({ ref := slot, type := sig.result, isSlot := true } : Operand)) :=
    fun r => (emitSlot _ hname _).bind fun slot => (emitStore slot r pos).bind fun _ => pure _
  dsimp only
  split
  · exact fail_bind _ _ _
  · refine (readArgs name 0 sig.params args).bind fun vals => ?_
    split
    · exact (emit (by simp) (by simp) _).bind hkeep
    · exact (emit (by simp) (by simp) _).bind fun _ => (emit (by simp) (by simp) _).bind hkeep

theorem declareFunc (target : Ident) (pos : Position) (params : List Expr) :
    KeepsTidy q (Lowering.declareFunc target pos params) := by
  refine get.bind fun b => ?_
  dsimp only
  split
  · exact fail_bind _ _ _
  · split
    · next names _ =>
      refine (pure names).bind fun names => bind ?_ fun _ => (emitEvent _).bind fun _ => pure _
      intro b hb
      exact hb.addFunc _ _ _
    · exact fun _ hb => hb

theorem spillParams (i : Nat) {ps : List Ident} (hps : ∀ p ∈ ps, q p.name) :
    KeepsTidy q (Lowering.spillParams i ps) := by
  induction ps generalizing i with
  | nil => exact pure _
  | cons p ps ih =>
    obtain ⟨hp, hps⟩ := List.forall_mem_cons.1 hps
    refine (emit (by simp [Builder.argValue]) (by simp [Builder.argValue]) _).bind fun arg => ?_
    refine (emitSlot _ hp _).bind fun slot => (emitStore _ _ _).bind fun _ => ?_
    exact (bindVar _).bind fun _ => ih (i + 1) hps

theorem returnTail (name : String) (pos : Position) (tail : Option (Position × Operand)) :
    KeepsTidy q (Lowering.returnTail name pos tail) := by
  have hreturn : ∀ v, KeepsTidy q
      (modify fun b => { b with module := b.module.setReturn b.site (some v) }) := by
    intro v b hb
    exact hb.setReturn b.site v
  cases tail with
  | none => exact fail _ _
  | some last =>
    obtain ⟨last, x⟩ := last
    refine (emitRead x last).bind fun v => ?_
    dsimp only
    split
    · exact fail_bind _ _ _
    · exact hreturn v

theorem inScope {x : Lowering α} (hx : KeepsTidy q x) (title : String) (site : BlockRef) :
    KeepsTidy q (Builder.inScope title site x) := by
  intro b hb
  have h := hx { b with env := b.env.openScope title, site } hb
  unfold Builder.inScope
  cases hr : x { b with env := b.env.openScope title, site } with
  | ok a b' =>
    rw [hr] at h
    show b'.closeScope.module.Tidy q
    rw [(closeScope_eq b').1]
    exact h
  | error e b' =>
    rw [hr] at h
    show b'.closeScope.module.Tidy q
    rw [(closeScope_eq b').1]
    exact h

end KeepsTidy

theorem namesAll_map_name (names : List Ident) :
    Expr.namesAll (names.map .name) = names.map (·.name) := by
  induction names with
  | nil => rfl
  | cons id names ih =>
    rw [List.map_cons, Expr.namesAll, Expr.names, ih]
    rfl

theorem names_of_paramNames {i : Nat} {params : List Expr} {names : List Ident}
    (h : paramNames i params = .ok names) :
    ∀ p ∈ names, p.name ∈ Expr.namesAll params := by
  intro p hp
  rw [params_eq_of_paramNames h, namesAll_map_name]
  exact List.mem_map_of_mem hp

theorem declareFunc_ok {target : Ident} {pos : Position} {params : List Expr} {b b' : Builder}
    {f : Nat} {names : List Ident} (h : declareFunc target pos params b = .ok (f, names) b') :
    paramNames 0 params = .ok names := by
  have hget : (get : Lowering Builder) b = .ok b b := rfl
  rw [declareFunc, bind_ok hget] at h
  cases hv : b.env.findVarAnywhere? target.name with
  | some v =>
    rw [hv] at h
    cases h
  | none =>
    rw [hv] at h
    cases hp : paramNames 0 params with
    | error e =>
      rw [hp] at h
      cases h
    | ok names' =>
      rw [hp] at h
      cases h
      rfl

theorem function_keepsTidy {params body : List Expr} (hparams : ∀ n ∈ Expr.namesAll params, q n)
    (hbody : KeepsTidy q (sequence body)) (p : Position) (target : Ident) (pos : Position) :
    KeepsTidy q (expr (.assign p target (.function pos params body))) := by
  intro b hb
  have hdeclared := KeepsTidy.declareFunc target pos params b hb
  rw [expr]
  cases hr : declareFunc target pos params b with
  | error e b' =>
    rw [hr] at hdeclared
    rw [bind_error hr]
    exact hdeclared
  | ok fn b' =>
    obtain ⟨f, names⟩ := fn
    rw [hr] at hdeclared
    rw [bind_ok hr]
    -- the parameters are known to be names only now that they have been declared
    have hnames : ∀ p ∈ names, q p.name := fun p hp =>
      hparams _ (names_of_paramNames (declareFunc_ok hr) p hp)
    have hinside : KeepsTidy q (do
        spillParams 0 names
        returnTail target.name pos (← sequence body)) :=
      (KeepsTidy.spillParams 0 hnames).bind fun _ =>
        hbody.bind fun tail => KeepsTidy.returnTail target.name pos tail
    have hall := (hinside.inScope ("function " ++ target.name) ⟨f, 0⟩).bind fun _ =>
      KeepsTidy.emitFuncAddr f (Builder.userSignature names.length) pos
    exact hall b' hdeclared

mutual

/-- Lowering keeps a module tidy if the names in the expression are as they should be. -/
theorem expr_keepsTidy : ∀ e : Expr, (∀ n ∈ e.names, q n) → KeepsTidy q (expr e)
  | .int pos n, _ => by
    rw [expr]
    exact (KeepsTidy.emit (by simp) (by simp) _).bind fun _ => .pure _
  | .name id, _ => by
    rw [expr]
    exact .nameValue id
  | .string pos content, _ => by
    rw [expr]
    exact .stringLiteral pos content
  | .assign p target value, h => by
    rw [Expr.names, List.forall_mem_cons] at h
    have hvalue := expr_keepsTidy value h.2
    cases value with
    | function pos params body =>
      rw [Expr.names, List.forall_mem_append] at h
      exact function_keepsTidy h.2.1 (sequence_keepsTidy body h.2.2) p target pos
    | _ =>
      rw [expr_assign (by simp)]
      exact hvalue.bind fun x => .assignValue p h.1 x
  | .call pos callee args, h => by
    rw [Expr.names, List.forall_mem_cons] at h
    rw [expr]
    exact (arguments_keepsTidy args h.2).bind fun xs => .callNamed pos h.1 xs
  | .function pos params body, _ => by
    rw [expr]
    exact .fail _ _
  | .absent, _ => by
    rw [expr]
    · exact .fail _ _
    all_goals simp
  | .infixTail pos op rhs, _ => by
    rw [expr]
    · exact .fail _ _
    all_goals simp
  | .empty pos, _ => by
    rw [expr]
    · exact .fail _ _
    all_goals simp

theorem arguments_keepsTidy : ∀ es : List Expr, (∀ n ∈ Expr.namesAll es, q n) →
    KeepsTidy q (arguments es)
  | [], _ => by
    rw [arguments]
    exact .pure _
  | e :: es, h => by
    rw [Expr.namesAll, List.forall_mem_append] at h
    rw [arguments]
    exact (expr_keepsTidy e h.1).bind fun _ => (arguments_keepsTidy es h.2).bind fun _ => .pure _

theorem sequence_keepsTidy : ∀ es : List Expr, (∀ n ∈ Expr.namesAll es, q n) →
    KeepsTidy q (sequence es)
  | [], _ => by
    rw [sequence]
    exact .pure _
  | e :: es, h => by
    rw [Expr.namesAll, List.forall_mem_append] at h
    rw [sequence]
    refine (expr_keepsTidy e h.1).bind fun _ => (sequence_keepsTidy es h.2).bind fun tail => ?_
    cases tail with
    | some last => exact .pure _
    | none => exact .pure _

end

theorem topLevel_keepsTidy (i : Nat) {es : List Expr} (h : ∀ n ∈ Expr.namesAll es, q n) :
    KeepsTidy q (topLevel i es) := by
  induction es generalizing i with
  | nil => exact .pure _
  | cons e es ih =>
    rw [Expr.namesAll, List.forall_mem_append] at h
    exact (KeepsTidy.emitEvent _).bind fun _ => (expr_keepsTidy e h.1).bind fun _ => ih (i + 1) h.2

/-! ## Whole programs -/

theorem initial_tidy {name triple : String} (hname : q name) (htriple : q triple) :
    (Builder.initial name triple).module.Tidy q := by
  have hall : ∀ f ∈ (Builder.initial "" "").module.funcs,
      f.sig.map (·.result) = some .i32 ∧ ∀ v ∈ f.values, v.op ≠ .alloca ∧
        v.aux ∈ [.none, .name "a", .name "b", .name "x", .func 0, .global 0] := by
    decide +kernel
  refine ⟨hname, htriple, ?_⟩
  rw [initial_funcs, initial_globals]
  intro f hf
  obtain ⟨hsig, hvalues⟩ := hall f hf
  refine ⟨?_, ?_⟩
  · intro s hs
    simpa [hs] using hsig
  · intro v hv
    obtain ⟨hop, haux⟩ := hvalues v hv
    refine ⟨?_, fun h => absurd h hop⟩
    intro g hg
    rw [hg] at haux
    simpa using haux

end Lowering

open Lowering in
/-- The module of a program is finished unless lowering failed. -/
theorem lower_module (o : CompileOptions) (es : List Expr) : (lower o es).module =
    match topLevel 0 es (Builder.initial o.effectiveName o.triple) with
    | .ok _ b => b.finish.module
    | .error _ b => b.module := by
  unfold lower
  cases topLevel 0 es (Builder.initial o.effectiveName o.triple) with
  | error e b => exact (closeScope_eq b).1
  | ok u b =>
    by_cases hv : (if o.verify then b.finish.module.verify else []).isEmpty
    · simp only [hv, if_true, (closeScope_eq _).1]
    · simp only [hv, Bool.false_eq_true, if_false, (closeScope_eq _).1]

open Lowering in
theorem lower_failure (o : CompileOptions) (es : List Expr) : (lower o es).failure =
    match topLevel 0 es (Builder.initial o.effectiveName o.triple) with
    | .ok _ _ => none
    | .error e _ => some (.lowering e) := by
  have hgrow := topLevel_grows 0 es (initial_inv o.effectiveName o.triple)
  unfold lower
  cases htop : topLevel 0 es (Builder.initial o.effectiveName o.triple) with
  | error e b => rfl
  | ok u b =>
    rw [htop] at hgrow
    obtain ⟨vs, new, hgrown⟩ := hgrow
    simp only [finish_verify hgrown, ite_self, List.isEmpty_nil, if_true]

open Lowering in
/-- A program whose names satisfy `q` is lowered to a tidy module, and a failure leaves one. -/
theorem lower_tidy {q : String → Prop} {o : CompileOptions} {es : List Expr}
    (hname : q o.effectiveName) (htriple : q o.triple) (h : ∀ n ∈ Expr.namesAll es, q n) :
    (lower o es).module.Tidy q := by
  have htop := topLevel_keepsTidy 0 h _ (initial_tidy hname htriple)
  rw [lower_module]
  cases hr : topLevel 0 es (Builder.initial o.effectiveName o.triple) with
  | error e b =>
    rw [hr] at htop
    exact htop
  | ok u b =>
    rw [hr] at htop
    exact Module.Tidy.setReturn (htop.addValue ⟨by simp, by simp⟩ _ _ _) _ _

end Wordlang
