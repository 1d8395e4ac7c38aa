import Wordlang.Proofs.Lowering.Quiet
import Wordlang.Proofs.Lowering.Reached

/-!
# Names of variables and of functions

A name that programs can use as that of a function is not free for variables: an assignment to it is
refused, and so is the definition of a function under the name of a variable of any open scope. The
parameters of a function are bound without such a check, and a parameter may hide a function. So the
two tables have a name in common only where it is the name of a parameter of the function that the
variable belongs to; there it stands for the parameter as a value, and for the function as a callee.
-/

namespace Wordlang

open IR Outcome

namespace Lowering

open Builder

/-! ## Assignments -/

/-- The step binds the variable and does nothing else but build. -/
structure BindsOne (b b' : Builder) (v : Binding) : Prop where
  env : b'.env = bound b.env v
  events : b'.events = b.events
  symbols : b'.module.funcSymbols = b.module.funcSymbols

/-- An assignment binds its name, if it does not fail, and no visible function has that name. It
reports nothing. -/
theorem assignValue_binds (pos : Position) (name : String) (x : Operand) (b : Builder) :
    Ends (assignValue pos name x b)
      (fun _ b' => b.env.findFunc? name = none ∧ ∃ v, v.name = name ∧ BindsOne b b' v)
      fun b' => Unmoved b b' := by
  -- what is done with the slot, once it is there
  have hstore : ∀ slot v b₁, Unmoved b b₁ → Ends ((do
      emitStore slot v pos
      bindVar { name, slot, elem := x.type, sig := x.sig }
      return ({ ref := v, type := x.type, sig := x.sig } : Operand) : Lowering Operand) b₁)
      (fun _ b' => ∃ v, v.name = name ∧ BindsOne b b' v) fun b' => Unmoved b b' := by
    intro slot v b₁ hb₁
    refine Ends.bind ((Quiet.emitStore slot v pos).after hb₁) fun _ b₂ hb₂ => ?_
    refine ⟨{ name, slot, elem := x.type, sig := x.sig }, rfl, ?_, hb₂.events, hb₂.symbols⟩
    rw [← hb₂.env]
    rfl
  refine Ends.bind (Quiet.emitRead x pos b) fun v b₁ hb₁ => ?_
  have hget : (get : Lowering Builder) b₁ = .ok b₁ b₁ := rfl
  rw [bind_ok hget, hb₁.env]
  cases hf : b.env.findFunc? name with
  | some c => exact hb₁
  | none =>
    cases hv : b.env.findVar? name with
    | some old =>
      by_cases ht : old.elem = x.type
      · simp only [Option.isSome_none, Bool.false_eq_true, if_false, ht, ne_eq, not_true_eq_false,
          pure_bind]
        exact (hstore old.slot v b₁ hb₁).imp (fun _ _ h => ⟨trivial, h⟩) fun _ h => h
      · simp only [Option.isSome_none, Bool.false_eq_true, if_false, ne_eq, ht, not_false_eq_true,
          if_true]
        exact hb₁
    | none =>
      simp only [Option.isSome_none, Bool.false_eq_true, if_false]
      refine Ends.bind ((Quiet.emitSlot x.type name pos).after hb₁) fun slot b₂ hb₂ => ?_
      exact (hstore slot v b₂ hb₂).imp (fun _ _ h => ⟨trivial, h⟩) fun _ h => h

/-! ## Names in both tables -/

/-- The function `f` has a parameter of the given name. -/
def HasParameter (m : Module) (f : Nat) (name : String) : Prop :=
  ∃ g, m.funcs[f]? = some g ∧ name ∈ g.paramNames

/-- A variable of an open scope that has the name of a visible function is a parameter of the
function that it belongs to. -/
def Clear (b : Builder) : Prop :=
  ∀ s ∈ b.env.scopes, ∀ v ∈ s.vars, (b.env.findFunc? v.name).isSome →
    HasParameter b.module v.slot.func v.name

variable {b b' b₁ b₂ : Builder}

theorem HasParameter.mono {m m' : Module} {f n : Nat} {name : String} (h : HasParameter m n name)
    (hm : m.Extends f m') : HasParameter m' n name := by
  obtain ⟨g, hg, hname⟩ := h
  by_cases hn : n = f
  · subst hn
    obtain ⟨g', hg', hext⟩ := hm.here g hg
    have hparams : g'.paramNames = g.paramNames := congrArg (·.paramNames) hext.head
    exact ⟨g', hg', hparams ▸ hname⟩
  · exact ⟨g, hm.others n g hn hg, hname⟩

/-- Nothing is said of scopes that are closed, nor of what else a module has. -/
theorem Clear.mono {f : Nat} (h : Clear b) (hscopes : b'.env.scopes ⊆ b.env.scopes)
    (hfuncs : b'.env.funcs = b.env.funcs) (hm : b.module.Extends f b'.module) : Clear b' := by
  intro s hs v hv hname
  rw [Env.findFunc?_congr hfuncs] at hname
  exact (h s (hscopes hs) v hv hname).mono hm

theorem Clear.congr {f : Nat} (h : Clear b) (henv : b'.env = b.env)
    (hm : b.module.Extends f b'.module) : Clear b' :=
  h.mono (by rw [henv]; exact List.Subset.refl _) (by rw [henv]) hm

/-- A variable may be bound if its name is that of no visible function, or if it is a parameter. -/
theorem Clear.bound {f : Nat} {v : Binding} (h : Clear b) (henv : b'.env = bound b.env v)
    (hm : b.module.Extends f b'.module)
    (hv : (b.env.findFunc? v.name).isSome → HasParameter b'.module v.slot.func v.name) :
    Clear b' := by
  have hfuncs : b'.env.funcs = b.env.funcs := by rw [henv, funcs_bound]
  intro s hs w hw hname
  rw [Env.findFunc?_congr hfuncs] at hname
  rw [henv] at hs
  obtain ⟨m, ⟨scopes, funcs⟩, site, events⟩ := b
  cases scopes with
  | nil => cases hs
  | cons t outer =>
    rcases List.mem_cons.1 hs with rfl | hs
    · rcases List.mem_cons.1 hw with rfl | hw
      · exact hv hname
      · exact (h t List.mem_cons_self w (List.mem_of_mem_filter hw) hname).mono hm
    · exact (h s (List.mem_cons_of_mem _ hs) w hw hname).mono hm

/-- A confined step that only builds keeps names apart. -/
theorem Clear.step {α : Type} {P : α → Prop} {x : Lowering α} (h : Clear b) (hb : b.Local)
    (hx : Confined b.site.func P x) (hquiet : Quiet x) : Ends (x b)
      (fun a b' => (b.Frame b' ∧ b'.Local ∧ P a) ∧ Clear b')
      fun b' => (b.Frame b' ∧ b'.Local) ∧ Clear b' := by
  refine ((hx b hb rfl).and (hquiet b)).imp ?_ ?_
  · rintro a b' ⟨hframe, hb'⟩
    exact ⟨hframe, h.congr hb'.env hframe.1.module⟩
  · rintro b' ⟨hframe, hb'⟩
    exact ⟨hframe, h.congr hb'.env hframe.1.module⟩

/-! ## Definitions -/

/-- A function is declared under a name that no variable has, with the parameters that were read. -/
theorem declareFunc_eq_ok {target : Ident} {pos : Position} {params : List Expr} {n : Nat}
    {names : List Ident} (h : declareFunc target pos params b = .ok (n, names) b') :
    b.env.findVarAnywhere? target.name = none ∧
      b'.env = b.env.defineFunc
        { name := target.name, func := n, sig := userSignature names.length } ∧
      ∀ p ∈ names, HasParameter b'.module n p.name := by
  have hget : (get : Lowering Builder) b = .ok b b := rfl
  rw [declareFunc, bind_ok hget] at h
  cases hv : b.env.findVarAnywhere? target.name with
  | some v =>
    rw [hv] at h
    cases h
  | none =>
    rw [hv] at h
    cases hp : paramNames 0 params with
    | error e =>
      rw [hp] at h
      cases h
    | ok names' =>
      rw [hp] at h
      cases h
      obtain ⟨hplace, g, hadded, -, hg⟩ := Module.funcs_addFunc b.module target.name
        (userSignature names.length) (names.map (·.name))
      have hlast : (b.module.addFunc target.name (userSignature names.length)
          (names.map (·.name))).2.funcs[(b.module.addFunc target.name
          (userSignature names.length) (names.map (·.name))).1]? = some g := by
        rw [hplace, hadded, List.getElem?_append_right (Nat.le_refl _), Nat.sub_self]
        rfl
      refine ⟨rfl, rfl, fun p hp => ⟨g, hlast, ?_⟩⟩
      rw [hg]
      exact List.mem_map.2 ⟨p, hp, rfl⟩

/-- Declaring a function keeps names apart, since no variable has its name. -/
theorem Clear.declared {target : Ident} {pos : Position} {params : List Expr} {n : Nat}
    {names : List Ident} (h : Clear b)
    (hb : declareFunc target pos params b = .ok (n, names) b') : Clear b' := by
  have hdeclared := (declareFunc_declared b target pos params).of_ok hb
  obtain ⟨hnone, henv, -⟩ := declareFunc_eq_ok hb
  intro s hs v hv hname
  rw [hdeclared.scopes] at hs
  have hne : target.name ≠ v.name := by
    intro heq
    have hs' := List.findSome?_eq_none_iff.1 hnone s hs
    have hv' := List.find?_eq_none.1 hs' v hv
    exact hv' (by simp [heq])
  rw [henv, Env.findFunc?_defineFunc _ _ rfl, if_neg hne] at hname
  exact (h s hs v hv hname).mono (hdeclared.module 0)

theorem Clear.entered (h : Clear b) (name : String) (n : Nat) : Clear (entered b name n) := by
  intro s hs v hv hname
  rcases List.mem_cons.1 hs with rfl | hs
  · cases hv
  · exact h s hs v hv hname

/-- Keeps the parameter number `i` in a slot. -/
def keepParam (i : Nat) (p : Ident) : Lowering ValueRef := do
  let arg ← emit (argValue i p.name p.pos)
  let slot ← emitSlot .i32 p.name p.pos
  emitStore slot arg p.pos
  return slot

theorem spillParams_cons (i : Nat) (p : Ident) (ps : List Ident) : spillParams i (p :: ps) = (do
    let slot ← keepParam i p
    bindVar { name := p.name, slot, elem := .i32 }
    spillParams (i + 1) ps) := by
  rw [spillParams, keepParam]
  simp only [bind_assoc, pure_bind]

theorem keepParam_confined (f i : Nat) (p : Ident) :
    Confined f (fun slot => slot.func = f) (keepParam i p) :=
  (Confined.emit (by simp) _).bind fun _ harg => (Confined.emitSlot _ _ _).bind fun _ hslot =>
    (Confined.emitStore hslot harg _).bind fun _ _ => .pure hslot

theorem keepParam_quiet (i : Nat) (p : Ident) : Quiet (keepParam i p) :=
  (Quiet.emit _ _).bind fun _ => (Quiet.emitSlot _ _ _).bind fun _ =>
    (Quiet.emitStore _ _ _).bind fun _ => .pure _

/-- Parameters are bound whatever functions there are. -/
theorem Clear.spillParams (h : Clear b) (hb : b.Local) (i : Nat) {ps : List Ident}
    (hps : ∀ p ∈ ps, HasParameter b.module b.site.func p.name) :
    Ends (spillParams i ps b) (fun _ b' => b'.Local ∧ Clear b') fun b' => b'.Local ∧ Clear b' := by
  induction ps generalizing b i with
  | nil => exact ⟨hb, h⟩
  | cons p ps ih =>
    rw [spillParams_cons]
    refine Ends.bind ((h.step hb (keepParam_confined _ i p) (keepParam_quiet i p)).imp
      (fun _ _ h => h) fun _ h => ⟨h.1.2, h.2⟩) fun slot b₁ h₁ => ?_
    obtain ⟨⟨hframe₁, hlocal₁, hslot⟩, hclear₁⟩ := h₁
    have hbound := Confined.bindVar (v := { name := p.name, slot, elem := .i32 }) hslot b₁ hlocal₁
      (congrArg (·.func) hframe₁.site)
    obtain ⟨hframe₂, hlocal₂, -⟩ := hbound.of_ok rfl
    have hframe := hframe₁.trans hframe₂
    have hkept : ∀ q ∈ p :: ps, HasParameter _ b.site.func q.name :=
      fun q hq => (hps q hq).mono hframe.module
    refine ih (hclear₁.bound rfl hframe₂.module fun _ => ?_) hlocal₂ (i + 1) ?_
    · rw [hslot]
      exact hkept p List.mem_cons_self
    · intro q hq
      rw [hframe.site]
      exact hkept q (List.mem_cons_of_mem _ hq)

theorem Clear.closeScope (h : Clear b) (site : BlockRef) :
    Clear { b.closeScope with site } := by
  obtain ⟨hmodule, hfuncs, hscopes⟩ := closeScope_eq b
  refine h.mono (f := 0) ?_ hfuncs ?_
  · show b.closeScope.env.scopes ⊆ b.env.scopes
    rw [hscopes]
    exact List.tail_sublist _ |>.subset
  · show b.module.Extends 0 b.closeScope.module
    rw [hmodule]
    exact .refl 0 _

/-- Lowering the expression keeps names apart. -/
def KeepsClear (e : Expr) : Prop :=
  ∀ ⦃b⦄, b.Local → Clear b → Ends (expr e b) (fun _ b' => Clear b') Clear

/-- Lowering the expressions of a body keeps names apart. -/
def SequenceKeepsClear (es : List Expr) : Prop :=
  ∀ ⦃b⦄, b.Local → Clear b → Ends (sequence es b) (fun _ b' => Clear b') Clear

/-- Lowering the arguments of a call keeps names apart. -/
def ArgumentsKeepClear (es : List Expr) : Prop :=
  ∀ ⦃b⦄, b.Local → Clear b → Ends (arguments es b) (fun _ b' => Clear b') Clear

theorem Clear.funcBody {body : List Expr} (hbody : SequenceKeepsClear body) (h : Clear b)
    (hb : b.Local) {names : List Ident}
    (hnames : ∀ p ∈ names, HasParameter b.module b.site.func p.name) (name : String)
    (pos : Position) : Ends (funcBody name pos names body b) (fun _ b' => Clear b') Clear := by
  rw [Lowering.funcBody]
  refine Ends.bind ((h.spillParams hb 0 hnames).imp (fun _ _ h => h) fun _ h => h.2)
    fun _ b₁ h₁ => ?_
  obtain ⟨hlocal₁, hclear₁⟩ := h₁
  have hsequence := (sequence_confined body b₁.site.func b₁ hlocal₁ rfl).and (hbody hlocal₁ hclear₁)
  refine Ends.bind (hsequence.imp (fun _ _ h => h) fun _ h => h.2) fun tail b₂ h₂ => ?_
  obtain ⟨⟨hframe₂, hlocal₂, htail⟩, hclear₂⟩ := h₂
  rw [← hframe₂.site] at htail
  have hreturn := (returnTail_continues hlocal₂ htail name pos).and
    (Quiet.returnTail name pos tail b₂)
  exact hreturn.imp (fun _ b' h => hclear₂.congr h.2.env h.1.1.module)
    fun b' h => hclear₂.congr h.2.env h.1.1.module

theorem function_keepsClear {body : List Expr} (hbody : SequenceKeepsClear body) (p : Position)
    (target : Ident) (pos : Position) (params : List Expr) :
    KeepsClear (.assign p target (.function pos params body)) := by
  intro b hb h
  have hdeclared := declareFunc_declared b target pos params
  cases hr : declareFunc target pos params b with
  | error e b₁ =>
    rw [hr] at hdeclared
    obtain rfl : b₁ = b := hdeclared
    rw [expr, bind_error hr]
    exact h
  | ok fn b₁ =>
    obtain ⟨n, names⟩ := fn
    rw [hr] at hdeclared
    obtain ⟨-, -, hnames⟩ := declareFunc_eq_ok hr
    have hinside := hdeclared.entered target.name
    have hclear := (h.declared hr).entered target.name n
    have hend := (funcBody_continues (sequence_confined body n) hinside target.name pos names).and
      (hclear.funcBody hbody hinside hnames target.name pos)
    rw [expr_define hr]
    cases hr' : Lowering.funcBody target.name pos names body (entered b₁ target.name n) with
    | error e b₂ =>
      rw [hr'] at hend
      rw [bind_error (inScope_error hr')]
      exact hend.2.closeScope b₁.site
    | ok u b₂ =>
      rw [hr'] at hend
      obtain ⟨⟨hcontinues, -⟩, hclear₂⟩ := hend
      rw [bind_ok (inScope_ok hr')]
      exact ((hclear₂.closeScope b₁.site).step (hdeclared.leave hb hcontinues).2
        (.emitFuncAddr n _ pos) (.emitFuncAddr n _ pos)).imp (fun _ _ h => h.2) fun _ h => h.2

theorem assign_keepsClear {value : Expr} (hvalue : KeepsClear value)
    (hnot : ∀ pos params body, value ≠ .function pos params body) (pos : Position)
    (target : Ident) : KeepsClear (.assign pos target value) := by
  intro b hb h
  rw [expr_assign hnot]
  have hv := (expr_confined value b.site.func b hb rfl).and (hvalue hb h)
  refine Ends.bind (hv.imp (fun _ _ h => h) fun _ h => h.2) fun x b₁ h₁ => ?_
  obtain ⟨⟨hframe, hlocal, hx⟩, hclear⟩ := h₁
  have hassign := (Confined.assignValue hx pos target.name b₁ hlocal
    (congrArg (·.func) hframe.site)).and (assignValue_binds pos target.name x b₁)
  refine hassign.imp ?_ fun b' h => hclear.congr h.2.env h.1.1.module
  rintro y b' ⟨⟨hframe', -, -⟩, hfree, v, hname, hbinds⟩
  refine hclear.bound hbinds.env hframe'.module fun hsome => ?_
  rw [hname, hfree] at hsome
  cases hsome

theorem call_keepsClear {args : List Expr} (hargs : ArgumentsKeepClear args) (pos : Position)
    (callee : Ident) : KeepsClear (.call pos callee args) := by
  intro b hb h
  rw [expr]
  have hv := (arguments_confined args b.site.func b hb rfl).and (hargs hb h)
  refine Ends.bind (hv.imp (fun _ _ h => h) fun _ h => h.2) fun xs b₁ h₁ => ?_
  obtain ⟨⟨hframe, hlocal, hxs⟩, hclear⟩ := h₁
  rw [← hframe.site] at hxs
  exact (hclear.step hlocal (.callNamed hxs pos callee.name) (.callNamed _ _ _)).imp
    (fun _ _ h => h.2) fun _ h => h.2

mutual

/-- Lowering keeps names apart. -/
theorem expr_keepsClear : ∀ e : Expr, KeepsClear e
  | .int pos n => fun b hb h => by
    have hquiet : Quiet (expr (.int pos n)) := by
      rw [expr]
      exact (Quiet.emit _ _).bind fun _ => .pure _
    exact (h.step hb (expr_confined _ _) hquiet).imp (fun _ _ h => h.2) fun _ h => h.2
  | .name id => fun b hb h => by
    have hquiet : Quiet (expr (.name id)) := by
      rw [expr]
      exact .nameValue id
    exact (h.step hb (expr_confined _ _) hquiet).imp (fun _ _ h => h.2) fun _ h => h.2
  | .string pos content => fun b hb h => by
    have hquiet : Quiet (expr (.string pos content)) := by
      rw [expr]
      exact .stringLiteral pos content
    exact (h.step hb (expr_confined _ _) hquiet).imp (fun _ _ h => h.2) fun _ h => h.2
  | .assign p target value => by
    have hvalue := expr_keepsClear value
    cases value with
    | function pos params body =>
      exact function_keepsClear (sequence_keepsClear body) p target pos params
    | _ => exact assign_keepsClear hvalue (by simp) p target
  | .call pos callee args => call_keepsClear (arguments_keepClear args) pos callee
  | .function .. => fun b _ h => by
    rw [expr]
    exact h
  | .absent => fun b _ h => by
    rw [expr]
    · exact h
    all_goals simp
  | .infixTail .. => fun b _ h => by
    rw [expr]
    · exact h
    all_goals simp
  | .empty .. => fun b _ h => by
    rw [expr]
    · exact h
    all_goals simp

theorem arguments_keepClear : ∀ es : List Expr, ArgumentsKeepClear es
  | [] => fun b _ h => by
    rw [arguments]
    exact h
  | e :: es => fun b hb h => by
    rw [arguments]
    have hv := (expr_confined e b.site.func b hb rfl).and (expr_keepsClear e hb h)
    refine Ends.bind (hv.imp (fun _ _ h => h) fun _ h => h.2) fun x b₁ h₁ => ?_
    exact Ends.bind (arguments_keepClear es h₁.1.2.1 h₁.2) fun xs b₂ h₂ => h₂

theorem sequence_keepsClear : ∀ es : List Expr, SequenceKeepsClear es
  | [] => fun b _ h => by
    rw [sequence]
    exact h
  | e :: es => fun b hb h => by
    rw [sequence]
    have hv := (expr_confined e b.site.func b hb rfl).and (expr_keepsClear e hb h)
    refine Ends.bind (hv.imp (fun _ _ h => h) fun _ h => h.2) fun x b₁ h₁ => ?_
    refine Ends.bind (sequence_keepsClear es h₁.1.2.1 h₁.2) fun t b₂ h₂ => ?_
    cases t with
    | some last => exact h₂
    | none => exact h₂

end

/-! ## Reached states -/

theorem initial_clear (name triple : String) : Clear (Builder.initial name triple) := by
  rw [Clear, initial_env]
  intro s hs v hv
  obtain rfl := List.mem_singleton.1 hs
  cases hv

theorem clear_invariant : Invariant fun b => b.Local ∧ Clear b := by
  refine ⟨?_, ?_, ?_, ?_, ?_, ?_⟩
  · intro e b hb
    exact ((expr_confined e b.site.func b hb.1 rfl).and (expr_keepsClear e hb.1 hb.2)).imp
      (fun _ _ h => ⟨h.1.2.1, h.2⟩) fun _ h => ⟨h.1.2, h.2⟩
  · intro target pos params b n names b₁ hb h
    exact ⟨local_invariant.declared target pos params b n names b₁ hb.1 h, hb.2.declared h⟩
  · intro target pos params b n names rest b₁ b₂ hb h hs
    have hd := (declareFunc_declared b target pos params).of_ok h
    obtain ⟨-, -, hnames⟩ := declareFunc_eq_ok h
    have hend := ((hb.2.declared h).entered target.name n).spillParams (hd.entered target.name) 0
      (fun p hp => hnames p (List.mem_append_left _ hp))
    exact hend.of_ok hs
  · intro target pos params body b n names b₁ b₂ hb h hs
    obtain ⟨b₃, hb₃, rfl⟩ := inScope_eq_ok hs
    have hd := (declareFunc_declared b target pos params).of_ok h
    obtain ⟨-, -, hnames⟩ := declareFunc_eq_ok h
    have hend := ((hb.2.declared h).entered target.name n).funcBody (sequence_keepsClear body)
      (hd.entered target.name) hnames target.name pos
    exact ⟨local_invariant.left target pos params body b n names b₁ _ hb.1 h hs,
      (hend.of_ok hb₃).closeScope b₁.site⟩
  · intro b hb hlast
    exact ⟨local_invariant.closed b hb.1 hlast, hb.2.closeScope _⟩
  · intro b b' hb hsite henv hmodule
    exact ⟨local_invariant.between b b' hb.1 hsite henv hmodule, hb.2.congr henv hmodule⟩

theorem Reached.clear {o : CompileOptions} {es : List Expr} (h : Reached o es b) : Clear b :=
  (clear_invariant.reached ⟨initial_local _ _, initial_clear _ _⟩ h).2

/-- A function cannot have the name of a variable of any open scope. -/
theorem define_symbolConflict {target : Ident} (hv : (b.env.findVarAnywhere? target.name).isSome)
    (p pos : Position) (params body : List Expr) :
    expr (.assign p target (.function pos params body)) b =
      .error ⟨target.pos, .symbolConflict target.name⟩ b := by
  have hget : (get : Lowering Builder) b = .ok b b := rfl
  rw [expr, declareFunc, bind_error]
  rw [bind_ok hget]
  simp only [hv, if_true]
  rfl

/-- A value cannot be assigned to the name of a visible function. -/
theorem assign_symbolConflict {e : Expr} {x : Operand}
    (hnot : ∀ pos params body, e ≠ .function pos params body) (he : expr e b = .ok x b₁)
    {target : Ident} (hf : (b₁.env.findFunc? target.name).isSome) (pos : Position) :
    ∃ b', expr (.assign pos target e) b = .error ⟨pos, .symbolConflict target.name⟩ b' := by
  obtain ⟨v, b', hread⟩ : ∃ v b', emitRead x pos b₁ = .ok v b' := by
    unfold emitRead
    split <;> exact ⟨_, _, rfl⟩
  have henv : b'.env = b₁.env := ((Quiet.emitRead x pos b₁).of_ok hread).env
  have hget : (get : Lowering Builder) b' = .ok b' b' := rfl
  refine ⟨b', ?_⟩
  rw [expr_assign hnot, bind_ok he, assignValue, bind_ok hread, bind_ok hget, henv]
  simp only [hf, if_true]
  rfl

/-- In every state that lowering reaches, a name that both a visible function and a variable of an
open scope have is that of a parameter of the function that the variable belongs to. No other way to
enter a name in both tables is open: it is refused. -/
theorem reached_names {o : CompileOptions} {es : List Expr} (hb : Reached o es b) :
    (∀ s ∈ b.env.scopes, ∀ v ∈ s.vars, (b.env.findFunc? v.name).isSome →
      HasParameter b.module v.slot.func v.name) ∧
    (∀ target p pos params body, (b.env.findVarAnywhere? target.name).isSome →
      expr (.assign p target (.function pos params body)) b =
        .error ⟨target.pos, .symbolConflict target.name⟩ b) ∧
    ∀ target pos e x b₁, (∀ pos params body, e ≠ .function pos params body) →
      expr e b = .ok x b₁ → (b₁.env.findFunc? target.name).isSome →
      ∃ b', expr (.assign pos target e) b = .error ⟨pos, .symbolConflict target.name⟩ b' :=
  ⟨hb.clear, fun _ p pos params body hv => define_symbolConflict hv p pos params body,
    fun _ pos _ _ _ hnot he hf => assign_symbolConflict hnot he hf pos⟩

/-- A function with a parameter that has the name of a function, which its body calls. -/
def obscured : List Expr :=
  [.assign {} { name := "f" } (.function {} [.name { name := "print" }]
    [.call {} { name := "print" } [.name { name := "print" }]])]

/-- Where the body of that function is lowered, a name is in both tables. -/
theorem obscured_reached : ∃ b, Reached {} obscured b ∧
    ∃ s ∈ b.env.scopes, ∃ v ∈ s.vars, (b.env.findFunc? v.name).isSome := by
  let b : Builder := { Builder.initial Builtin.defaultModule Builtin.defaultTriple with
    events := (Builder.initial Builtin.defaultModule Builtin.defaultTriple).events ++
      [.expression 0 (Expr.assign {} { name := "f" } (.function {} [.name { name := "print" }]
        [.call {} { name := "print" } [.name { name := "print" }]])).kind {}] }
  have hcomes : Comes {} obscured _ b := .top [] [] _ _ rfl rfl
  let spilled : Lowering Builder := do
    let declared ← declareFunc { name := "f" } {} [.name { name := "print" }]
    modify fun b₁ => entered b₁ "f" declared.1
    spillParams 0 declared.2
    get
  have hclash : ((spilled.run' b).any fun b₂ => b₂.env.scopes.any fun s => s.vars.any fun v =>
      (b₂.env.findFunc? v.name).isSome) = true := by
    decide +kernel
  obtain ⟨b₂, hrun, hclash⟩ := (Option.any_eq_true _ _).1 hclash
  obtain ⟨_, hrun⟩ := Outcome.eq_ok_of_run' hrun
  obtain ⟨⟨n, names⟩, b₁, hdeclared, hentered⟩ := Outcome.bind_eq_ok_iff.1 hrun
  obtain ⟨_, _, ⟨⟩, hrest⟩ := Outcome.bind_eq_ok_iff.1 hentered
  obtain ⟨_, _, hspilled, ⟨⟩⟩ := Outcome.bind_eq_ok_iff.1 hrest
  rw [← List.append_nil names] at hdeclared
  refine ⟨b₂, .spilled _ _ _ _ _ n names [] b b₁ b₂ hcomes hdeclared hspilled, ?_⟩
  obtain ⟨s, hs, hclash⟩ := List.any_eq_true.1 hclash
  obtain ⟨v, hv, hsome⟩ := List.any_eq_true.1 hclash
  exact ⟨s, hs, v, hv, hsome⟩

/-- So the two tables are not disjoint, and no error is reported. -/
theorem obscured_accepted : (lower {} obscured).failure = none ∧
    ¬ ∀ b, Reached {} obscured b → ∀ s ∈ b.env.scopes, ∀ v ∈ s.vars,
      b.env.findFunc? v.name = none := by
  refine ⟨by decide +kernel, fun h => ?_⟩
  obtain ⟨b, hb, s, hs, v, hv, hsome⟩ := obscured_reached
  rw [h b hb s hs v hv] at hsome
  cases hsome

theorem obscured_parameter : ∃ b, Reached {} obscured b ∧ ∃ s ∈ b.env.scopes, ∃ v ∈ s.vars,
    (b.env.findFunc? v.name).isSome ∧ HasParameter b.module v.slot.func v.name := by
  obtain ⟨b, hb, s, hs, v, hv, hsome⟩ := obscured_reached
  exact ⟨b, hb, s, hs, v, hv, hsome, (reached_names hb).1 s hs v hv hsome⟩

end Lowering

end Wordlang
