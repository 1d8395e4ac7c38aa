import Wordlang.Proofs.Lowering.Frame
import Wordlang.Proofs.Lowering.Links
import Wordlang.Proofs.Lowering.Tidy

/-!
# The states that lowering reaches

Lowering a program comes to the expressions of the program one after the other, and inside them to
their parts: to the value of an assignment, to the arguments of a call and to the expressions of a
function's body. What is said of all states that it passes through on the way is proved by an
invariant of the steps between (`Invariant.reached`).

The main result is that whatever is lowered from such a state leaves the frame alone, and hence that
a program which is continued yields a module that extends the one of the program before, whatever
names are defined anew in it.
-/

namespace Wordlang

open IR Outcome

namespace Lowering

open Builder

/-- When the program `es` is lowered, the turn comes to the expression in the state. -/
inductive Comes (o : CompileOptions) (es : List Expr) : Expr → Builder → Prop
  | top (before after : List Expr) (e : Expr) (b : Builder) (hes : es = before ++ e :: after)
    (hb : topLevel 0 before (Builder.initial o.effectiveName o.triple) = .ok () b) :
    Comes o es e { b with events := b.events ++ [.expression before.length e.kind e.pos] }
  | value (pos : Position) (target : Ident) (e : Expr) (b : Builder)
    (hnot : ∀ pos params body, e ≠ .function pos params body)
    (h : Comes o es (.assign pos target e) b) : Comes o es e b
  | argument (pos : Position) (callee : Ident) (before after : List Expr) (e : Expr)
    (xs : List (Position × Operand)) (b b' : Builder)
    (h : Comes o es (.call pos callee (before ++ e :: after)) b)
    (hb : arguments before b = .ok xs b') : Comes o es e b'
  | body (p pos : Position) (target : Ident) (params before after : List Expr) (e : Expr) (n : Nat)
    (names : List Ident) (t : Option (Position × Operand)) (b b₁ b₂ b₃ : Builder)
    (h : Comes o es (.assign p target (.function pos params (before ++ e :: after))) b)
    (hdeclared : declareFunc target pos params b = .ok (n, names) b₁)
    (hspilled : spillParams 0 names (entered b₁ target.name n) = .ok () b₂)
    (hb : sequence before b₂ = .ok t b₃) : Comes o es e b₃

/-- Lowering the program `es` passes through the state. The last rule is for the states between
these, in which some of the values of an expression have been written, a constant has been added, a
body has been ended or an event has been reported: there the environment is the same, and the module
extends the one from before. -/
inductive Reached (o : CompileOptions) (es : List Expr) : Builder → Prop
  | start : Reached o es (Builder.initial o.effectiveName o.triple)
  | comes (e : Expr) (b : Builder) (h : Comes o es e b) : Reached o es b
  | lowered (e : Expr) (x : Operand) (b b' : Builder) (h : Comes o es e b)
    (hb : expr e b = .ok x b') : Reached o es b'
  | failed (e : Expr) (err : LoweringError) (b b' : Builder) (h : Comes o es e b)
    (hb : expr e b = .error err b') : Reached o es b'
  | declared (p pos : Position) (target : Ident) (params body : List Expr) (n : Nat)
    (names : List Ident) (b b' : Builder)
    (h : Comes o es (.assign p target (.function pos params body)) b)
    (hb : declareFunc target pos params b = .ok (n, names) b') : Reached o es b'
  | spilled (p pos : Position) (target : Ident) (params body : List Expr) (n : Nat)
    (names rest : List Ident) (b b₁ b₂ : Builder)
    (h : Comes o es (.assign p target (.function pos params body)) b)
    (hdeclared : declareFunc target pos params b = .ok (n, names ++ rest) b₁)
    (hb : spillParams 0 names (entered b₁ target.name n) = .ok () b₂) : Reached o es b₂
  | left (p pos : Position) (target : Ident) (params body : List Expr) (n : Nat)
    (names : List Ident) (b b₁ b₂ : Builder)
    (h : Comes o es (.assign p target (.function pos params body)) b)
    (hdeclared : declareFunc target pos params b = .ok (n, names) b₁)
    (hb : inScope ("function " ++ target.name) ⟨n, 0⟩ (funcBody target.name pos names body) b₁ =
      .ok () b₂) : Reached o es b₂
  | closed (b : Builder) (h : Reached o es b) (hlast : b.env.scopes.length = 1) :
    Reached o es b.closeScope
  | between (b b' : Builder) (h : Reached o es b) (hsite : b'.site = b.site)
    (henv : b'.env = b.env) (hmodule : b.module.Extends b.site.func b'.module) : Reached o es b'

/-- The steps that lowering is made of keep the property, also those that fail. -/
structure Invariant (I : Builder → Prop) : Prop where
  expr : ∀ e b, I b → Ends (expr e b) (fun _ => I) I
  declared : ∀ target pos params b n names b₁, I b →
    declareFunc target pos params b = .ok (n, names) b₁ → I b₁
  spilled : ∀ target pos params b n names rest b₁ b₂, I b →
    declareFunc target pos params b = .ok (n, names ++ rest) b₁ →
    spillParams 0 names (entered b₁ target.name n) = .ok () b₂ → I b₂
  left : ∀ target pos params body b n names b₁ b₂, I b →
    declareFunc target pos params b = .ok (n, names) b₁ →
    inScope ("function " ++ target.name) ⟨n, 0⟩ (funcBody target.name pos names body) b₁ =
      .ok () b₂ → I b₂
  closed : ∀ b, I b → b.env.scopes.length = 1 → I b.closeScope
  between : ∀ b b', I b → b'.site = b.site → b'.env = b.env →
    b.module.Extends b.site.func b'.module → I b'

namespace Invariant

variable {I : Builder → Prop} {o : CompileOptions} {es : List Expr} {b b' : Builder}

theorem arguments (h : Invariant I) {xs : List (Position × Operand)} (hb : I b)
    (hxs : arguments es b = .ok xs b') : I b' := by
  induction es generalizing b xs with
  | nil =>
    rw [Lowering.arguments] at hxs
    cases hxs
    exact hb
  | cons e es ih =>
    rw [Lowering.arguments] at hxs
    obtain ⟨x, b₁, hx, hxs⟩ := bind_eq_ok_iff.1 hxs
    obtain ⟨ys, b₂, hys, hxs⟩ := bind_eq_ok_iff.1 hxs
    cases hxs
    have hb₁ := h.expr e b hb
    rw [hx] at hb₁
    exact ih hb₁ hys

theorem sequence (h : Invariant I) {t : Option (Position × Operand)} (hb : I b)
    (ht : sequence es b = .ok t b') : I b' := by
  obtain ⟨xs, hxs, -⟩ := sequence_ok ht
  exact h.arguments hb hxs

theorem topLevel (h : Invariant I) (i : Nat) (hb : I b) (ht : topLevel i es b = .ok () b') :
    I b' := by
  induction es generalizing b i with
  | nil =>
    cases ht
    exact hb
  | cons e es ih =>
    rw [Lowering.topLevel] at ht
    obtain ⟨u, b₁, he, ht⟩ := bind_eq_ok_iff.1 ht
    cases he
    obtain ⟨x, b₂, hx, ht⟩ := bind_eq_ok_iff.1 ht
    have hb₂ := h.expr e _ (h.between b
      { b with events := b.events ++ [.expression i e.kind e.pos] } hb rfl rfl (.refl _ _))
    rw [hx] at hb₂
    exact ih (i + 1) hb₂ ht

theorem comes (h : Invariant I) (hstart : I (Builder.initial o.effectiveName o.triple))
    {e : Expr} (hc : Comes o es e b) : I b := by
  induction hc with
  | top before after e b hes hb =>
    exact h.between b _ (h.topLevel 0 hstart hb) rfl rfl (.refl _ _)
  | value pos target e b hnot hc ih => exact ih
  | argument pos callee before after e xs b b' hc hb ih => exact h.arguments ih hb
  | body p pos target params before after e n names t b b₁ b₂ b₃ hc hdeclared hspilled hb ih =>
    rw [← List.append_nil names] at hdeclared
    exact h.sequence (h.spilled target pos params b n names [] b₁ b₂ ih hdeclared hspilled) hb

/-- An invariant that holds at the start holds in every state that is reached. -/
theorem reached (h : Invariant I) (hstart : I (Builder.initial o.effectiveName o.triple))
    (hr : Reached o es b) : I b := by
  induction hr with
  | start => exact hstart
  | comes e b hc => exact h.comes hstart hc
  | lowered e x b b' hc hb =>
    have hend := h.expr e b (h.comes hstart hc)
    rwa [hb] at hend
  | failed e err b b' hc hb =>
    have hend := h.expr e b (h.comes hstart hc)
    rwa [hb] at hend
  | declared p pos target params body n names b b' hc hb =>
    exact h.declared target pos params b n names b' (h.comes hstart hc) hb
  | spilled p pos target params body n names rest b b₁ b₂ hc hdeclared hb =>
    exact h.spilled target pos params b n names rest b₁ b₂ (h.comes hstart hc) hdeclared hb
  | left p pos target params body n names b b₁ b₂ hc hdeclared hb =>
    exact h.left target pos params body b n names b₁ b₂ (h.comes hstart hc) hdeclared hb
  | closed b hr hlast ih => exact h.closed b ih hlast
  | between b b' hr hsite henv hmodule ih => exact h.between b b' ih hsite henv hmodule

end Invariant

/-! ## Local states -/

variable {b b' : Builder}

theorem initial_local (name triple : String) : (Builder.initial name triple).Local := by
  have hinv := initial_inv name triple
  refine ⟨?_, ?_⟩
  · rw [hinv.now.site, hinv.now.drafted.length_funcs]
    exact hinv.now.lt_length
  · rw [initial_env]
    rintro s ⟨⟩ v hv
    cases hv

theorem local_invariant : Invariant Local := by
  have hdeclared : ∀ target pos params b n names b₁,
      declareFunc target pos params b = .ok (n, names) b₁ → Declared b n b₁ := by
    intro target pos params b n names b₁ hb
    have h := declareFunc_declared b target pos params
    rwa [hb] at h
  refine ⟨?_, ?_, ?_, ?_, ?_, ?_⟩
  · intro e b hb
    have h := expr_confined e b.site.func b hb rfl
    cases hr : expr e b with
    | error err b' =>
      rw [hr] at h
      exact h.2
    | ok x b' =>
      rw [hr] at h
      exact h.2.1
  · intro target pos params b n names b₁ hb h
    have hd := hdeclared _ _ _ _ _ _ _ h
    exact hb.congr hd.site (congrArg List.head? hd.scopes) (hd.module 0).length_le
  · intro target pos params b n names rest b₁ b₂ hb h hs
    have hentered := (hdeclared _ _ _ _ _ _ _ h).entered target.name
    have hend := Confined.spillParams 0 names _ hentered rfl
    rw [hs] at hend
    exact hend.2.1
  · intro target pos params body b n names b₁ b₂ hb h hs
    obtain ⟨b₃, hb₃, rfl⟩ := inScope_eq_ok hs
    have hd := hdeclared _ _ _ _ _ _ _ h
    have hend := funcBody_continues (sequence_confined body n) (hd.entered target.name) target.name
      pos names
    have hb₃' : funcBody target.name pos names body (entered b₁ target.name n) = .ok () b₃ := hb₃
    rw [hb₃'] at hend
    exact (hd.leave hb hend.1).2
  · intro b hb hlast
    obtain ⟨hmodule, -, hscopes⟩ := closeScope_eq b
    have hsite : b.closeScope.site = b.site := by
      unfold Builder.closeScope
      split <;> rfl
    refine ⟨?_, ?_⟩
    · rw [hmodule, hsite]
      exact hb.inside
    · obtain ⟨s, hs⟩ := List.length_eq_one_iff.1 hlast
      rw [hscopes, hs]
      simp
  · intro b b' hb hsite henv hmodule
    exact hb.congr hsite (by rw [henv]) hmodule.length_le

theorem Reached.local {o : CompileOptions} {es : List Expr} (h : Reached o es b) : b.Local :=
  local_invariant.reached (initial_local _ _) h

end Lowering

/-! ## Programs that go on -/

namespace IR.Module

/-- The module in which the function `f` lacks its last value and is not yet ended. -/
def reopened (f : Nat) (m : Module) : Module :=
  m.modifyFunc f fun g => { g with
    values := g.values.dropLast
    blocks := g.blocks.map fun k =>
      { k with kind := .plain, controls := [], values := k.values.dropLast } }

theorem modifyFunc_eq_self {m : Module} {f : Nat} {k : Func → Func} {x : Func}
    (hx : m.funcs[f]? = some x) (hk : k x = x) : m.modifyFunc f k = m := by
  have hfuncs : m.funcs.modify f k = m.funcs := by
    apply List.ext_getElem?
    intro i
    rw [List.getElem?_modify]
    by_cases hi : f = i
    · subst hi
      simp [hx, hk]
    · simp [hi]
  rw [modifyFunc, hfuncs]

end IR.Module

namespace Lowering

open Builder

variable {b b' : Builder}

/-- Reopening a function that has just been ended undoes the ending. -/
theorem reopened_finish {ds : List Draft} {f : Nat} {d : Draft} (h : At b ds f d)
    (hopen : d.result = none) : b.finish.module.reopened f = b.module := by
  obtain ⟨x, hx, hxd⟩ := h.drafted.getElem?_funcs h.here
  have hblocks : x.blocks = [d.block f] := by
    have := congrArg (·.blocks) hxd
    simpa [Func.core, Draft.func, h.inside] using this
  have hblock : d.block f =
      { kind := .plain, controls := [], values := Draft.refs f d.code.length, owner := f } := by
    simp [Draft.block, hopen]
  have hnext : ((b.module.funcs[f]?).map (·.values.length)).getD 0 = x.values.length := by
    rw [hx]
    rfl
  -- everything that is done is done to the function `f`
  simp only [Builder.finish, h.site, Module.addValue, hnext, List.foldl_nil, Module.setReturn,
    Module.setControl, Module.countUse, Module.modifyBlock, Module.modifyValue, Module.reopened,
    Module.modifyFunc_modifyFunc]
  apply Module.modifyFunc_eq_self hx
  cases x
  simp only at hblocks
  subst hblocks
  simp [hblock, Module.Drafted.modify_concat]

theorem topLevel_append (i : Nat) (xs ys : List Expr) : topLevel i (xs ++ ys) =
    topLevel i xs >>= fun _ => topLevel (i + xs.length) ys := by
  induction xs generalizing i with
  | nil => rfl
  | cons e xs ih =>
    simp only [List.cons_append, topLevel, ih, bind_assoc, List.length_cons, Nat.add_assoc,
      Nat.add_comm 1]

/-- Ending the current function extends the module. -/
theorem extends_finish (b : Builder) : b.module.Extends b.site.func b.finish.module := by
  have hargs : ∀ a ∈ ([] : List ValueRef), a.func = b.site.func := by simp
  exact (Module.extends_addValue b.site rfl hargs _).1.trans (Module.extends_setReturn rfl rfl)

/-- What a program is continued with extends the module that it had reached. -/
theorem topLevel_extends {o : CompileOptions} {xs : List Expr}
    (h : topLevel 0 xs (Builder.initial o.effectiveName o.triple) = .ok () b) (ys : List Expr) :
    b.module.Extends entryPlace (lower o (xs ++ ys)).module := by
  have hstart : (Builder.initial o.effectiveName o.triple).Local := initial_local _ _
  have hentry : (Builder.initial o.effectiveName o.triple).site.func = entryPlace := by
    rw [initial_site]
  have hfirst := topLevel_confined 0 xs entryPlace _ hstart hentry
  rw [h] at hfirst
  obtain ⟨hframe, hlocal, -⟩ := hfirst
  have hsite : b.site.func = entryPlace := by rw [hframe.site, hentry]
  have hrest := topLevel_confined (0 + xs.length) ys entryPlace b hlocal hsite
  rw [lower_module, topLevel_append, bind_ok h]
  cases hr : topLevel (0 + xs.length) ys b with
  | error e b' =>
    rw [hr] at hrest
    rw [← hsite]
    exact hrest.1.module
  | ok u b' =>
    rw [hr] at hrest
    have hend := extends_finish b'
    rw [hrest.1.site] at hend
    rw [← hsite]
    exact hrest.1.module.trans hend

end Lowering

open Lowering in
/-- Lowering is append-only and restores its context. Whatever is lowered from a state that lowering
a program reaches, and whether or not it fails, new values go to the same block as before, the outer
scopes are as before, and of the functions that were there only the current one has been written to,
by appending. So a program that is continued yields a module that extends the one of the program,
its entry function reopened, and what is called there is still the same function, unchanged. -/
theorem lower_frame (o : CompileOptions) :
    (∀ es b, Reached o es b → ∀ e, Ends (expr e b) (fun _ b' => b.Frame b') fun b' => b.Frame b') ∧
    ∀ xs ys, (lower o xs).failure = none →
      ((lower o xs).module.reopened entryPlace).Extends entryPlace (lower o (xs ++ ys)).module ∧
      ∀ r v, ((lower o xs).module.reopened entryPlace).value? r = some v →
        ∃ v', (lower o (xs ++ ys)).module.value? r = some v' ∧ v.Extends v' ∧
          ∀ g, ((lower o xs).module.reopened entryPlace).callee? v = some g →
            (lower o (xs ++ ys)).module.callee? v' = some g := by
  refine ⟨?_, ?_⟩
  · intro es b hb e
    have h := expr_confined e b.site.func b hb.local rfl
    cases hr : expr e b with
    | error err b' =>
      rw [hr] at h
      exact h.1
    | ok x b' =>
      rw [hr] at h
      exact h.1
  · intro xs ys hxs
    obtain ⟨b, hb⟩ : ∃ b, topLevel 0 xs (Builder.initial o.effectiveName o.triple) = .ok () b := by
      cases hr : topLevel 0 xs (Builder.initial o.effectiveName o.triple) with
      | ok u b => exact ⟨b, rfl⟩
      | error e b =>
        simp only [lower, hr] at hxs
        cases hxs
    have hat := (initial_inv o.effectiveName o.triple).now
    obtain ⟨xs', vs, new, hlowers, hadded⟩ := topLevel_derived 0 xs hat hb
    have hreopened : (lower o xs).module.reopened entryPlace = b.module := by
      rw [lower_module, hb]
      exact reopened_finish hadded.now rfl
    have hext := topLevel_extends hb ys
    rw [initial_env] at hlowers
    have hlinked := linked_program hlowers
    rw [hreopened]
    refine ⟨hext, ?_⟩
    intro r v hv
    obtain ⟨v', hv', hvv'⟩ := hext.value? hv
    obtain ⟨d, hd, -, hvd⟩ := hadded.now.drafted.code_of_value hv
    have hvalue := (hlinked d (List.mem_of_getElem? hd)).2 _ (List.mem_of_getElem? hvd)
    -- no value refers to the entry function, the only one that is written to
    have hne : v.aux ≠ .func entryPlace := fun h => hvalue.func entryPlace h rfl
    exact ⟨v', hv', hvv', fun g hg => hext.callee? hvv' hne hg⟩

/-- A program that defines a function and calls it. -/
def called : List Expr :=
  [.assign {} { name := "f" } (.function {} [.name { name := "a" }]
    [.call {} { name := "+" } [.name { name := "a" }, .int {} 1]]),
  .assign {} { name := "x" } (.call {} { name := "f" } [.int {} 2])]

/-- The same function with another body, and a body that fails. -/
def redefined : List Expr :=
  [.assign {} { name := "f" } (.function {} [.name { name := "a" }] [.name { name := "a" }]),
  .assign {} { name := "g" } (.function {} [.name { name := "a" }] [.name { name := "x" }])]

open Lowering in
theorem redefined_frame : (lower {} called).failure = none ∧
    (lower {} (called ++ redefined)).failure.isSome ∧
    ((lower {} called).module.reopened entryPlace).Extends entryPlace
      (lower {} (called ++ redefined)).module ∧
    Ends (expr (.name { name := "print" }) (Builder.initial "kanso" ""))
      (fun _ b' => (Builder.initial "kanso" "").Frame b') fun b' =>
      (Builder.initial "kanso" "").Frame b' := by
  have hnone : (lower {} called).failure = none := by decide +kernel
  refine ⟨hnone, by decide +kernel, ((lower_frame {}).2 called redefined hnone).1, ?_⟩
  exact (lower_frame { moduleName := "kanso", triple := "" }).1 [] _ .start _

end Wordlang
