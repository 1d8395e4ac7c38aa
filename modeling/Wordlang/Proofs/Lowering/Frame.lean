import Wordlang.Proofs.Extension
import Wordlang.Proofs.Lowering.Verified

/-!
# What lowering an expression leaves alone

Lowering writes to the current function only, and changes no scope but the innermost one. The body
of a function literal is lowered with another function current and in a scope of its own; when it is
left, also by an error, the function and the scopes are again those from before.

The reason is that every operand is a value of the current function: a slot of an outer function is
out of sight while an inner one is lowered. So no step has a way to reach a value elsewhere.
-/

namespace Wordlang

open IR Outcome

namespace Builder

/-- The current function is one of the module, and the visible variables have their slots in it. -/
structure Local (b : Builder) : Prop where
  inside : b.site.func < b.module.funcs.length
  slots : ∀ s, b.env.scopes.head? = some s → ∀ v ∈ s.vars, v.slot.func = b.site.func

/-- The state `b'` is reached from `b` by writing to the current function: new values still go to
the same block, as many scopes are open, and all but the innermost one are as they were. -/
structure Continues (b b' : Builder) : Prop where
  site : b'.site = b.site
  depth : b'.env.scopes.length = b.env.scopes.length
  outer : b'.env.scopes.tail = b.env.scopes.tail
  module : b.module.Extends b.site.func b'.module

/-- In addition, the current block does not end in another way than before. -/
structure Frame (b b' : Builder) : Prop extends b.Continues b' where
  ending : b'.module.ending? b.site = b.module.ending? b.site

variable {b b' b'' : Builder}

theorem Continues.refl (b : Builder) : b.Continues b := ⟨rfl, rfl, rfl, .refl _ _⟩

theorem Continues.trans (h : b.Continues b') (h' : b'.Continues b'') : b.Continues b'' :=
  ⟨h'.site.trans h.site, h'.depth.trans h.depth, h'.outer.trans h.outer,
    h.module.trans (h.site ▸ h'.module)⟩

theorem Frame.refl (b : Builder) : b.Frame b := ⟨.refl b, rfl⟩

theorem Frame.trans (h : b.Frame b') (h' : b'.Frame b'') : b.Frame b'' := by
  refine ⟨h.toContinues.trans h'.toContinues, ?_⟩
  rw [← h.ending, ← h.site]
  exact h'.ending

theorem Local.findVar? (h : b.Local) {name : String} {v : Binding}
    (hv : b.env.findVar? name = some v) : v.slot.func = b.site.func := by
  obtain ⟨s, hs, hsv⟩ := Option.bind_eq_some_iff.1 hv
  exact h.slots s hs v (List.mem_of_find?_eq_some hsv)

/-- A state with more functions is local if the current function and the scopes are the same. -/
theorem Local.congr (h : b.Local) (hsite : b'.site = b.site)
    (hscopes : b'.env.scopes.head? = b.env.scopes.head?)
    (hlen : b.module.funcs.length ≤ b'.module.funcs.length) : b'.Local := by
  refine ⟨?_, ?_⟩
  · rw [hsite]
    exact Nat.lt_of_lt_of_le h.inside hlen
  · rw [hscopes, hsite]
    exact h.slots

end Builder

namespace Lowering

open Builder

/-- Started in a local state with the current function `f`, the step leaves the frame alone and ends
in a local state, and if it does not fail, with a result that satisfies `P`. -/
def Confined {α : Type} (f : Nat) (P : α → Prop) (x : Lowering α) : Prop :=
  ∀ b : Builder, b.Local → b.site.func = f →
    Ends (x b) (fun a b' => b.Frame b' ∧ b'.Local ∧ P a) fun b' => b.Frame b' ∧ b'.Local

/-- The address that is called, if it is one, is kept in the function `f`. -/
def Target.Within (f : Nat) : Target → Prop
  | .direct _ => True
  | .indirect slot => slot.func = f

namespace Confined

variable {α β : Type} {P : α → Prop} {Q : β → Prop} {f : Nat}

theorem bind {x : Lowering α} {k : α → Lowering β} (hx : Confined f P x)
    (hk : ∀ a, P a → Confined f Q (k a)) : Confined f Q (x >>= k) := by
  intro b hb hf
  refine (hx b hb hf).bind fun a b' h => ?_
  obtain ⟨hframe, hlocal, ha⟩ := h
  exact (hk a ha b' hlocal (hframe.site ▸ hf)).imp
    (fun _ _ hnext => ⟨hframe.trans hnext.1, hnext.2⟩) fun _ hnext =>
      ⟨hframe.trans hnext.1, hnext.2⟩

theorem pure {a : α} (ha : P a) : Confined f P (Pure.pure a : Lowering α) :=
  fun b hb _ => ⟨.refl b, hb, ha⟩

theorem fail (pos : Position) (fault : LoweringFault) :
    Confined f P (Lowering.fail pos fault : Lowering α) := fun b hb _ => ⟨.refl b, hb⟩

/-- What would follow a failure does not matter. -/
theorem fail_bind (pos : Position) (fault : LoweringFault) (k : α → Lowering β) :
    Confined f Q (Lowering.fail pos fault >>= k) := fun b hb _ => ⟨.refl b, hb⟩

theorem get : Confined f (fun b : Builder => b.Local ∧ b.site.func = f) MonadState.get :=
  fun b hb hf => ⟨.refl b, hb, hb, hf⟩

theorem emitEvent (e : Event) : Confined f (fun _ => True) (Lowering.emitEvent e) :=
  fun _ hb _ => ⟨⟨⟨rfl, rfl, rfl, .refl _ _⟩, rfl⟩, ⟨hb.inside, hb.slots⟩, trivial⟩

theorem emit {args : List ValueRef} (hargs : ∀ a ∈ args, a.func = f) (v : Value) :
    Confined f (fun r => r.func = f) (Lowering.emit v args) := by
  intro b hb hf
  subst hf
  rw [emit_eq]
  obtain ⟨hext, hending⟩ := Module.extends_addValue (m := b.module) b.site rfl hargs v
  refine ⟨⟨⟨rfl, rfl, rfl, hext⟩, hending b.site⟩, ?_, rfl⟩
  exact hb.congr rfl rfl hext.length_le

theorem emitSlot (elem : Ty) (name : String) (pos : Position) :
    Confined f (fun r => r.func = f) (Lowering.emitSlot elem name pos) := emit (by simp) _

theorem emitStore {slot v : ValueRef} (hslot : slot.func = f) (hv : v.func = f) (pos : Position) :
    Confined f (fun _ => True) (Lowering.emitStore slot v pos) :=
  (emit (by simp [hslot, hv]) _).bind fun _ _ => pure trivial

theorem emitRead {x : Operand} (hx : x.ref.func = f) (pos : Position) :
    Confined f (fun r => r.func = f) (Lowering.emitRead x pos) := by
  unfold Lowering.emitRead
  split
  · exact emit (by simp [hx]) _
  · exact pure hx

theorem emitFuncAddr (g : Nat) (sig : Signature) (pos : Position) :
    Confined f (fun x => x.ref.func = f) (Lowering.emitFuncAddr g sig pos) :=
  (emit (by simp) _).bind fun _ hr => pure hr

theorem bindVar {v : Binding} (hv : v.slot.func = f) :
    Confined f (fun _ => True) (Lowering.bindVar v) := by
  intro b hb hf
  obtain ⟨m, ⟨scopes, funcs⟩, site, events⟩ := b
  cases scopes with
  | nil => exact ⟨.refl _, hb, trivial⟩
  | cons s outer =>
    refine ⟨⟨⟨rfl, rfl, rfl, .refl _ _⟩, rfl⟩, ⟨hb.inside, ?_⟩, trivial⟩
    rintro t ⟨⟩ w hw
    rcases List.mem_cons.1 hw with rfl | hw
    · exact hv.trans hf.symm
    · exact hb.slots s rfl w (List.mem_of_mem_filter hw)

/-! ## Values and names -/

theorem nameValue (id : Ident) : Confined f (fun x => x.ref.func = f) (Lowering.nameValue id) := by
  refine get.bind fun b hb => ?_
  obtain ⟨hlocal, hf⟩ := hb
  dsimp only
  split
  · next v hv => exact pure ((hlocal.findVar? hv).trans hf)
  · split
    · exact emitFuncAddr _ _ _
    · exact fail _ _

theorem stringLiteral (pos : Position) (content : String) :
    Confined f (fun x => x.ref.func = f) (Lowering.stringLiteral pos content) := by
  have hintern : ∀ data, Confined f (fun _ => True) (modifyGet fun b : Builder =>
      ((b.module.internString data).1, { b with module := (b.module.internString data).2 })) := by
    intro data b hb hf
    have hext : b.module.Extends b.site.func (b.module.internString data).2 :=
      Module.extends_internString _ data
    refine ⟨⟨⟨rfl, rfl, rfl, hext⟩, ?_⟩, hb.congr rfl rfl hext.length_le, trivial⟩
    have hother : b.module.Extends (b.site.func + 1) (b.module.internString data).2 :=
      Module.extends_internString _ data
    exact hother.ending?_eq (Nat.ne_of_lt (Nat.lt_succ_self _)) hb.inside
  exact (hintern _).bind fun g _ => (emit (by simp) _).bind fun _ hr => pure hr

theorem assignValue {x : Operand} (hx : x.ref.func = f) (pos : Position) (name : String) :
    Confined f (fun x => x.ref.func = f) (Lowering.assignValue pos name x) := by
  have hstore : ∀ slot v, slot.func = f → v.func = f → Confined f (fun x => x.ref.func = f) (do
      Lowering.emitStore slot v pos
      Lowering.bindVar { name, slot, elem := x.type, sig := x.sig }
      return ({ ref := v, type := x.type, sig := x.sig } : Operand)) :=
    fun slot v hslot hv => (emitStore hslot hv pos).bind fun _ _ =>
      (bindVar hslot).bind fun _ _ => pure hv
  refine (emitRead hx pos).bind fun v hv => get.bind fun _ hb => ?_
  obtain ⟨hlocal, hf⟩ := hb
  dsimp only
  split
  · exact fail_bind _ _ _
  · split
    · next old hold =>
      have hslot := (hlocal.findVar? hold).trans hf
      split
      · exact fail_bind _ _ _
      · exact (pure (P := fun slot : ValueRef => slot.func = f) hslot).bind fun slot hslot =>
          hstore slot v hslot hv
    · exact (emitSlot _ _ _).bind fun slot hslot => hstore slot v hslot hv

/-! ## Calls -/

theorem callTarget (pos : Position) (name : String) :
    Confined f (fun t => t.1.Within f) (Lowering.callTarget pos name) := by
  refine get.bind fun b hb => ?_
  obtain ⟨hlocal, hf⟩ := hb
  dsimp only
  split
  · exact pure trivial
  · split
    · next v hv =>
      split
      · exact pure ((hlocal.findVar? hv).trans hf)
      · exact fail _ _
    · exact fail _ _

theorem readArgs {xs : List (Position × Operand)} (hxs : ∀ x ∈ xs, x.2.ref.func = f)
    (name : String) (i : Nat) (types : List Ty) :
    Confined f (fun vals => ∀ r ∈ vals, r.func = f) (Lowering.readArgs name i types xs) := by
  induction xs generalizing i types with
  | nil => exact pure (by simp)
  | cons a xs ih =>
    obtain ⟨pos, x⟩ := a
    obtain ⟨hx, hxs⟩ := List.forall_mem_cons.1 hxs
    have hrest : ∀ v, v.func = f → Confined f (fun vals => ∀ r ∈ vals, r.func = f) (do
        return v :: (← Lowering.readArgs name (i + 1) types.tail xs)) :=
      fun v hv => (ih hxs (i + 1) types.tail).bind fun vals hvals =>
        pure (List.forall_mem_cons.2 ⟨hv, hvals⟩)
    rw [Lowering.readArgs]
    refine (emitRead hx pos).bind fun v hv => ?_
    dsimp only
    split
    · split
      · exact fail_bind _ _ _
      · exact hrest v hv
    · exact hrest v hv

theorem callNamed {xs : List (Position × Operand)} (hxs : ∀ x ∈ xs, x.2.ref.func = f)
    (pos : Position) (name : String) :
    Confined f (fun x => x.ref.func = f) (Lowering.callNamed pos name xs) := by
  refine (callTarget pos name).bind fun target htarget => ?_
  obtain ⟨target, sig⟩ := target
  have hkeep : ∀ r, r.func = f → Confined f (fun x => x.ref.func = f) (do
      let slot ← Lowering.emitSlot sig.result name pos
      Lowering.emitStore slot r pos
      return ({ ref := slot, type := sig.result, isSlot := true } : Operand)) :=
    fun r hr => (emitSlot _ _ _).bind fun slot hslot =>
      (emitStore hslot hr pos).bind fun _ _ => pure hslot
  dsimp only
  split
  · exact fail_bind _ _ _
  · refine (readArgs hxs name 0 sig.params).bind fun vals hvals => ?_
    cases target with
    | direct g => exact (emit hvals _).bind hkeep
    | indirect slot =>
      refine (emit (List.forall_mem_singleton.2 htarget) _).bind fun address haddress => ?_
      exact (emit (List.forall_mem_cons.2 ⟨haddress, hvals⟩) _).bind hkeep

/-! ## Function literals -/

theorem spillParams (i : Nat) (ps : List Ident) :
    Confined f (fun _ => True) (Lowering.spillParams i ps) := by
  induction ps generalizing i with
  | nil => exact pure trivial
  | cons p ps ih =>
    refine (emit (by simp) _).bind fun arg harg => (emitSlot _ _ _).bind fun slot hslot => ?_
    exact (emitStore hslot harg _).bind fun _ _ => (bindVar hslot).bind fun _ _ => ih (i + 1)

end Confined

variable {b b' : Builder} {f : Nat}

/-- Ending a body writes to its function only. -/
theorem returnTail_continues {tail : Option (Position × Operand)} (hb : b.Local)
    (htail : ∀ p x, tail = some (p, x) → x.ref.func = b.site.func) (name : String)
    (pos : Position) : Ends (returnTail name pos tail b)
      (fun _ b' => b.Continues b' ∧ b'.Local) fun b' => b.Continues b' ∧ b'.Local := by
  cases tail with
  | none => exact ⟨.refl b, hb⟩
  | some last =>
    obtain ⟨last, x⟩ := last
    have hread := (Confined.emitRead (htail last x rfl) last b hb rfl).imp (fun _ _ h => h)
      fun _ h => And.intro h.1.toContinues h.2
    simp only [returnTail]
    refine hread.bind fun v b' h => ?_
    obtain ⟨hframe, hlocal, hv⟩ := h
    split
    · exact ⟨hframe.toContinues, hlocal⟩
    · have hext : b'.module.Extends b'.site.func (b'.module.setReturn b'.site (some v)) :=
        Module.extends_setReturn rfl (hframe.site ▸ hv)
      exact ⟨hframe.toContinues.trans ⟨rfl, rfl, rfl, hext⟩, hlocal.congr rfl rfl hext.length_le⟩

/-- Lowering a body writes to its function only. -/
theorem funcBody_continues {body : List Expr}
    (hbody : Confined b.site.func (fun t => ∀ p x, t = some (p, x) → x.ref.func = b.site.func)
      (sequence body)) (hb : b.Local) (name : String) (pos : Position) (names : List Ident) :
    Ends (funcBody name pos names body b)
      (fun _ b' => b.Continues b' ∧ b'.Local) fun b' => b.Continues b' ∧ b'.Local := by
  have hall := (Confined.spillParams 0 names).bind fun _ _ => hbody
  have hassoc : funcBody name pos names body b =
      ((spillParams 0 names >>= fun _ => sequence body) >>= returnTail name pos) b := by
    rw [bind_assoc]
    rfl
  rw [hassoc]
  have hlast := (hall b hb rfl).imp (fun _ _ h => h) fun _ h => And.intro h.1.toContinues h.2
  refine hlast.bind fun tail b' h => ?_
  obtain ⟨hframe, hlocal, htail⟩ := h
  rw [← hframe.site] at htail
  exact (returnTail_continues hlocal htail name pos).imp
    (fun _ _ hreturn => ⟨hframe.toContinues.trans hreturn.1, hreturn.2⟩) fun _ hreturn =>
      ⟨hframe.toContinues.trans hreturn.1, hreturn.2⟩

/-- The function `n` was added behind those that were there, and nothing else was done. -/
structure Declared (b : Builder) (n : Nat) (b' : Builder) : Prop where
  site : b'.site = b.site
  scopes : b'.env.scopes = b.env.scopes
  last : n = b.module.funcs.length
  inside : n < b'.module.funcs.length
  module : ∀ f, b.module.Extends f b'.module

theorem declareFunc_declared (b : Builder) (target : Ident) (pos : Position)
    (params : List Expr) : Ends (declareFunc target pos params b)
      (fun fn b' => Declared b fn.1 b') (fun b' => b' = b) := by
  have hget : (get : Lowering Builder) b = .ok b b := rfl
  rw [declareFunc, bind_ok hget]
  cases hv : b.env.findVarAnywhere? target.name with
  | some v => rfl
  | none =>
    cases hp : paramNames 0 params with
    | error e => rfl
    | ok names =>
      obtain ⟨hplace, g, hadded, -⟩ := Module.funcs_addFunc b.module target.name
        (userSignature names.length) (names.map (·.name))
      have hlt : b.module.funcs.length < (b.module.addFunc target.name (userSignature names.length)
          (names.map (·.name))).2.funcs.length := by
        rw [hadded, List.length_append, List.length_singleton]
        exact Nat.lt_succ_self _
      exact ⟨rfl, rfl, hplace, Nat.lt_of_le_of_lt (Nat.le_of_eq hplace) hlt,
        fun f => Module.extends_addFunc f _ _ _⟩

/-- When the body of a new function is left, nothing has changed around it. -/
theorem Declared.leave {n : Nat} {title : String} {b₁ b₂ : Builder} (hb : b.Local)
    (h : Declared b n b₁)
    (hbody : Continues { b₁ with env := b₁.env.openScope title, site := ⟨n, 0⟩ } b₂) :
    b.Frame { b₂.closeScope with site := b₁.site } ∧
      Local { b₂.closeScope with site := b₁.site } := by
  obtain ⟨hmodule, -, hclosed⟩ := closeScope_eq b₂
  have hscopes : b₂.closeScope.env.scopes = b.env.scopes := by
    rw [hclosed, hbody.outer, ← h.scopes]
    rfl
  have hlater : b.module.Extends n b₂.closeScope.module := by
    rw [hmodule]
    exact (h.module n).trans hbody.module
  have hext : b.module.Extends b.site.func b₂.closeScope.module :=
    hlater.of_new (Nat.le_of_eq h.last.symm)
  have hne : b.site.func ≠ n := by
    rw [h.last]
    exact Nat.ne_of_lt hb.inside
  refine ⟨⟨⟨h.site, ?_, ?_, hext⟩, hlater.ending?_eq hne hb.inside⟩, ?_⟩
  · exact congrArg List.length hscopes
  · exact congrArg List.tail hscopes
  · exact hb.congr h.site (congrArg List.head? hscopes) hext.length_le

/-- The state in which the body of the new function `n` is lowered. -/
def entered (b : Builder) (name : String) (n : Nat) : Builder :=
  { b with env := b.env.openScope ("function " ++ name), site := ⟨n, 0⟩ }

theorem Declared.entered {n : Nat} {b₁ : Builder} (h : Declared b n b₁) (name : String) :
    (entered b₁ name n).Local := by
  refine ⟨h.inside, ?_⟩
  rintro s ⟨⟩ v hv
  cases hv

theorem function_confined {body : List Expr}
    (hbody : ∀ n, Confined n (fun t => ∀ p x, t = some (p, x) → x.ref.func = n) (sequence body))
    (f : Nat) (p : Position) (target : Ident) (pos : Position) (params : List Expr) :
    Confined f (fun x => x.ref.func = f) (expr (.assign p target (.function pos params body))) := by
  intro b hb hf
  have hdeclared := declareFunc_declared b target pos params
  cases hr : declareFunc target pos params b with
  | error e b₁ =>
    rw [hr] at hdeclared
    obtain rfl : b₁ = b := hdeclared
    rw [expr, bind_error hr]
    exact ⟨.refl b₁, hb⟩
  | ok fn b₁ =>
    obtain ⟨n, names⟩ := fn
    rw [hr] at hdeclared
    rw [expr_define hr]
    have hinside := hdeclared.entered target.name
    have hcontinues := funcBody_continues (hbody n) hinside target.name pos names
    cases hr' : funcBody target.name pos names body (entered b₁ target.name n) with
    | error e b₂ =>
      rw [hr'] at hcontinues
      rw [bind_error (inScope_error hr')]
      exact hdeclared.leave hb hcontinues.1
    | ok u b₂ =>
      rw [hr'] at hcontinues
      obtain ⟨hframe, hlocal⟩ := hdeclared.leave hb hcontinues.1
      have haddr := (Confined.emitFuncAddr n (userSignature names.length) pos) _ hlocal
        (hframe.site ▸ hf)
      rw [bind_ok (inScope_ok hr')]
      cases hr'' : emitFuncAddr n (userSignature names.length) pos
          { b₂.closeScope with site := b₁.site } with
      | error e b₃ =>
        rw [hr''] at haddr
        exact ⟨hframe.trans haddr.1, haddr.2⟩
      | ok x b₃ =>
        rw [hr''] at haddr
        exact ⟨hframe.trans haddr.1, haddr.2⟩

/-! ## Expressions -/

mutual

/-- Lowering an expression writes to the current function only, and yields a value of it. -/
theorem expr_confined : ∀ (e : Expr) (f : Nat), Confined f (fun x => x.ref.func = f) (expr e)
  | .int pos n, f => by
    rw [expr]
    exact (Confined.emit (by simp) _).bind fun _ hr => .pure hr
  | .name id, f => by
    rw [expr]
    exact .nameValue id
  | .string pos content, f => by
    rw [expr]
    exact .stringLiteral pos content
  | .assign p target value, f => by
    have hvalue := expr_confined value f
    cases value with
    | function pos params body =>
      exact function_confined (fun n => sequence_confined body n) f p target pos params
    | _ =>
      rw [expr_assign (by simp)]
      exact hvalue.bind fun x hx => .assignValue hx p target.name
  | .call pos callee args, f => by
    rw [expr]
    exact (arguments_confined args f).bind fun xs hxs => .callNamed hxs pos callee.name
  | .function pos params body, f => by
    rw [expr]
    exact .fail _ _
  | .absent, f => by
    rw [expr]
    · exact .fail _ _
    all_goals simp
  | .infixTail pos op rhs, f => by
    rw [expr]
    · exact .fail _ _
    all_goals simp
  | .empty pos, f => by
    rw [expr]
    · exact .fail _ _
    all_goals simp

theorem arguments_confined : ∀ (es : List Expr) (f : Nat),
    Confined f (fun xs => ∀ x ∈ xs, x.2.ref.func = f) (arguments es)
  | [], f => by
    rw [arguments]
    exact .pure (by simp)
  | e :: es, f => by
    rw [arguments]
    exact (expr_confined e f).bind fun x hx => (arguments_confined es f).bind fun xs hxs =>
      .pure (List.forall_mem_cons.2 ⟨hx, hxs⟩)

theorem sequence_confined : ∀ (es : List Expr) (f : Nat),
    Confined f (fun t => ∀ p x, t = some (p, x) → x.ref.func = f) (sequence es)
  | [], f => by
    rw [sequence]
    exact .pure (by simp)
  | e :: es, f => by
    rw [sequence]
    refine (expr_confined e f).bind fun x hx => (sequence_confined es f).bind fun t ht => ?_
    cases t with
    | some last => exact .pure ht
    | none =>
      refine .pure ?_
      rintro p y ⟨⟩
      exact hx

end

theorem topLevel_confined (i : Nat) (es : List Expr) (f : Nat) :
    Confined f (fun _ => True) (topLevel i es) := by
  induction es generalizing i with
  | nil => exact .pure trivial
  | cons e es ih =>
    exact (Confined.emitEvent _).bind fun _ _ => (expr_confined e f).bind fun _ _ => ih (i + 1)

end Lowering

end Wordlang
