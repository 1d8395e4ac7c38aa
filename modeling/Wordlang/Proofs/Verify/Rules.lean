import Mathlib.Data.List.Basic
import Wordlang.IR.Module

/-!
# Well-formed modules

The rules of the intermediate representation, stated without a checker. Symbols are distinct. The
values of a function are computed in the order of its blocks, each from values before it and according
to the typing rule of its operation, and every block returns one of those computed so far.
-/

namespace Wordlang.IR

/-! ## Lists in which what comes before matters -/

section

variable {α β : Type} {q : List α → α → Prop}

/-- Each element is in the relation with those before it. -/
def InOrder (q : List α → α → Prop) (l : List α) : Prop :=
  ∀ before x after, l = before ++ x :: after → q before x

theorem InOrder.nil : InOrder q [] := by
  intro before x after h
  simp at h

theorem inOrder_append {l₁ l₂ : List α} :
    InOrder q (l₁ ++ l₂) ↔ InOrder q l₁ ∧ InOrder (fun before => q (l₁ ++ before)) l₂ := by
  constructor
  · intro h
    refine ⟨?_, ?_⟩
    · rintro before x after rfl
      exact h before x (after ++ l₂) (by simp)
    · rintro before x after rfl
      exact h (l₁ ++ before) x after (by simp)
  · rintro ⟨h₁, h₂⟩ before x after heq
    rcases List.append_eq_append_iff.1 heq with ⟨more, rfl, hl₂⟩ | ⟨more, hl₁, hmore⟩
    · exact h₂ more x after hl₂
    · cases more with
      | nil =>
        rw [List.append_nil] at hl₁
        have hfirst : q (l₁ ++ []) x := h₂ [] x after hmore.symm
        rwa [List.append_nil, hl₁] at hfirst
      | cons y more =>
        obtain ⟨rfl, rfl⟩ := List.cons.inj hmore
        exact h₁ before x more hl₁

theorem inOrder_cons {a : α} {l : List α} :
    InOrder q (a :: l) ↔ q [] a ∧ InOrder (fun before => q (a :: before)) l := by
  have hone : InOrder q [a] ↔ q [] a := by
    constructor
    · intro h
      exact h [] a [] rfl
    · intro h before x after heq
      cases before with
      | nil =>
        obtain ⟨rfl, -⟩ := List.cons.inj heq
        exact h
      | cons y before => simp at heq
  rw [← List.singleton_append, inOrder_append, hone]
  rfl

theorem inOrder_and {q' : List α → α → Prop} {l : List α} :
    InOrder (fun before x => q before x ∧ q' before x) l ↔ InOrder q l ∧ InOrder q' l := by
  constructor
  · intro h
    exact ⟨fun before x after heq => (h before x after heq).1,
      fun before x after heq => (h before x after heq).2⟩
  · rintro ⟨h, h'⟩ before x after heq
    exact ⟨h before x after heq, h' before x after heq⟩

/-- A property that does not depend on what comes before. -/
theorem inOrder_forall {r : α → Prop} {l : List α} : InOrder (fun _ => r) l ↔ ∀ x ∈ l, r x := by
  constructor
  · intro h x hx
    obtain ⟨before, after, heq⟩ := List.append_of_mem hx
    exact h before x after heq
  · rintro h before x after rfl
    exact h x (by simp)

/-- The elements of several lists, one list after the other. -/
theorem inOrder_flatMap {g : β → List α} {l : List β} :
    InOrder q (l.flatMap g) ↔
      InOrder (fun before x => InOrder (fun earlier => q (before.flatMap g ++ earlier)) (g x)) l := by
  induction l generalizing q with
  | nil => exact ⟨fun _ => .nil, fun _ => .nil⟩
  | cons b l ih =>
    rw [List.flatMap_cons, inOrder_append, inOrder_cons, ih]
    simp only [List.flatMap_cons, List.flatMap_nil, List.nil_append, List.append_assoc]

end

/-! ## Values -/

namespace Module

/-- The argument is there, and of the type. -/
def HasType (m : Module) (a : Option ValueRef) (t : Ty) : Prop :=
  ∃ r v, a = some r ∧ m.value? r = some v ∧ v.type = t

/-- A slot that the argument leads to is one for values of the type. -/
def Holds (m : Module) (r : ValueRef) (t : Ty) : Prop :=
  ∀ v, m.value? r = some v → v.op = .alloca → v.elem = t

/-- A value refers to a function, of the given signature if it has one. -/
inductive RefersTo (m : Module) : Aux → Option Signature → Prop where
  | listed {i : Nat} {g : Func} (h : m.funcs[i]? = some g) : RefersTo m (.func i) g.sig
  | outer (name : String) (sig : Option Signature) : RefersTo m (.outerFunc name sig) sig

/-- The arguments may be passed to a function of the signature: one for each parameter, of its type,
and more of them only to a variadic one. -/
structure Passes (m : Module) (sig : Signature) (args : List (Option ValueRef)) : Prop where
  enough : sig.params.length ≤ args.length
  limited : sig.variadic = false → args.length = sig.params.length
  typed : ∀ (i : Nat) t a, sig.params[i]? = some t → args[i]? = some a → m.HasType a t

/-- The typing rule of each operation, for a value of the function `f`, whose signature is `sig`. -/
inductive ValueRule (m : Module) (f : Func) (sig : Signature) (v : Value) : Prop where
  | const32 (op : v.op = .const32) (args : v.args = []) (type : v.type = .i32)
  | globalAddr (op : v.op = .globalAddr) (args : v.args = []) (type : v.type = .ptr)
    (aux : (∃ g, v.aux = .global g) ∨ ∃ name, v.aux = .outerGlobal name)
  | funcAddr (op : v.op = .funcAddr) (args : v.args = []) (type : v.type = .ptr)
    (aux : ∃ called, m.RefersTo v.aux called)
  | arg (i : Nat) (op : v.op = .arg) (args : v.args = []) (number : v.number = i)
    (type : sig.params[i]? = some v.type)
  | alloca (op : v.op = .alloca) (args : v.args = []) (type : v.type = .ptr)
    (elem : v.elem = .i32 ∨ v.elem = .ptr) (entry : v.block = f.entry)
  | load (p : ValueRef) (op : v.op = .load) (args : v.args = [some p])
    (address : m.HasType (some p) .ptr) (slot : m.Holds p v.type)
  | store (p x : ValueRef) (t : Ty) (op : v.op = .store) (type : v.type = .void)
    (args : v.args = [some p, some x]) (address : m.HasType (some p) .ptr)
    (value : m.HasType (some x) t) (slot : m.Holds p t)
  | add32 (x y : ValueRef) (op : v.op = .add32) (type : v.type = .i32)
    (args : v.args = [some x, some y]) (left : m.HasType (some x) .i32)
    (right : m.HasType (some y) .i32)
  | call (called : Signature) (op : v.op = .call) (aux : m.RefersTo v.aux (some called))
    (type : v.type = called.result) (passes : m.Passes called v.args)
  | callIndirect (called : Signature) (p : Option ValueRef) (args : List (Option ValueRef))
    (op : v.op = .callIndirect) (aux : v.aux = .signature called) (type : v.type = called.result)
    (args_eq : v.args = p :: args) (address : m.HasType p .ptr) (passes : m.Passes called args)

end Module

/-! ## Functions -/

/-- The values of a body, in the order in which they are computed. -/
def Func.sequence (f : Func) : List ValueRef := f.bodyBlocks.flatMap (·.2.values)

namespace Module

/-- A value is computed from values before it. -/
def Computed (m : Module) (before : List ValueRef) (r : ValueRef) : Prop :=
  ∀ v, m.value? r = some v → ∀ a ∈ v.args, ∃ x ∈ before, a = some x

/-- A block that returns one of the values computed so far, which is of the type. -/
def Returns (m : Module) (t : Ty) (computed : List ValueRef) (b : Block) : Prop :=
  b.kind = .ret ∧ ∃ r, b.controls = [some r] ∧ r ∈ computed ∧ m.HasType (some r) t

/-- The body of the function `f`, which is at the given place and of the signature `sig`. -/
structure BodyRule (m : Module) (place : Nat) (f : Func) (sig : Signature) : Prop where
  entry : ∃ first rest, f.body = first :: rest ∧ f.entry = some ⟨place, first⟩
  owners : ∀ x ∈ f.bodyBlocks, x.2.owner = place
  blocks : ∀ x ∈ f.bodyBlocks, ∀ r ∈ x.2.values, ∀ v, m.value? r = some v →
    v.block = some ⟨place, x.1⟩
  arguments : InOrder m.Computed f.sequence
  values : ∀ r ∈ f.sequence, ∀ v, m.value? r = some v → m.ValueRule f sig v
  returns : InOrder (fun before x =>
    m.Returns sig.result (before.flatMap (·.2.values) ++ x.2.values) x.2) f.bodyBlocks

/-- The function at the given place has a signature. One that lives elsewhere has no body, every
other one a body that obeys the rules. -/
inductive FuncRule (m : Module) (place : Nat) (f : Func) : Prop where
  | external (sig : Signature) (hsig : f.sig = some sig) (external : f.external = true)
    (body : f.body = [])
  | defined (sig : Signature) (hsig : f.sig = some sig) (defined : f.external = false)
    (body : m.BodyRule place f sig)

/-- The rules for modules. -/
structure WellFormed (m : Module) : Prop where
  symbols : (m.globals.map (·.name) ++ m.funcs.map (·.name)).Nodup
  members : ∀ f ∈ m.funcs, f.foreign = false
  funcs : ∀ place f, m.funcs[place]? = some f → m.FuncRule place f

/-! ## What a module lists -/

/-- Everything in the list leads to a value. -/
def Reached (m : Module) (rs : List ValueRef) : Prop := ∀ r ∈ rs, (m.value? r).isSome

/-- Every value that a block lists is there. -/
def Listed (m : Module) : Prop := ∀ f ∈ m.funcs, m.Reached f.sequence

instance (m : Module) (rs : List ValueRef) : Decidable (m.Reached rs) :=
  inferInstanceAs (Decidable (∀ r ∈ rs, (m.value? r).isSome))

instance (m : Module) : Decidable m.Listed :=
  inferInstanceAs (Decidable (∀ f ∈ m.funcs, m.Reached f.sequence))

end Module

end Wordlang.IR
