import Wordlang.Proofs.Lowering.Verified
import Wordlang.Proofs.Static

/-!
# Lowering and the static rules

Lowering fails exactly when a static rule is violated, with the error of that rule. The proof runs
the two side by side: whenever lowering looks a name up, the check finds what lowering finds, apart
from the slots and the places of functions, and what lowering writes into the module changes no name.
-/

namespace Wordlang.Static

open IR Outcome Builder

/-! ## Names -/

/-- What lowering records of a value about which the check knows `x`. -/
def Info.view (x : Info) : Ty × Option Signature := (x.kind.type, x.arity.map userSignature)

/-- The scope has the variables of the list. -/
def ScopeAgrees (scope : Scope) (vars : List (String × Info)) : Prop :=
  ∀ n, (scope.find? n).map (fun v => (v.elem, v.sig)) = (vars.lookup n).map Info.view

/-- The environment of lowering has the names of the check. -/
structure Agrees (env : Env) (s : Names) : Prop where
  scopes : List.Forall₂ ScopeAgrees env.scopes s.scopes
  funcs : ∀ n, (env.findFunc? n).map (·.sig) = (s.function? n).map userSignature

theorem Kind.type_inj {a b : Kind} : a.type = b.type ↔ a = b := by
  cases a <;> cases b <;> simp [Kind.type]

variable {env : Env} {s : Names} {b b' : Builder}

theorem Agrees.findVar? (h : Agrees env s) (n : String) :
    (env.findVar? n).map (fun v => (v.elem, v.sig)) = (s.var? n).map Info.view := by
  have hscopes := h.scopes
  rw [Env.findVar?, Names.var?]
  cases hs : s.scopes with
  | nil =>
    rw [hs, List.forall₂_nil_right_iff] at hscopes
    simp [hscopes]
  | cons vars outer =>
    rw [hs, List.forall₂_cons_right_iff] at hscopes
    obtain ⟨scope, outer', hscope, -, he⟩ := hscopes
    rw [he]
    exact hscope n

theorem Agrees.findVarAnywhere? (h : Agrees env s) (n : String) :
    (env.findVarAnywhere? n).isSome = s.hasVariable n := by
  have hscopes := h.scopes
  rw [Env.findVarAnywhere?, Names.hasVariable]
  generalize env.scopes = scopes at hscopes ⊢
  generalize s.scopes = tables at hscopes ⊢
  induction hscopes with
  | nil => rfl
  | cons hscope _ ih =>
    have hn := congrArg Option.isSome (hscope n)
    rw [Option.isSome_map, Option.isSome_map] at hn
    rw [List.findSome?_cons, List.any_cons, ← hn, ← ih]
    split <;> simp [*]

theorem ScopeAgrees.insert {scope : Scope} {vars : List (String × Info)} {v : Binding} {x : Info}
    (h : ScopeAgrees scope vars) (hx : (v.elem, v.sig) = x.view) :
    ScopeAgrees (scope.insert v) ((v.name, x) :: vars) := by
  intro n
  have hn := h n
  simp only [Scope.find?, Scope.insert, List.find?_cons, List.lookup_cons] at hn ⊢
  by_cases hv : v.name = n
  · simp only [hv, decide_true, beq_self_eq_true, Option.map_some, hx]
  · have hbeq : (n == v.name) = false := by simpa using Ne.symm hv
    simp only [hv, decide_false, hbeq]
    rw [← hn, List.find?_filter]
    congr 2
    funext a
    by_cases ha : a.name = n
    · simp [ha, Ne.symm hv]
    · simp [ha]

theorem Agrees.bound (h : Agrees env s) {v : Binding} {x : Info}
    (hx : (v.elem, v.sig) = x.view) : Agrees (Lowering.bound env v) (s.bind v.name x) := by
  obtain ⟨hscopes, hfuncs⟩ := h
  obtain ⟨scopes, funcs⟩ := env
  obtain ⟨tables, table⟩ := s
  cases hscopes with
  | nil => exact ⟨.nil, hfuncs⟩
  | cons hscope houter => exact ⟨.cons (hscope.insert hx) houter, hfuncs⟩

theorem Agrees.defineFunc (h : Agrees env s) (name : String) (f n : Nat) :
    Agrees (env.defineFunc { name, func := f, sig := userSignature n })
      { s with funcs := (name, n) :: s.funcs } := by
  refine ⟨h.scopes, ?_⟩
  intro m
  have hm := h.funcs m
  rw [Env.findFunc?_defineFunc _ _ rfl, Names.function?, List.lookup_cons]
  by_cases hn : name = m
  · simp only [hn, if_true, Option.map_some, beq_self_eq_true]
  · have hbeq : (m == name) = false := by simpa using Ne.symm hn
    simp only [hn, if_false, hbeq]
    exact hm

theorem Agrees.openScope (h : Agrees env s) (title : String) :
    Agrees (env.openScope title) { s with scopes := [] :: s.scopes } :=
  ⟨.cons (fun _ => rfl) h.scopes, h.funcs⟩

theorem Agrees.closeScope (h : Agrees b.env s) :
    Agrees b.closeScope.env { s with scopes := s.scopes.tail } := by
  obtain ⟨-, hfuncs, hscopes⟩ := Lowering.closeScope_eq b
  refine ⟨?_, ?_⟩
  · rw [hscopes]
    have hall := h.scopes
    generalize b.env.scopes = scopes at hall ⊢
    generalize s.scopes = tables at hall ⊢
    cases hall with
    | nil => exact .nil
    | cons _ houter => exact houter
  · intro n
    rw [Env.findFunc?_congr hfuncs]
    exact h.funcs n

/-! ## Ending alike -/

/-- Lowering and the check both succeed, with results that `R` relates and with the same names, or
both fail with the same error. -/
def Same {α β : Type} (R : α → β → Prop) (r : EStateM.Result LoweringError Builder α)
    (c : Except LoweringError (β × Names)) : Prop :=
  match r, c with
  | .ok a b, .ok (x, s) => R a x ∧ Agrees b.env s
  | .error e _, .error e' => e = e'
  | _, _ => False

variable {α β γ δ : Type} {R : α → β → Prop} {Q : γ → δ → Prop}

theorem Same.bind {x : Lowering α} {y : Check β} {f : α → Lowering γ} {g : β → Check δ}
    (h : Same R (x b) (y s))
    (hfg : ∀ a b k s, R a k → Agrees b.env s → Same Q (f a b) (g k s)) :
    Same Q ((x >>= f) b) ((y >>= g) s) := by
  cases hx : x b with
  | ok a b' =>
    cases hy : y s with
    | ok ks =>
      obtain ⟨k, s'⟩ := ks
      rw [hx, hy] at h
      have hq := hfg a b' k s' h.1 h.2
      rw [bind_ok hx]
      simpa [Bind.bind, StateT.bind, Except.bind, hy] using hq
    | error e =>
      rw [hx, hy] at h
      exact h.elim
  | error e b' =>
    cases hy : y s with
    | ok ks =>
      rw [hx, hy] at h
      exact h.elim
    | error e' =>
      rw [hx, hy] at h
      obtain rfl : e = e' := h
      rw [bind_error hx]
      simp [Bind.bind, StateT.bind, Except.bind, hy, Same]

/-- A step of lowering that only writes into the module has no counterpart in the check. -/
theorem Same.write {x : Lowering α} {a : α} {f : α → Lowering γ} {c : Except LoweringError (δ × Names)}
    (hx : x b = .ok a b') (h : Same Q (f a b') c) : Same Q ((x >>= f) b) c := by
  rw [bind_ok hx]
  exact h

theorem Same.map_left {x : Lowering α} {c : Except LoweringError (β × Names)}
    (h : Same (fun _ _ => True) (x b) c) (f : α → γ) :
    Same (fun _ _ => True) ((do return f (← x)) b) c := by
  cases hx : x b with
  | ok a b' =>
    rw [hx] at h
    rw [bind_ok hx]
    cases c with
    | ok ks => exact h
    | error e => exact h
  | error e b' =>
    rw [hx] at h
    rw [bind_error hx]
    cases c with
    | ok ks => exact h
    | error e => exact h

theorem Same.fail (pos : Position) (fault : LoweringFault) :
    Same R ((Lowering.fail pos fault : Lowering α) b) ((fail pos fault : Check β) s) := rfl

/-- A rule that both sides test, with the same error if it is violated. -/
theorem Same.guard {p q : Prop} [Decidable p] [Decidable q] {pos : Position}
    {fault fault' : LoweringFault} {f : α → Lowering γ} {g : β → Check δ} {x : Lowering γ}
    {y : Check δ} (hpq : p ↔ q) (hfault : fault = fault') (h : ¬ q → Same Q (x b) (y s)) :
    Same Q ((if p then Lowering.fail pos fault >>= f else x) b)
      ((if q then Static.fail pos fault' >>= g else y) s) := by
  by_cases hq : q
  · rw [if_pos (hpq.2 hq), if_pos hq, hfault]
    exact rfl
  · rw [if_neg (mt hpq.1 hq), if_neg hq]
    exact h hq

theorem get_bind (f : Names → Check β) : ((get >>= f : Check β) s) = f s s := rfl

/-- An operand is as the check knows it. -/
def Known (x : Operand) (k : Info) : Prop := (x.type, x.sig) = k.view

/-- An operand with its position is as the check knows it. -/
def KnownAt (x : Position × Operand) (k : Position × Info) : Prop := x.1 = k.1 ∧ Known x.2 k.2

/-! ## Steps -/

/-- Writing a value succeeds and leaves the names alone. -/
theorem emit_keeps (b : Builder) (v : Value) (args : List ValueRef) :
    ∃ r b', Lowering.emit v args b = .ok r b' ∧ b'.env = b.env :=
  ⟨_, _, Lowering.emit_eq b v args, rfl⟩

theorem emitRead_keeps (b : Builder) (x : Operand) (pos : Position) :
    ∃ r b', Lowering.emitRead x pos b = .ok r b' ∧ b'.env = b.env := by
  unfold Lowering.emitRead
  split
  · exact emit_keeps b _ _
  · exact ⟨_, _, rfl, rfl⟩

theorem emitStore_keeps (b : Builder) (slot v : ValueRef) (pos : Position) :
    ∃ b', Lowering.emitStore slot v pos b = .ok () b' ∧ b'.env = b.env := by
  obtain ⟨r, b', hb', henv⟩ := emit_keeps b { op := .store, type := .void, pos } [slot, v]
  refine ⟨b', ?_, henv⟩
  rw [Lowering.emitStore, bind_ok hb']
  rfl

theorem emitFuncAddr_keeps (b : Builder) (f : Nat) (sig : Signature) (pos : Position) :
    ∃ r b', Lowering.emitFuncAddr f sig pos b = .ok { ref := r, type := .ptr, sig := some sig } b' ∧
      b'.env = b.env := by
  obtain ⟨r, b', hb', henv⟩ := emit_keeps b { op := .funcAddr, type := .ptr, aux := .func f, pos } []
  refine ⟨r, b', ?_, henv⟩
  rw [Lowering.emitFuncAddr, bind_ok hb']
  rfl

theorem nameValue_same (h : Agrees b.env s) (id : Ident) :
    Same Known (Lowering.nameValue id b) (nameValue id s) := by
  have hget : (get : Lowering Builder) b = .ok b b := rfl
  have hvar := h.findVar? id.name
  have hfunc := h.funcs id.name
  rw [Lowering.nameValue, bind_ok hget, nameValue, get_bind]
  cases hv : b.env.findVar? id.name with
  | some v =>
    rw [hv] at hvar
    obtain ⟨x, hx, hview⟩ := Option.map_eq_some_iff.1 hvar.symm
    rw [hx]
    exact ⟨hview.symm, h⟩
  | none =>
    rw [hv] at hvar
    rw [Option.map_eq_none_iff.1 hvar.symm]
    cases hc : b.env.findFunc? id.name with
    | some c =>
      rw [hc] at hfunc
      obtain ⟨n, hn, hsig⟩ := Option.map_eq_some_iff.1 hfunc.symm
      obtain ⟨r, b', hb', henv⟩ := emitFuncAddr_keeps b c.func c.sig id.pos
      simp only [hn, hb']
      refine ⟨?_, henv ▸ h⟩
      simp [Known, Info.view, Kind.type, hsig]
    | none =>
      rw [hc] at hfunc
      simp only [Option.map_eq_none_iff.1 hfunc.symm]
      exact Same.fail _ _

theorem assignValue_same (h : Agrees b.env s) {x : Operand} {k : Info} (hx : Known x k)
    (pos : Position) (name : String) :
    Same Known (Lowering.assignValue pos name x b) (assignValue pos name k s) := by
  obtain ⟨r, b₁, hb₁, henv⟩ := emitRead_keeps b x pos
  have hget : (get : Lowering Builder) b₁ = .ok b₁ b₁ := rfl
  have hvar := h.findVar? name
  have hfunc := h.funcs name
  have htype : x.type = k.kind.type := congrArg Prod.fst hx
  rw [Lowering.assignValue, bind_ok hb₁, bind_ok hget, henv, assignValue, get_bind]
  -- storing the value binds the name on both sides
  have hstore : ∀ (slot : ValueRef) b₂, b₂.env = b.env →
      Same Known ((do
        Lowering.emitStore slot r pos
        Lowering.bindVar { name, slot, elem := x.type, sig := x.sig }
        return { ref := r, type := x.type, sig := x.sig } : Lowering Operand) b₂)
        (.ok (k, s.bind name k)) := by
    intro slot b₂ henv₂
    obtain ⟨b₃, hb₃, henv₃⟩ := emitStore_keeps b₂ slot r pos
    refine .write hb₃ ⟨hx, ?_⟩
    show Agrees (Lowering.bound b₃.env _) _
    rw [henv₃, henv₂]
    exact h.bound (v := { name, slot, elem := x.type, sig := x.sig }) hx
  have hconflict : (b.env.findFunc? name).isSome = true ↔ (s.function? name).isSome = true := by
    have := congrArg Option.isSome hfunc
    rw [Option.isSome_map, Option.isSome_map] at this
    rw [this]
  refine .guard hconflict rfl fun _ => ?_
  cases hv : b.env.findVar? name with
  | some old =>
    rw [hv] at hvar
    obtain ⟨y, hy, hview⟩ := Option.map_eq_some_iff.1 hvar.symm
    have helem : y.kind.type = old.elem := congrArg Prod.fst hview
    have hkind : old.elem ≠ x.type ↔ y.kind ≠ k.kind := by
      rw [← helem, htype]
      exact not_congr Kind.type_inj
    rw [hy]
    exact .guard hkind (by rw [← helem, htype]) fun _ => hstore old.slot b₁ henv
  | none =>
    rw [hv] at hvar
    rw [Option.map_eq_none_iff.1 hvar.symm]
    obtain ⟨r', b₂, hb₂, henv₂⟩ := emit_keeps b₁
      { op := .alloca, type := .ptr, elem := x.type, aux := .name name, pos } []
    exact .write hb₂ (hstore r' b₂ (henv₂.trans henv))

/-! ## Calls -/

/-- A call goes where the check says, to a function with that many integer parameters. -/
theorem callTarget_same (h : Agrees b.env s) (pos : Position) (name : String) :
    Same (fun t n => t.2 = userSignature n) (Lowering.callTarget pos name b)
      (calleeArity pos name s) := by
  have hget : (get : Lowering Builder) b = .ok b b := rfl
  have hvar := h.findVar? name
  have hfunc := h.funcs name
  rw [Lowering.callTarget, bind_ok hget, calleeArity, get_bind]
  cases hf : b.env.findFunc? name with
  | some c =>
    rw [hf] at hfunc
    obtain ⟨n, hn, hsig⟩ := Option.map_eq_some_iff.1 hfunc.symm
    rw [hn]
    exact ⟨hsig.symm, h⟩
  | none =>
    rw [hf] at hfunc
    rw [Option.map_eq_none_iff.1 hfunc.symm]
    cases hv : b.env.findVar? name with
    | none =>
      rw [hv] at hvar
      rw [Option.map_eq_none_iff.1 hvar.symm]
      exact Same.fail _ _
    | some v =>
      rw [hv] at hvar
      obtain ⟨y, hy, hview⟩ := Option.map_eq_some_iff.1 hvar.symm
      have hsig : y.arity.map userSignature = v.sig := congrArg Prod.snd hview
      rw [hy]
      cases ha : y.arity with
      | none =>
        rw [ha] at hsig
        simp only [ha, ← hsig, Option.map_none]
        exact Same.fail _ _
      | some n =>
        rw [ha] at hsig
        simp only [ha, ← hsig, Option.map_some]
        exact ⟨rfl, h⟩

theorem readArgs_same (h : Agrees b.env s) {n i : Nat} {xs : List (Position × Operand)}
    {ks : List (Position × Info)} (hxs : List.Forall₂ KnownAt xs ks) (hn : xs.length = n)
    (name : String) :
    Same (fun _ _ => True) (Lowering.readArgs name i (List.replicate n .i32) xs b)
      (integers name i ks s) := by
  induction hxs generalizing b n i with
  | nil => exact ⟨trivial, h⟩
  | @cons x k xs ks hx _ ih =>
    obtain ⟨pos, x⟩ := x
    obtain ⟨pos', k⟩ := k
    obtain ⟨rfl, hx⟩ : pos = pos' ∧ Known x k := hx
    obtain ⟨r, b₁, hb₁, henv⟩ := emitRead_keeps b x pos
    have htype : x.type = k.kind.type := congrArg Prod.fst hx
    subst hn
    have hkind : x.type ≠ .i32 ↔ k.kind ≠ .i32 := by
      have htypes : k.kind.type = Kind.i32.type ↔ k.kind = .i32 := Kind.type_inj
      rw [htype]
      exact not_congr htypes
    rw [Lowering.readArgs, bind_ok hb₁, integers, List.length_cons, List.replicate_succ]
    refine .guard hkind (by rw [htype]) fun _ => ?_
    have hrest := ih (b := b₁) (i := i + 1) (henv ▸ h) rfl
    exact hrest.map_left _

/-- A call is checked in the order in which it is lowered: what it goes to, the number of arguments,
their types. -/
theorem callNamed_same (h : Agrees b.env s) {xs : List (Position × Operand)}
    {ks : List (Position × Info)} (hxs : List.Forall₂ KnownAt xs ks) (pos : Position)
    (name : String) :
    Same Known (Lowering.callNamed pos name xs b) (callNamed pos name ks s) := by
  rw [Lowering.callNamed, callNamed]
  refine (callTarget_same h pos name).bind ?_
  rintro ⟨target, sig⟩ b₁ n s₁ hsig h₁
  obtain rfl : sig = userSignature n := hsig
  have hlen := hxs.length_eq
  have harity : (!(userSignature n).accepts xs.length) = true ↔ ks.length ≠ n := by
    simp [Signature.accepts, userSignature, hlen, Ne, @eq_comm Nat n]
  have hcount : (userSignature n).params.length = n := by simp [userSignature]
  refine .guard harity (by rw [hcount, hlen]) fun hn => ?_
  rw [ne_eq, not_not] at hn
  refine (readArgs_same h₁ hxs (hlen.trans hn) name).bind ?_
  intro vals b₂ u s₂ _ h₂
  -- what is left writes the call and keeps its result
  have hkeep : ∀ (r : ValueRef) b₃, b₃.env = b₂.env →
      Same Known ((do
        let slot ← Lowering.emitSlot (userSignature n).result name pos
        Lowering.emitStore slot r pos
        return { ref := slot, type := (userSignature n).result, isSlot := true } :
          Lowering Operand) b₃) ((return { kind := .i32 } : Check Info) s₂) := by
    intro r b₃ henv₃
    obtain ⟨slot, b₄, hb₄, henv₄⟩ := emit_keeps b₃
      { op := .alloca, type := .ptr, elem := (userSignature n).result, aux := .name name, pos } []
    obtain ⟨b₅, hb₅, henv₅⟩ := emitStore_keeps b₄ slot r pos
    refine .write hb₄ (.write hb₅ ⟨rfl, ?_⟩)
    rw [henv₅, henv₄, henv₃]
    exact h₂
  cases target with
  | direct f =>
    obtain ⟨r, b₃, hb₃, henv₃⟩ := emit_keeps b₂
      { op := .call, type := (userSignature n).result, aux := .func f, pos } vals
    exact .write hb₃ (hkeep r b₃ henv₃)
  | indirect slot =>
    obtain ⟨address, b₃, hb₃, henv₃⟩ := emit_keeps b₂ { op := .load, type := .ptr, pos } [slot]
    obtain ⟨r, b₄, hb₄, henv₄⟩ := emit_keeps b₃
      { op := .callIndirect, type := (userSignature n).result,
        aux := .signature (userSignature n), pos } (address :: vals)
    exact .write hb₃ (.write hb₄ (hkeep r b₄ (henv₄.trans henv₃)))

/-! ## Functions -/

theorem parameters_eq (s : Names) (i : Nat) (ps : List Expr) :
    parameters i ps s =
      match Lowering.paramNames i ps with
      | .ok ids => .ok (ids.map (·.name), s)
      | .error e => .error e := by
  induction ps generalizing i with
  | nil => rfl
  | cons p ps ih =>
    cases p with
    | name id =>
      have hrest := ih (i + 1)
      simp only [parameters, Lowering.paramNames, Bind.bind, StateT.bind, Except.bind, hrest]
      cases Lowering.paramNames (i + 1) ps <;> rfl
    | _ => rfl

theorem declareFunc_same (h : Agrees b.env s) (target : Ident) (pos : Position)
    (params : List Expr) :
    Same (fun f names => names = f.2.map (·.name)) (Lowering.declareFunc target pos params b)
      (declare target params s) := by
  have hget : (get : Lowering Builder) b = .ok b b := rfl
  have hparams := parameters_eq s 0 params
  rw [Lowering.declareFunc, bind_ok hget, declare, get_bind]
  refine .guard (by rw [h.findVarAnywhere?]) rfl fun _ => ?_
  cases hp : Lowering.paramNames 0 params with
  | error e =>
    rw [hp] at hparams
    simp only [Bind.bind, StateT.bind, Except.bind, hparams]
    exact rfl
  | ok ids =>
    rw [hp] at hparams
    simp only [Bind.bind, StateT.bind, Except.bind, hparams]
    have henv := h.defineFunc target.name
      (b.module.addFunc target.name (userSignature ids.length) (ids.map (·.name))).1 ids.length
    refine ⟨rfl, ?_⟩
    rw [List.length_map]
    exact henv

/-- Giving the parameters their slots makes them integer variables. -/
theorem spillParams_same (h : Agrees b.env s) (i : Nat) (ids : List Ident) :
    ∃ b', Lowering.spillParams i ids b = .ok () b' ∧
      Agrees b'.env ((ids.map (·.name)).foldl (·.bind · { kind := .i32 }) s) := by
  induction ids generalizing b s i with
  | nil => exact ⟨b, rfl, h⟩
  | cons p ids ih =>
    obtain ⟨arg, b₁, hb₁, henv₁⟩ := emit_keeps b (argValue i p.name p.pos) []
    obtain ⟨slot, b₂, hb₂, henv₂⟩ := emit_keeps b₁
      { op := .alloca, type := .ptr, elem := .i32, aux := .name p.name, pos := p.pos } []
    obtain ⟨b₃, hb₃, henv₃⟩ := emitStore_keeps b₂ slot arg p.pos
    let v : Binding := { name := p.name, slot, elem := .i32 }
    have hbind : Lowering.bindVar v b₃ = .ok () { b₃ with env := Lowering.bound b₃.env v } := rfl
    have hv : (v.elem, v.sig) = Info.view { kind := .i32 } := rfl
    have h₃ : Agrees b₃.env s := by
      rw [henv₃, henv₂, henv₁]
      exact h
    obtain ⟨b', hb', h'⟩ := ih (b := { b₃ with env := Lowering.bound b₃.env v }) (h₃.bound hv)
      (i + 1)
    refine ⟨b', ?_, h'⟩
    have hslot : Lowering.emitSlot .i32 p.name p.pos b₁ = .ok slot b₂ := hb₂
    rw [Lowering.spillParams, bind_ok hb₁, bind_ok hslot, bind_ok hb₃, bind_ok hbind, hb']

/-- The operand that a body ends in is the last that the check knows. -/
def LastKnown (t : Option (Position × Operand)) (ks : List (Position × Info)) : Prop :=
  match t, ks.getLast? with
  | none, none => True
  | some x, some k => KnownAt x k
  | _, _ => False

theorem returnTail_same (h : Agrees b.env s) {t : Option (Position × Operand)}
    {ks : List (Position × Info)} (ht : LastKnown t ks) (name : String) (pos : Position) :
    Same (fun _ _ => True) (Lowering.returnTail name pos t b) (result name pos ks s) := by
  unfold LastKnown at ht
  unfold Lowering.returnTail result
  cases t with
  | none =>
    cases hk : ks.getLast? with
    | none => exact Same.fail _ _
    | some k =>
      rw [hk] at ht
      exact ht.elim
  | some x =>
    cases hk : ks.getLast? with
    | none =>
      rw [hk] at ht
      exact ht.elim
    | some k =>
      rw [hk] at ht
      obtain ⟨last, x⟩ := x
      obtain ⟨last', k⟩ := k
      obtain ⟨rfl, hx⟩ : last = last' ∧ Known x k := ht
      have htype : x.type = k.kind.type := congrArg Prod.fst hx
      obtain ⟨r, b₁, hb₁, henv⟩ := emitRead_keeps b x last
      refine .write hb₁ ?_
      by_cases hi : k.kind = .i32
      · have hx' : x.type = .i32 := by rw [htype, hi]; rfl
        simp only [hi, hx', ne_eq, not_true_eq_false, if_false]
        exact ⟨trivial, henv ▸ h⟩
      · have hx' : k.kind.type ≠ .i32 := fun hc => hi (Kind.type_inj.1 hc)
        simp only [htype, if_pos hx', if_pos hi]
        exact rfl

/-- What is checked in a scope of its own is lowered in one. -/
theorem Same.inScope {body : Lowering Unit} {y : Check Unit} {title : String} {site : BlockRef}
    (h : Same (fun _ _ => True) (body { b with env := b.env.openScope title, site }) (y s)) :
    Same (fun _ _ => True) (Builder.inScope title site body b) ((do y; leave) s) := by
  have hy : ((do y; leave) s : Except LoweringError (Unit × Names)) =
      (y s).bind fun p => .ok ((), { p.2 with scopes := p.2.scopes.tail }) := rfl
  rw [hy]
  cases hb : body { b with env := b.env.openScope title, site } with
  | ok u b' =>
    rw [hb] at h
    rw [Lowering.inScope_ok hb]
    cases hc : y s with
    | ok p =>
      rw [hc] at h
      exact ⟨trivial, h.2.closeScope⟩
    | error e =>
      rw [hc] at h
      exact h.elim
  | error e b' =>
    rw [hb] at h
    rw [Lowering.inScope_error hb]
    cases hc : y s with
    | ok p =>
      rw [hc] at h
      exact h.elim
    | error e' =>
      rw [hc] at h
      exact h

/-! ## Expressions -/

/-- Lowering the expression and checking it end alike. -/
def ExprSame (e : Expr) : Prop :=
  ∀ ⦃b s⦄, Agrees b.env s → Same Known (Lowering.expr e b) (expr e s)

/-- The same for the arguments of a call. -/
def ArgumentsSame (es : List Expr) : Prop :=
  ∀ ⦃b s⦄, Agrees b.env s → Same (List.Forall₂ KnownAt) (Lowering.arguments es b) (exprs es s)

/-- The same for the body of a function. -/
def SequenceSame (es : List Expr) : Prop :=
  ∀ ⦃b s⦄, Agrees b.env s → Same LastKnown (Lowering.sequence es b) (exprs es s)

theorem define_same {body : List Expr} (hbody : SequenceSame body) (p : Position) (target : Ident)
    (pos : Position) (params : List Expr) :
    ExprSame (.assign p target (.function pos params body)) := by
  intro b s h
  have hcheck : expr (.assign p target (.function pos params body)) = do
      let names ← declare target params
      (do
        (do
          enter names
          result target.name pos (← exprs body))
        leave)
      return { kind := .ptr, arity := some names.length } := by
    simp only [expr, bind_assoc]
  rw [hcheck, Lowering.expr]
  refine (declareFunc_same h target pos params).bind ?_
  rintro ⟨f, ids⟩ b₁ names s₁ rfl h₁
  refine Same.bind (R := fun _ _ => True) (Same.inScope ?_) ?_
  · obtain ⟨b₂, hb₂, h₂⟩ := spillParams_same
      (b := { b₁ with env := b₁.env.openScope ("function " ++ target.name), site := ⟨f, 0⟩ })
      (h₁.openScope ("function " ++ target.name)) 0 ids
    refine .write hb₂ ?_
    refine (hbody h₂).bind ?_
    intro t b₃ ks s₃ ht h₃
    exact returnTail_same h₃ ht target.name pos
  · intro _ b₂ _ s₂ _ h₂
    obtain ⟨r, b₃, hb₃, henv⟩ := emitFuncAddr_keeps b₂ f (userSignature ids.length) pos
    rw [hb₃]
    refine ⟨?_, henv ▸ h₂⟩
    simp [Known, Info.view, Kind.type]

mutual

/-- Lowering an expression and checking it end alike. -/
theorem expr_same : ∀ e : Expr, ExprSame e
  | .int pos n => by
    intro b s h
    obtain ⟨r, b', hb', henv⟩ := emit_keeps b { op := .const32, type := .i32, number := n.toInt, pos }
      []
    rw [Lowering.expr, expr, Lowering.emitConst, bind_ok hb']
    exact ⟨rfl, henv ▸ h⟩
  | .string pos content => by
    intro b s h
    rw [Lowering.expr, expr]
    exact ⟨rfl, h⟩
  | .name id => by
    intro b s h
    rw [Lowering.expr, expr]
    exact nameValue_same h id
  | .assign p target value => by
    have hvalue := expr_same value
    cases value with
    | function pos params body => exact define_same (sequence_same body) p target pos params
    | _ =>
      intro b s h
      rw [Lowering.expr_assign (by simp), expr_assign (by simp)]
      exact (hvalue h).bind fun x b₁ k s₁ hx h₁ => assignValue_same h₁ hx p target.name
  | .call pos callee args => by
    intro b s h
    rw [Lowering.expr, expr]
    exact (arguments_same args h).bind fun xs b₁ ks s₁ hxs h₁ =>
      callNamed_same h₁ hxs pos callee.name
  | .function pos params body => by
    intro b s _
    rw [Lowering.expr, expr]
    exact Same.fail _ _
  | .absent => by
    intro b s _
    simp only [Lowering.expr, expr]
    exact Same.fail _ _
  | .infixTail .. => by
    intro b s _
    simp only [Lowering.expr, expr]
    exact Same.fail _ _
  | .empty .. => by
    intro b s _
    simp only [Lowering.expr, expr]
    exact Same.fail _ _

theorem arguments_same : ∀ es : List Expr, ArgumentsSame es
  | [] => by
    intro b s h
    rw [Lowering.arguments, exprs]
    exact ⟨.nil, h⟩
  | e :: es => by
    intro b s h
    rw [Lowering.arguments, exprs]
    refine (expr_same e h).bind fun x b₁ k s₁ hx h₁ => ?_
    refine (arguments_same es h₁).bind fun xs b₂ ks s₂ hxs h₂ => ?_
    exact ⟨.cons ⟨rfl, hx⟩ hxs, h₂⟩

theorem sequence_same : ∀ es : List Expr, SequenceSame es
  | [] => by
    intro b s h
    rw [Lowering.sequence, exprs]
    exact ⟨trivial, h⟩
  | e :: es => by
    intro b s h
    rw [Lowering.sequence, exprs]
    refine (expr_same e h).bind fun x b₁ k s₁ hx h₁ => ?_
    refine (sequence_same es h₁).bind fun t b₂ ks s₂ ht h₂ => ?_
    cases t with
    | none =>
      refine ⟨?_, h₂⟩
      cases ks with
      | nil => exact ⟨rfl, hx⟩
      | cons k' ks => simp [LastKnown, List.getLast?_cons] at ht
    | some last =>
      refine ⟨?_, h₂⟩
      cases ks with
      | nil => exact ht.elim
      | cons k' ks =>
        unfold LastKnown
        rw [List.getLast?_cons_cons]
        exact ht

end

/-- What the check collects of the remaining expressions does not matter. -/
theorem Same.map_right {r : EStateM.Result LoweringError Builder α} {y : Check β}
    (h : Same (fun _ _ => True) r (y s)) (f : β → δ) :
    Same (fun _ _ => True) r ((do return f (← y)) s) := by
  have hmap : ((do return f (← y)) s : Except LoweringError (δ × Names)) =
      (y s).bind fun p => .ok (f p.1, p.2) := rfl
  rw [hmap]
  cases hy : y s with
  | ok p =>
    rw [hy] at h
    cases r with
    | ok a b' => exact h
    | error e b' => exact h
  | error e =>
    rw [hy] at h
    cases r with
    | ok a b' => exact h
    | error e b' => exact h

theorem topLevel_same (h : Agrees b.env s) (i : Nat) (es : List Expr) :
    Same (fun _ _ => True) (Lowering.topLevel i es b) (exprs es s) := by
  induction es generalizing b s i with
  | nil =>
    rw [exprs]
    exact ⟨trivial, h⟩
  | cons e es ih =>
    rw [Lowering.topLevel_cons, exprs]
    refine (expr_same e (b := { b with events := b.events ++ [.expression i e.kind e.pos] }) h).bind
      fun x b₁ k s₁ _ h₁ => ?_
    exact (ih h₁ (i + 1)).map_right _

/-- At the start both know the built-in functions that programs can see, and no variable. -/
theorem initial_agrees (name triple : String) : Agrees (Builder.initial name triple).env {} := by
  refine ⟨?_, ?_⟩
  · exact .cons (fun _ => rfl) .nil
  · intro n
    rw [Lowering.initial_env]
    simp only [Env.findFunc?, Names.function?, List.find?_cons, List.find?_nil, List.lookup_cons,
      List.lookup_nil]
    by_cases hprint : n = Builtin.print
    · subst hprint
      rfl
    by_cases hadd : n = Builtin.add
    · subst hadd
      rfl
    by_cases hout : n = Builtin.output
    · subst hout
      rfl
    have hprint' : (n == "print") = false := beq_false_of_ne hprint
    have hadd' : (n == "+") = false := beq_false_of_ne hadd
    simp [Ne.symm hprint, Ne.symm hadd, Ne.symm hout, hprint', hadd']

theorem program_error_iff (name triple : String) (es : List Expr) (e : LoweringError) :
    program es = .error e ↔
      ∃ b, Lowering.topLevel 0 es (Builder.initial name triple) = .error e b := by
  have hsame := topLevel_same (initial_agrees name triple) 0 es
  have hprogram : program es = (exprs es {}).bind fun _ => .ok () := rfl
  rw [hprogram]
  cases hl : Lowering.topLevel 0 es (Builder.initial name triple) with
  | ok u b =>
    cases hc : exprs es {} with
    | ok p => simp [Except.bind]
    | error e' =>
      rw [hl, hc] at hsame
      exact hsame.elim
  | error e' b =>
    cases hc : exprs es {} with
    | ok p =>
      rw [hl, hc] at hsame
      exact hsame.elim
    | error e'' =>
      rw [hl, hc] at hsame
      obtain rfl : e' = e'' := hsame
      simp [Except.bind]

/-- Only an error that stops lowering is reported as one; the verification of a finished module has
failures of its own. -/
theorem lower_failure_iff (o : CompileOptions) (es : List Expr) (e : LoweringError) :
    (lower o es).failure = some (.lowering e) ↔
      ∃ b, Lowering.topLevel 0 es (Builder.initial o.effectiveName o.triple) = .error e b := by
  unfold lower
  cases hl : Lowering.topLevel 0 es (Builder.initial o.effectiveName o.triple) with
  | ok u b =>
    by_cases hv : (if o.verify then b.finish.module.verify else []).isEmpty
    · simp only [hv, if_true, reduceCtorEq, exists_false]
    · simp only [hv, if_false, reduceCtorEq, Option.some.injEq, exists_false]
  | error e' b => simp

/-- Lowering a program fails with an error exactly when a static rule is violated and the error is
the one of the first such rule: its kind, its position, and all that it names. -/
theorem lower_error_iff (o : CompileOptions) (es : List Expr) (e : LoweringError) :
    (lower o es).failure = some (.lowering e) ↔ program es = .error e := by
  rw [lower_failure_iff, program_error_iff o.effectiveName o.triple]

end Wordlang.Static
