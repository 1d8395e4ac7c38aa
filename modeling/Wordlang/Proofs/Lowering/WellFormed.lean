import Wordlang.Proofs.Lowering.Steps
import Wordlang.Proofs.Verify

/-!
# Lowering builds well-formed functions

The invariant of lowering: all drafts obey the typing rules, the visible variables have slots in the
function at hand, and the table has the signatures of the functions it lists. Every step of lowering
keeps it, also one that fails.

Functions are lowered while others around them are half built. When lowering fails, the drafts
without a result are those that had none before and those of the functions whose bodies were being
lowered; `interrupted` follows the lowering to the failure and lists the latter.
-/

namespace Wordlang

open IR Outcome

namespace IR

/-! ## Code that may be appended -/

/-- The values `vs` may follow `code`. -/
def CodeOk (sigs : Nat → Option Signature) (place : Nat) (sig : Signature) (code vs : List Value) :
    Prop :=
  ∀ (j : Nat) v, vs[j]? = some v → ValueOk sigs place sig (code ++ vs.take j) v

variable {σ : Nat → Option Signature} {place : Nat} {sig : Signature} {code vs ws : List Value}
  {v : Value} {ds : List Draft} {d : Draft}

theorem CodeOk.nil : CodeOk σ place sig code [] := by
  intro j v hv
  simp at hv

theorem CodeOk.single (h : ValueOk σ place sig code v) : CodeOk σ place sig code [v] := by
  intro j w hw
  obtain ⟨rfl, rfl⟩ : j = 0 ∧ w = v := by
    cases j with
    | zero => simpa using hw.symm
    | succ j => simp at hw
  simpa using h

theorem CodeOk.append (hv : CodeOk σ place sig code vs)
    (hw : CodeOk σ place sig (code ++ vs) ws) : CodeOk σ place sig code (vs ++ ws) := by
  intro j v h
  rcases Nat.lt_or_ge j vs.length with hj | hj
  · rw [List.getElem?_append_left hj] at h
    rw [List.take_append_of_le_length (by omega)]
    exact hv j v h
  · rw [List.getElem?_append_right hj] at h
    have := hw (j - vs.length) v h
    rwa [List.take_append, List.take_of_length_le hj, ← List.append_assoc]

theorem CodeOk.cons (hv : ValueOk σ place sig code v) (hw : CodeOk σ place sig (code ++ [v]) ws) :
    CodeOk σ place sig code (v :: ws) :=
  (CodeOk.single hv).append hw

theorem Draft.Ok.append (h : d.Ok ds place) (hopen : d.result = none)
    (hc : CodeOk (sigs ds) place d.sig d.code vs) : (d.append vs).Ok ds place := by
  refine ⟨?_, ?_⟩
  · have hall : CodeOk (sigs ds) place d.sig [] d.code := by
      intro j v hv
      exact h.values j v hv
    have := hall.append hc
    intro j v hv
    exact this j v hv
  · intro r hr
    rw [result_append, hopen] at hr
    cases hr

theorem Draft.Ok.mono {ds' : List Draft} (h : d.Ok ds place)
    (hs : ∀ f s, sigs ds f = some s → sigs ds' f = some s) : d.Ok ds' place :=
  ⟨fun j v hv => (h.values j v hv).mono hs, h.returns⟩

/-! ## Signatures of drafts -/

theorem Draft.sigs_set {f : Nat} {d' : Draft} (hd : ds[f]? = some d) (hsig : d'.sig = d.sig) :
    sigs (ds.set f d') = sigs ds := by
  funext g
  simp only [sigs]
  by_cases hg : f = g
  · subst hg
    rw [List.getElem?_set_self (List.getElem?_eq_some_iff.1 hd).1, hd]
    simp [hsig]
  · rw [List.getElem?_set_ne hg]

theorem Draft.sigs_append {new : List Draft} {f : Nat} {s : Signature} (h : sigs ds f = some s) :
    sigs (ds ++ new) f = some s := by
  obtain ⟨d, hd, rfl⟩ := Option.map_eq_some_iff.1 h
  simp only [sigs]
  rw [List.getElem?_append_left (List.getElem?_eq_some_iff.1 hd).1, hd]
  rfl

/-! ## Open drafts -/

/-- The places of the drafts without a result, when the first of the list stands at place `n`. -/
def Draft.openPlaces (n : Nat) : List Draft → List Nat
  | [] => []
  | d :: ds => if d.isOpen then n :: openPlaces (n + 1) ds else openPlaces (n + 1) ds

theorem Draft.openPlaces_append (n : Nat) (ds new : List Draft) :
    openPlaces n (ds ++ new) = openPlaces n ds ++ openPlaces (n + ds.length) new := by
  induction ds generalizing n with
  | nil => rfl
  | cons d ds ih =>
    rw [List.cons_append, openPlaces, openPlaces, ih, List.length_cons, Nat.add_assoc,
      Nat.add_comm 1]
    split <;> rfl

theorem Draft.openPlaces_set {n f : Nat} {d' : Draft} (hd : ds[f]? = some d)
    (hopen : d'.isOpen = d.isOpen) : openPlaces n (ds.set f d') = openPlaces n ds := by
  induction ds generalizing n f with
  | nil => rfl
  | cons e ds ih =>
    cases f with
    | zero =>
      obtain rfl : e = d := by simpa using hd
      rw [List.set_cons_zero, openPlaces, openPlaces, hopen]
    | succ f =>
      rw [List.set_cons_succ, openPlaces, openPlaces, ih (by simpa using hd)]

theorem Draft.openPlaces_eq_nil {n : Nat} (h : ∀ d ∈ ds, d.isOpen = false) :
    openPlaces n ds = [] := by
  induction ds generalizing n with
  | nil => rfl
  | cons d ds ih =>
    rw [openPlaces, h d List.mem_cons_self, ih fun e he => h e (List.mem_cons_of_mem _ he)]
    rfl

end IR

/-! ## The function table -/

theorem Env.findFunc?_congr {env env' : Env} (h : env'.funcs = env.funcs) (n : String) :
    env'.findFunc? n = env.findFunc? n := by
  rw [Env.findFunc?, Env.findFunc?, h]

theorem Env.findFunc?_defineFunc (env : Env) (c : Callable) (hc : c.hidden = false) (n : String) :
    (env.defineFunc c).findFunc? n = if c.name = n then some c else env.findFunc? n := by
  simp only [Env.findFunc?, Env.defineFunc, List.find?_cons]
  by_cases hn : c.name = n
  · simp [hn, hc]
  · simp only [hn, decide_false, if_false]
    rw [List.find?_filter]
    congr 2
    funext a
    by_cases ha : a.name = n
    · simp [ha, Ne.symm hn]
    · simp [ha]

namespace Lowering

open Builder

/-! ## The invariant -/

/-- The types of what variables hold and expressions yield. -/
def IsScalar (t : Ty) : Prop := t = .i32 ∨ t = .ptr

/-- The signature is one of a function of the language. -/
def IsUser (sig : Signature) : Prop := ∃ n, sig = userSignature n

/-- The variable has a slot of the right type in the function `f`. -/
structure VarOk (f : Nat) (code : List Value) (v : Binding) : Prop where
  slot : IsSlot f code v.slot v.elem
  scalar : IsScalar v.elem
  sig : ∀ s, v.sig = some s → IsUser s ∧ v.elem = .ptr

/-- The visible variables have slots of the right types in the function `f`. -/
def VarsOk (f : Nat) (code : List Value) (env : Env) : Prop :=
  ∀ s, env.scopes.head? = some s → ∀ v ∈ s.vars, VarOk f code v

/-- The visible functions are entered with their signatures. -/
def FuncsOk (ds : List Draft) (env : Env) : Prop :=
  ∀ n c, env.findFunc? n = some c → Draft.sigs ds c.func = some c.sig ∧ IsUser c.sig

/-- The operand is a value of its type in the function `f`, or a slot that holds one. -/
structure OperandOk (f : Nat) (code : List Value) (x : Operand) : Prop where
  slot : x.isSlot = true → IsSlot f code x.ref x.type
  value : x.isSlot = false → Typed f code x.ref x.type
  scalar : IsScalar x.type
  sig : ∀ s, x.sig = some s → IsUser s ∧ x.type = .ptr

/-- All functions lowered so far are well-formed. -/
structure Sound (m : Module) (ds : List Draft) : Prop where
  drafted : m.Drafted ds
  named : m.Named ds
  ok : ∀ (i : Nat) d, ds[i]? = some d → d.Ok ds i

/-- The invariant of lowering. -/
structure Inv (b : Builder) (ds : List Draft) (f : Nat) (d : Draft) : Prop where
  now : At b ds f d
  sound : Sound b.module ds
  unended : d.result = none
  vars : VarsOk f d.code b.env
  funcs : FuncsOk ds b.env

variable {b b' : Builder} {ds : List Draft} {f : Nat} {d : Draft} {code code' vs : List Value}
  {env : Env} {x : Operand}

theorem VarOk.mono {v : Binding} (h : VarOk f code v) (hc : code <+: code') : VarOk f code' v :=
  ⟨h.slot.mono hc, h.scalar, h.sig⟩

theorem VarsOk.mono (h : VarsOk f code env) (hc : code <+: code') : VarsOk f code' env :=
  fun s hs v hv => (h s hs v hv).mono hc

theorem OperandOk.mono (h : OperandOk f code x) (hc : code <+: code') : OperandOk f code' x :=
  ⟨fun hx => (h.slot hx).mono hc, fun hx => (h.value hx).mono hc, h.scalar, h.sig⟩

theorem VarsOk.find (h : VarsOk f code env) {name : String} {v : Binding}
    (hv : env.findVar? name = some v) : VarOk f code v := by
  obtain ⟨s, hs, hv⟩ := Option.bind_eq_some_iff.1 hv
  exact h s hs v (List.mem_of_find?_eq_some hv)

theorem VarsOk.bound (h : VarsOk f code env) {v : Binding} (hv : VarOk f code v) :
    VarsOk f code (bound env v) := by
  intro s hs w hw
  obtain ⟨scopes, funcs⟩ := env
  cases scopes with
  | nil => cases hs
  | cons s' outer =>
    obtain rfl : s'.insert v = s := by simpa [Lowering.bound, Env.defineVar?] using hs
    rcases List.mem_cons.1 hw with rfl | hw
    · exact hv
    · exact h s' rfl w (List.mem_of_mem_filter hw)

theorem scopes_tail_bound (env : Env) (v : Binding) :
    (bound env v).scopes.tail = env.scopes.tail := by
  obtain ⟨scopes, funcs⟩ := env
  cases scopes <;> rfl

theorem funcs_bound (env : Env) (v : Binding) : (bound env v).funcs = env.funcs := by
  obtain ⟨scopes, funcs⟩ := env
  cases scopes <;> rfl

theorem FuncsOk.congr {env' : Env} (h : FuncsOk ds env) (he : env'.funcs = env.funcs) :
    FuncsOk ds env' := by
  intro n c hc
  rw [Env.findFunc?_congr he] at hc
  exact h n c hc

theorem FuncsOk.mono {ds' : List Draft} (h : FuncsOk ds env)
    (hs : ∀ g s, Draft.sigs ds g = some s → Draft.sigs ds' g = some s) : FuncsOk ds' env := by
  intro n c hc
  obtain ⟨h1, h2⟩ := h n c hc
  exact ⟨hs _ _ h1, h2⟩

/-! ## Writing keeps the invariant -/

/-- The draft at hand may be replaced by one that is well-formed and has the same head. -/
theorem Sound.set {m m' : Module} {d' : Draft} (h : Sound m ds) (hd : ds[f]? = some d)
    (hm : m'.Drafted (ds.set f d')) (hrest : m'.rest = m.rest) (hname : d'.name = d.name)
    (hsig : d'.sig = d.sig) (hok : d'.Ok ds f) : Sound m' (ds.set f d') := by
  refine ⟨hm, h.named.congr hrest (map_set_of_eq hd hname), ?_⟩
  have hs : ∀ g s, Draft.sigs ds g = some s → Draft.sigs (ds.set f d') g = some s := by
    intro g s hg
    rwa [Draft.sigs_set hd hsig]
  intro i e he
  by_cases hi : f = i
  · subst hi
    rw [List.getElem?_set_self (List.getElem?_eq_some_iff.1 hd).1] at he
    cases he
    exact hok.mono hs
  · rw [List.getElem?_set_ne hi] at he
    exact (h.ok i e he).mono hs

/-- Appending well-formed values keeps the invariant, and so does binding variables to slots that are
there then. -/
theorem Inv.wrote (h : Inv b ds f d) (hw : Wrote b ds f d vs env b')
    (hc : CodeOk (Draft.sigs ds) f d.sig d.code vs) (hvars : VarsOk f (d.code ++ vs) env)
    (hfuncs : env.funcs = b.env.funcs) : Inv b' (ds.set f (d.append vs)) f (d.append vs) := by
  have hok := (h.sound.ok f d h.now.here).append h.unended hc
  refine ⟨hw.now, h.sound.set h.now.here hw.now.drafted hw.rest_eq rfl rfl hok, h.unended, ?_, ?_⟩
  · rw [hw.env_eq]
    exact hvars
  · rw [hw.env_eq]
    apply FuncsOk.congr _ hfuncs
    apply h.funcs.mono
    intro g s hg
    rwa [Draft.sigs_set h.now.here (Draft.sig_append d vs)]

/-! ## What the steps write is well-formed -/

section Written

variable {σ : Nat → Option Signature} {sig : Signature} {pos : Position} {v : Value}

theorem typed_last (f : Nat) (code : List Value) (v : Value) :
    Typed f (code ++ [v]) ⟨f, code.length⟩ v.type :=
  ⟨rfl, v, by simp, rfl⟩

theorem slot_last (f : Nat) (code : List Value) (t : Ty) (name : String) (pos : Position) :
    IsSlot f (code ++ [slotCode f t name pos]) ⟨f, code.length⟩ t :=
  ⟨rfl, slotCode f t name pos, by simp, rfl, rfl, rfl⟩

theorem readCode_ok (h : OperandOk f code x) : CodeOk σ f sig code (readCode f pos x) := by
  unfold readCode
  split
  · rename_i hx
    exact .single (.load x.type x.ref pos (h.slot hx))
  · exact .nil

theorem readRef_typed (h : OperandOk f code x) (pos : Position) :
    Typed f (code ++ readCode f pos x) (readRef f code.length x) x.type := by
  unfold readCode readRef
  cases hx : x.isSlot with
  | true => exact typed_last f code _
  | false => simpa using h.value hx

/-- The value that is read of an operand can itself be used as an operand. -/
theorem readRef_ok (h : OperandOk f code x) (pos : Position) : OperandOk f (code ++ readCode f pos x)
    { ref := readRef f code.length x, type := x.type, sig := x.sig } :=
  ⟨by simp, fun _ => readRef_typed h pos, h.scalar, h.sig⟩

theorem readsCode_ok {xs : List (Position × Operand)} (h : ∀ x ∈ xs, OperandOk f code x.2) :
    CodeOk σ f sig code (readsCode f xs) := by
  induction xs generalizing code with
  | nil => exact .nil
  | cons x xs ih =>
    have hxs : CodeOk σ f sig (code ++ readCode f x.1 x.2) (readsCode f xs) :=
      ih fun y hy => (h y (List.mem_cons_of_mem _ hy)).mono (List.prefix_append _ _)
    exact (readCode_ok (h x List.mem_cons_self)).append hxs

theorem length_readRefs (f k : Nat) (xs : List (Position × Operand)) :
    (readRefs f k xs).length = xs.length := by
  induction xs generalizing k with
  | nil => rfl
  | cons x xs ih => simp [readRefs, ih]

theorem readRefs_typed {xs : List (Position × Operand)} (h : ∀ x ∈ xs, OperandOk f code x.2)
    (i : Nat) (r : ValueRef) (hr : (readRefs f code.length xs)[i]? = some r) :
    ∃ x, xs[i]? = some x ∧ Typed f (code ++ readsCode f xs) r x.2.type := by
  induction xs generalizing code i with
  | nil => simp [readRefs] at hr
  | cons a xs ih =>
    obtain ⟨pos, x⟩ := a
    have hx := h (pos, x) List.mem_cons_self
    have hxs : ∀ y ∈ xs, OperandOk f (code ++ readCode f pos x) y.2 :=
      fun y hy => (h y (List.mem_cons_of_mem _ hy)).mono (List.prefix_append _ _)
    cases i with
    | zero =>
      obtain rfl : readRef f code.length x = r := by simpa [readRefs] using hr
      refine ⟨(pos, x), rfl, (readRef_typed hx pos).mono ?_⟩
      rw [readsCode, List.flatMap_cons, ← List.append_assoc]
      exact List.prefix_append _ _
    | succ i =>
      have hr' : (readRefs f (code ++ readCode f pos x).length xs)[i]? = some r := by
        simpa [readRefs] using hr
      obtain ⟨y, hy, hty⟩ := ih hxs i hr'
      refine ⟨y, hy, ?_⟩
      rwa [List.append_assoc] at hty

theorem Fit.type_eq {types : List Ty} {xs : List (Position × Operand)} (h : Fit types xs)
    {i : Nat} {t : Ty} {x : Position × Operand} (ht : types[i]? = some t) (hx : xs[i]? = some x) :
    x.2.type = t := by
  induction xs generalizing types i with
  | nil => simp at hx
  | cons y xs ih =>
    obtain ⟨hhead, htail⟩ := h
    cases types with
    | nil => simp at ht
    | cons u types =>
      cases i with
      | zero =>
        obtain rfl : y = x := by simpa using hx
        exact hhead t (by simpa using ht)
      | succ i => exact ih htail (by simpa using ht) (by simpa using hx)

theorem readRefs_passed {xs : List (Position × Operand)} (h : ∀ x ∈ xs, OperandOk f code x.2)
    (hacc : sig.accepts xs.length = true) (hfit : Fit sig.params xs) :
    Passed f (code ++ readsCode f xs) sig (readRefs f code.length xs) := by
  refine ⟨by rwa [length_readRefs], ?_, ?_⟩
  · intro r hr
    obtain ⟨i, hi⟩ := List.getElem?_of_mem hr
    obtain ⟨x, hxs, hx⟩ := readRefs_typed h i r hi
    exact ⟨_, (h x (List.mem_of_getElem? hxs)).scalar, hx⟩
  · intro i t r ht hr
    obtain ⟨x, hx, htyped⟩ := readRefs_typed h i r hr
    rwa [hfit.type_eq ht hx] at htyped

/-- The signature that a callee is called with is one of a function of the language. -/
theorem Calls.isUser {name : String} {t : Target} (h : Calls env name t sig)
    (hvars : VarsOk f code env) (hfuncs : FuncsOk ds env) : IsUser sig := by
  cases h with
  | direct c hc => exact (hfuncs _ _ hc).2
  | indirect v sig hc hv hs => exact ((hvars.find hv).sig sig hs).1

/-- What is written to call is well-formed, and the value written last has the result type. -/
theorem invokeCode_ok (sig : Signature) (pos : Position) {name : String} {t : Target}
    {callee : Signature} {xs : List (Position × Operand)} (hcalls : Calls env name t callee)
    (hvars : VarsOk f code env) (hfuncs : FuncsOk ds env) (h : ∀ x ∈ xs, OperandOk f code x.2)
    (hacc : callee.accepts xs.length = true) (hfit : Fit callee.params xs) :
    CodeOk (Draft.sigs ds) f sig code (invokeCode f code.length t callee xs pos) ∧
      ∃ vs v, code ++ invokeCode f code.length t callee xs pos = vs ++ [v] ∧
        v.type = callee.result := by
  have hpass := readRefs_passed h hacc hfit
  have hreads : CodeOk (Draft.sigs ds) f sig code (readsCode f xs) := readsCode_ok h
  rw [invokeCode]
  cases hcalls with
  | direct c hc =>
    refine ⟨hreads.append (.single (.call c.func c.sig _ pos (hfuncs _ _ hc).1 hpass)), ?_⟩
    exact ⟨_, _, (List.append_assoc _ _ _).symm, rfl⟩
  | indirect v callee hc hv hs =>
    obtain ⟨-, helem⟩ := (hvars.find hv).sig callee hs
    have hslot := (hvars.find hv).slot.mono (List.prefix_append code (readsCode f xs))
    rw [helem] at hslot
    have hload : ValueOk (Draft.sigs ds) f sig (code ++ readsCode f xs)
        (loadCode f .ptr v.slot pos) := .load .ptr v.slot pos hslot
    have hp : Typed f (code ++ readsCode f xs ++ [loadCode f .ptr v.slot pos])
        ⟨f, (code ++ readsCode f xs).length⟩ .ptr := typed_last f _ _
    have hcall : ValueOk (Draft.sigs ds) f sig _ _ :=
      .callIndirect callee _ _ pos hp (hpass.mono (List.prefix_append _ _))
    rw [List.length_append] at hcall
    refine ⟨hreads.append (.cons hload (.single hcall)), ?_⟩
    refine ⟨code ++ readsCode f xs ++ [loadCode f .ptr v.slot pos], ?_⟩
    exact ⟨_, (List.append_assoc _ _ _).symm.trans
      (List.append_assoc _ [loadCode f .ptr v.slot pos] [_]).symm, rfl⟩

/-- What is written to keep the value written last is well-formed. -/
theorem keepCode_ok (σ : Nat → Option Signature) (sig : Signature) (pos : Position) (name : String)
    {t : Ty} (hcode : ∃ vs v, code = vs ++ [v] ∧ v.type = t) (ht : IsScalar t) :
    CodeOk σ f sig code (keepCode f code.length t name pos) ∧
      IsSlot f (code ++ keepCode f code.length t name pos) ⟨f, code.length⟩ t := by
  obtain ⟨vs, v, hcode, hv⟩ := hcode
  have hlast : Typed f code ⟨f, code.length - 1⟩ t := by
    rw [hcode, ← hv, List.length_append, List.length_singleton, Nat.add_sub_cancel]
    exact typed_last f vs v
  have hslot := slot_last f code t name pos
  have hstore : ValueOk σ f sig (code ++ [slotCode f t name pos])
      (storeCode f ⟨f, code.length⟩ ⟨f, code.length - 1⟩ pos) :=
    .store t _ _ pos hslot (hlast.mono (List.prefix_append _ _))
  refine ⟨.cons (.alloca t _ pos ht) (.single hstore), hslot.mono ?_⟩
  exact ⟨[_], List.append_assoc code [slotCode f t name pos] [_]⟩

/-- What is written to assign is well-formed, and the variable has a slot then. -/
theorem assignCode_ok (σ : Nat → Option Signature) (sig : Signature) {name : String}
    {slot : ValueRef} {vs : List Value} (hvars : VarsOk f code env) (h : OperandOk f code x)
    (ha : Assigns env f (code ++ readCode f pos x).length name x.type pos slot vs) :
    CodeOk σ f sig code
        (readCode f pos x ++ vs ++ [storeCode f slot (readRef f code.length x) pos]) ∧
      IsSlot f (code ++ (readCode f pos x ++ vs)) slot x.type := by
  have hread : CodeOk σ f sig code (readCode f pos x) := readCode_ok h
  have hv := readRef_typed h pos
  have hslot : CodeOk σ f sig (code ++ readCode f pos x) vs ∧
      IsSlot f (code ++ (readCode f pos x ++ vs)) slot x.type := by
    cases ha with
    | old v hv ht =>
      refine ⟨.nil, ?_⟩
      rw [← ht]
      exact (hvars.find hv).slot.mono (List.prefix_append _ _)
    | new hv =>
      refine ⟨.single (.alloca x.type _ pos h.scalar), ?_⟩
      rw [← List.append_assoc]
      exact slot_last f _ x.type name pos
  refine ⟨(hread.append hslot.1).append (.single ?_), hslot.2⟩
  apply ValueOk.store x.type _ _ pos hslot.2 (hv.mono ?_)
  rw [← List.append_assoc]
  exact List.prefix_append _ _

theorem spillCode_ok (σ : Nat → Option Signature) (sig : Signature) (n : Nat) (ps : List Ident)
    (hvars : VarsOk f code env) (hsig : sig.params = List.replicate (n + ps.length) .i32) :
    CodeOk σ f sig code (spillCode f code.length n ps) ∧
      VarsOk f (code ++ spillCode f code.length n ps) (spillEnv f code.length env ps) := by
  induction ps generalizing code env n with
  | nil => exact ⟨.nil, by simpa [spillCode, spillEnv] using hvars⟩
  | cons p ps ih =>
    have harg : ValueOk σ f sig code (Draft.placed f (argValue n p.name p.pos) []) :=
      .arg n .i32 _ p.pos (by rw [hsig, List.getElem?_replicate]; simp)
    have hslot := slot_last f (code ++ [Draft.placed f (argValue n p.name p.pos) []]) .i32 p.name
      p.pos
    rw [List.length_append, List.length_singleton] at hslot
    have hstore : ValueOk σ f sig (code ++ [Draft.placed f (argValue n p.name p.pos) []] ++
        [slotCode f .i32 p.name p.pos]) (storeCode f ⟨f, code.length + 1⟩ ⟨f, code.length⟩ p.pos) :=
      .store .i32 _ _ p.pos hslot ((typed_last f code _).mono (List.prefix_append _ _))
    have hthree : CodeOk σ f sig code [Draft.placed f (argValue n p.name p.pos) [],
        slotCode f .i32 p.name p.pos, storeCode f ⟨f, code.length + 1⟩ ⟨f, code.length⟩ p.pos] :=
      .cons harg (.cons (.alloca .i32 _ p.pos (.inl rfl)) (.single hstore))
    have hvar : VarOk f (code ++ [Draft.placed f (argValue n p.name p.pos) [],
        slotCode f .i32 p.name p.pos, storeCode f ⟨f, code.length + 1⟩ ⟨f, code.length⟩ p.pos])
        { name := p.name, slot := ⟨f, code.length + 1⟩, elem := .i32 } := by
      refine ⟨hslot.mono ?_, .inl rfl, by simp⟩
      exact ⟨[storeCode f ⟨f, code.length + 1⟩ ⟨f, code.length⟩ p.pos], by simp⟩
    have hrest := ih (n + 1) ((hvars.mono (List.prefix_append _ _)).bound hvar)
      (by rw [hsig, List.length_cons]; congr 1; omega)
    simp only [List.length_append, List.length_cons, List.length_nil] at hrest
    refine ⟨hthree.append hrest.1, ?_⟩
    have hrest2 := hrest.2
    rwa [List.append_assoc] at hrest2

end Written

end Lowering

end Wordlang
