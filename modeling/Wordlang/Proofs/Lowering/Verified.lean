import Wordlang.Compile
import Wordlang.Proofs.Lowering.WellFormed

/-!
# Lowering and the verifier

Lowering an expression keeps the invariant, and closes every function it opens unless it fails. Hence
the verifier has nothing to say about a finished module; of one that lowering left behind when it
failed, it says that the entry function and the functions whose bodies were being lowered do not
return.
-/

namespace Wordlang

open IR Outcome

namespace Lowering

open Builder

/-! ## Where lowering fails -/

mutual

/-- The places of the functions whose bodies were being lowered when the lowering of an expression
from the state `b` failed, outermost first. An expression inside counts only if it failed itself. -/
def interrupted : Expr → Builder → List Nat
  | .assign _ target (.function pos params body), b =>
    match declareFunc target pos params b with
    | .error _ _ => []
    | .ok (f, names) b =>
      let b := { b with env := b.env.openScope ("function " ++ target.name), site := ⟨f, 0⟩ }
      match spillParams 0 names b with
      | .error _ _ => [f]
      | .ok _ b => f :: interruptedIn body b
  | .assign _ _ value, b =>
    match expr value b with
    | .ok _ _ => []
    | .error _ _ => interrupted value b
  | .call _ _ args, b => interruptedIn args b
  | _, _ => []

/-- The same for expressions that are lowered one after the other. -/
def interruptedIn : List Expr → Builder → List Nat
  | [], _ => []
  | e :: es, b =>
    match expr e b with
    | .ok _ b => interruptedIn es b
    | .error _ _ => interrupted e b

end

/-- The same for the expressions of a program, the first of which has number `i`. -/
def interruptedAt (i : Nat) : List Expr → Builder → List Nat
  | [], _ => []
  | e :: es, b =>
    let b := { b with events := b.events ++ [.expression i e.kind e.pos] }
    match expr e b with
    | .ok _ b => interruptedAt (i + 1) es b
    | .error _ _ => interrupted e b

/-! ## Growth -/

/-- The state `b'` is reached from `b` with the values `vs` appended to the function at hand and the
functions `new`, all of them complete, appended to the module. -/
structure Grown (b : Builder) (ds : List Draft) (f : Nat) (d : Draft) (b' : Builder)
    (vs : List Value) (new : List Draft) : Prop where
  inv : Inv b' (ds.set f (d.append vs) ++ new) f (d.append vs)
  tail : b'.env.scopes.tail = b.env.scopes.tail
  closed : ∀ e ∈ new, e.isOpen = false

/-- Lowering failed in the state `b'`: beside the drafts that had no result before, those at `places`
have none. -/
def Stopped (ds : List Draft) (places : List Nat) (b' : Builder) : Prop :=
  ∃ ds', Sound b'.module ds' ∧ ds.map (·.name) <+: ds'.map (·.name) ∧
    Draft.openPlaces 0 ds' = Draft.openPlaces 0 ds ++ places

variable {b b' : Builder} {ds : List Draft} {f : Nat} {d : Draft} {vs ws : List Value}
  {new : List Draft} {env : Env}

theorem isOpen_append (d : Draft) (vs : List Value) : (d.append vs).isOpen = d.isOpen := rfl

theorem Grown.of_wrote (h : Inv b ds f d) (hw : Wrote b ds f d vs env b')
    (hc : CodeOk (Draft.sigs ds) f d.sig d.code vs) (hvars : VarsOk f (d.code ++ vs) env)
    (hfuncs : env.funcs = b.env.funcs) (htail : env.scopes.tail = b.env.scopes.tail) :
    Grown b ds f d b' vs [] := by
  refine ⟨?_, ?_, by simp⟩
  · rw [List.append_nil]
    exact h.wrote hw hc hvars hfuncs
  · rw [hw.env_eq, htail]

theorem Grown.of_wrote_same (h : Inv b ds f d) (hw : Wrote b ds f d vs b.env b')
    (hc : CodeOk (Draft.sigs ds) f d.sig d.code vs) : Grown b ds f d b' vs [] :=
  .of_wrote h hw hc (h.vars.mono (List.prefix_append _ _)) rfl rfl

theorem Grown.refl (h : Inv b ds f d) : Grown b ds f d b [] [] :=
  .of_wrote_same h (.refl h.now) .nil

theorem Grown.trans {b'' : Builder} {new' : List Draft} (hlt : f < ds.length)
    (h : Grown b ds f d b' vs new)
    (h' : Grown b' (ds.set f (d.append vs) ++ new) f (d.append vs) b'' ws new') :
    Grown b ds f d b'' (vs ++ ws) (new ++ new') := by
  refine ⟨?_, h'.tail.trans h.tail, ?_⟩
  · have hinv := h'.inv
    rw [List.set_append_left _ _ (by simpa using hlt), List.set_set, Draft.append_append,
      List.append_assoc] at hinv
    exact hinv
  · intro e he
    rcases List.mem_append.1 he with he | he
    · exact h.closed e he
    · exact h'.closed e he

/-- Growth leaves the same drafts without a result. -/
theorem Grown.openPlaces_eq (hd : ds[f]? = some d) (h : Grown b ds f d b' vs new) :
    Draft.openPlaces 0 (ds.set f (d.append vs) ++ new) = Draft.openPlaces 0 ds := by
  rw [Draft.openPlaces_append, Draft.openPlaces_set hd (isOpen_append d vs),
    Draft.openPlaces_eq_nil h.closed, List.append_nil]

theorem Grown.names_kept (hd : ds[f]? = some d) (vs : List Value) (new : List Draft) :
    ds.map (·.name) <+: (ds.set f (d.append vs) ++ new).map (·.name) := by
  rw [List.map_append, map_set_of_eq hd (Draft.name_append d vs)]
  exact List.prefix_append _ _

theorem Grown.stopped {places : List Nat} {b'' : Builder} (hd : ds[f]? = some d)
    (h : Grown b ds f d b' vs new)
    (hs : Stopped (ds.set f (d.append vs) ++ new) places b'') : Stopped ds places b'' := by
  obtain ⟨ds', hsound, hnames, hplaces⟩ := hs
  exact ⟨ds', hsound, (names_kept hd vs new).trans hnames, by rw [hplaces, h.openPlaces_eq hd]⟩

theorem Grown.halted (hd : ds[f]? = some d) (h : Grown b ds f d b' vs new) : Stopped ds [] b' :=
  ⟨_, h.inv.sound, names_kept hd vs new, by rw [h.openPlaces_eq hd, List.append_nil]⟩

/-! ## Functions inside functions -/

theorem closeScope_eq (b : Builder) : b.closeScope.module = b.module ∧
    b.closeScope.env.funcs = b.env.funcs ∧ b.closeScope.env.scopes = b.env.scopes.tail := by
  unfold Builder.closeScope
  split
  · rename_i hs
    simp [hs]
  · rename_i hs
    simp [hs]

/-- The header of a declared function is well-formed, and its body starts with no variable. -/
theorem Inv.enter {names : List Ident} {symbol name : String} (h : Inv b ds f d)
    (hnow : At b' (ds ++ [header symbol names]) f d)
    (hsymbol : symbol = (b.module.freshSymbol name).1)
    (hrest : b'.module.rest = (b.module.freshSymbol name).2.rest)
    (henv : b'.env = b.env.defineFunc
      { name, func := ds.length, sig := userSignature names.length }) (title : String) :
    Inv { b' with env := b'.env.openScope title, site := ⟨ds.length, 0⟩ }
      (ds ++ [header symbol names]) ds.length (header symbol names) := by
  have hs : ∀ g s, Draft.sigs ds g = some s →
      Draft.sigs (ds ++ [header symbol names]) g = some s := fun g s hg => Draft.sigs_append hg
  have hlast : (ds ++ [header symbol names])[ds.length]? = some (header symbol names) := by simp
  refine ⟨⟨hnow.drafted, rfl, hlast, rfl⟩,
    ⟨hnow.drafted, h.sound.named.add_func hsymbol hrest, ?_⟩, rfl, ?_, ?_⟩
  · intro i e he
    rcases Nat.lt_or_ge i ds.length with hi | hi
    · rw [List.getElem?_append_left hi] at he
      exact (h.sound.ok i e he).mono hs
    · obtain rfl : header symbol names = e := by
        rw [List.getElem?_append_right hi] at he
        exact (List.mem_singleton.1 (List.mem_of_getElem? he)).symm
      exact ⟨by simp [header], by simp [header]⟩
  · rintro s ⟨⟩ v hv
    cases hv
  · intro n c hc
    have hc' : b'.env.findFunc? n = some c := hc
    rw [henv, Env.findFunc?_defineFunc _ _ rfl] at hc'
    split at hc'
    · cases hc'
      exact ⟨by simp [Draft.sigs, header], names.length, rfl⟩
    · obtain ⟨h1, h2⟩ := h.funcs n c hc'
      exact ⟨hs _ _ h1, h2⟩

/-- Returning an integer that is there completes a function. -/
theorem Inv.returned {r : ValueRef} (h : Inv b ds f d)
    (hnow : At b' (ds.set f ((d.append vs).ret r)) f ((d.append vs).ret r))
    (hrest : b'.module.rest = b.module.rest) (hc : CodeOk (Draft.sigs ds) f d.sig d.code vs)
    (hr : Typed f (d.code ++ vs) r d.sig.result) :
    Sound b'.module (ds.set f ((d.append vs).ret r)) := by
  apply h.sound.set h.now.here hnow.drafted hrest rfl rfl
  refine ⟨((h.sound.ok f d h.now.here).append h.unended hc).values, ?_⟩
  rintro s ⟨⟩
  exact hr

/-! ## Lowering expressions -/

/-- Lowering the expression keeps the invariant and yields a well-formed operand. -/
def Grows (e : Expr) : Prop :=
  ∀ ⦃b ds f d⦄, Inv b ds f d → Ends (expr e b)
    (fun x b' => ∃ vs new, Grown b ds f d b' vs new ∧ OperandOk f (d.code ++ vs) x)
    (Stopped ds (interrupted e b))

/-- Lowering the expressions of a body keeps the invariant and yields a well-formed operand. -/
def SequenceGrows (es : List Expr) : Prop :=
  ∀ ⦃b ds f d⦄, Inv b ds f d → Ends (sequence es b)
    (fun tail b' => ∃ vs new, Grown b ds f d b' vs new ∧
      ∀ p x, tail = some (p, x) → OperandOk f (d.code ++ vs) x)
    (Stopped ds (interruptedIn es b))

/-- Lowering the arguments of a call keeps the invariant and yields well-formed operands. -/
def ArgumentsGrow (es : List Expr) : Prop :=
  ∀ ⦃b ds f d⦄, Inv b ds f d → Ends (arguments es b)
    (fun xs b' => ∃ vs new, Grown b ds f d b' vs new ∧ ∀ x ∈ xs, OperandOk f (d.code ++ vs) x.2)
    (Stopped ds (interruptedIn es b))

theorem nameValue_grows (id : Ident) : Grows (.name id) := by
  intro b ds f d h
  rw [expr]
  rcases nameValue_spec h.now id with ⟨v, hv, hb⟩ | ⟨c, b', -, hc, hb, hw⟩ | ⟨e, hb⟩
  · rw [hb]
    have hvar := h.vars.find hv
    refine ⟨[], [], .refl h, ?_⟩
    rw [List.append_nil]
    exact ⟨fun _ => hvar.slot, by simp, hvar.scalar, hvar.sig⟩
  · rw [hb]
    obtain ⟨hsig, huser⟩ := h.funcs _ _ hc
    refine ⟨_, _, .of_wrote_same h hw (.single (.funcAddr c.func c.sig _ hsig)), ?_⟩
    refine ⟨by simp, fun _ => typed_last f d.code _, .inr rfl, ?_⟩
    rintro s ⟨⟩
    exact ⟨huser, rfl⟩
  · rw [hb]
    exact (Grown.refl h).halted h.now.here

theorem int_grows (pos : Position) (n : Int32) : Grows (.int pos n) := by
  intro b ds f d h
  obtain ⟨b', hb, hw⟩ := emit_spec h.now { op := .const32, type := .i32, number := n.toInt, pos } []
  rw [expr, emitConst, bind_ok hb]
  refine ⟨_, _, .of_wrote_same h hw (.single (.const32 _ pos)), ?_⟩
  exact ⟨by simp, fun _ => typed_last f d.code _, .inl rfl, by simp⟩

theorem stringLiteral_grows (pos : Position) (content : String) : Grows (.string pos content) := by
  intro b ds f d h
  obtain ⟨data, g, b', hb, hw⟩ := stringLiteral_spec h.now pos content
  -- interning changes nothing but the globals and the symbols
  have hinv : Inv { b with module := (b.module.internString data).2 } ds f d :=
    ⟨⟨h.now.drafted.internString data, h.now.site, h.now.here, h.now.inside⟩,
      ⟨h.sound.drafted.internString data, h.sound.named.internString data, h.sound.ok⟩,
      h.unended, h.vars, h.funcs⟩
  rw [expr, hb]
  have hgrown := Grown.of_wrote_same hinv hw (.single (.globalAddr g pos))
  refine ⟨_, _, ⟨hgrown.inv, hgrown.tail, hgrown.closed⟩, ?_⟩
  exact ⟨by simp, fun _ => typed_last f d.code _, .inr rfl, by simp⟩

theorem assignValue_grows (h : Inv b ds f d) {x : Operand} (hx : OperandOk f d.code x)
    (pos : Position) (name : String) : Ends (assignValue pos name x b)
      (fun y b' => ∃ vs new, Grown b ds f d b' vs new ∧ OperandOk f (d.code ++ vs) y)
      (Stopped ds []) := by
  rcases assignValue_spec h.now pos name x with ⟨slot, vs, b', hb, -, ha, hw⟩ | ⟨e, b', hb, hw⟩
  · rw [hb]
    obtain ⟨hc, hslot⟩ := assignCode_ok (Draft.sigs ds) d.sig h.vars hx ha
    refine ⟨_, _, .of_wrote h hw hc ?_ (funcs_bound _ _) (scopes_tail_bound _ _), ?_⟩
    · refine (h.vars.mono (List.prefix_append _ _)).bound ⟨hslot.mono ?_, hx.scalar, hx.sig⟩
      exact ⟨[storeCode f slot (readRef f d.code.length x) pos], by simp⟩
    · apply (readRef_ok hx pos).mono
      exact ⟨vs ++ [storeCode f slot (readRef f d.code.length x) pos], by simp⟩
  · rw [hb]
    exact (Grown.of_wrote_same h hw (readCode_ok hx)).halted h.now.here

theorem callNamed_grows (h : Inv b ds f d) {xs : List (Position × Operand)}
    (hxs : ∀ x ∈ xs, OperandOk f d.code x.2) (pos : Position) (name : String) :
    Ends (callNamed pos name xs b)
      (fun y b' => ∃ vs new, Grown b ds f d b' vs new ∧ OperandOk f (d.code ++ vs) y)
      (Stopped ds []) := by
  rcases callNamed_spec h.now pos name xs with
    ⟨t, sig, k, b', hb, hcalls, hacc, hfit, hk, hw⟩ | ⟨e, ys, b', hb, hys, hw⟩
  · rw [hb]
    obtain ⟨hc, hlast⟩ := invokeCode_ok d.sig pos hcalls h.vars h.funcs hxs hacc hfit
    obtain ⟨n, rfl⟩ := hcalls.isUser h.vars h.funcs
    obtain ⟨hkeep, hslot⟩ := keepCode_ok (Draft.sigs ds) d.sig pos name hlast (.inl rfl)
    rw [← hk] at hkeep hslot
    refine ⟨_, _, .of_wrote_same h hw (hc.append hkeep), ?_⟩
    rw [← List.append_assoc]
    exact ⟨fun _ => hslot, by simp, .inl rfl, by simp⟩
  · rw [hb]
    refine (Grown.of_wrote_same h hw ?_).halted h.now.here
    exact readsCode_ok fun y hy => hxs y (hys hy)

/-- What is known when the body of the function at the end of `ds` has been lowered: the function is
complete, and the state is as before apart from it and the functions inside it. -/
theorem Inv.leave {b₁ b₂ : Builder} {h₀ : Draft} (h : Inv b ds f d)
    (hbefore : b₁.site = b.site ∧ b₁.env.scopes = b.env.scopes)
    (hsound : Sound b₂.module (ds ++ h₀ :: new)) (hfuncs : FuncsOk (ds ++ h₀ :: new) b₂.env)
    (htail : b₂.env.scopes.tail = b₁.env.scopes) :
    Inv { b₂.closeScope with site := b₁.site } (ds ++ h₀ :: new) f d := by
  obtain ⟨hmodule, henvFuncs, hscopes⟩ := closeScope_eq b₂
  refine ⟨⟨?_, ?_, ?_, h.now.inside⟩, ?_, h.unended, ?_, hfuncs.congr henvFuncs⟩
  · show b₂.closeScope.module.Drafted _
    rw [hmodule]
    exact hsound.drafted
  · rw [← h.now.site]
    exact hbefore.1
  · rw [List.getElem?_append_left h.now.lt_length, h.now.here]
  · show Sound b₂.closeScope.module _
    rw [hmodule]
    exact hsound
  · have hsame : b₂.closeScope.env.scopes = b.env.scopes := by
      rw [hscopes, htail, hbefore.2]
    intro s hs
    rw [hsame] at hs
    exact h.vars s hs

theorem set_length_append {α : Type} (l r : List α) (x y : α) :
    (l ++ x :: r).set l.length y = l ++ y :: r := by
  simp

/-- Lowers the body of the function `name`, which stands at `pos`. -/
def funcBody (name : String) (pos : Position) (names : List Ident) (body : List Expr) :
    Lowering Unit := do
  spillParams 0 names
  returnTail name pos (← sequence body)

/-- Defining a function declares it, lowers its body apart, and yields its address. -/
theorem expr_define {target : Ident} {pos : Position} {params body : List Expr} {n : Nat}
    {names : List Ident} (h : declareFunc target pos params b = .ok (n, names) b') (p : Position) :
    expr (.assign p target (.function pos params body)) b =
      (do
        inScope ("function " ++ target.name) ⟨n, 0⟩ (funcBody target.name pos names body)
        emitFuncAddr n (userSignature names.length) pos) b' := by
  rw [expr, bind_ok h]
  rfl

/-- Any other assignment lowers its value first. -/
theorem expr_assign {value : Expr} (h : ∀ pos params body, value ≠ .function pos params body)
    (pos : Position) (target : Ident) :
    expr (.assign pos target value) = expr value >>= assignValue pos target.name := by
  rw [expr]
  exact h

theorem interrupted_assign {value : Expr}
    (h : ∀ pos params body, value ≠ .function pos params body) (pos : Position) (target : Ident)
    (b : Builder) : interrupted (.assign pos target value) b =
      match expr value b with
      | .ok _ _ => []
      | .error _ _ => interrupted value b := by
  rw [interrupted]
  exact h

theorem spillEnv_eq (f k : Nat) (env : Env) (ps : List Ident) :
    (spillEnv f k env ps).funcs = env.funcs ∧
      (spillEnv f k env ps).scopes.tail = env.scopes.tail := by
  induction ps generalizing k env with
  | nil => exact ⟨rfl, rfl⟩
  | cons p ps ih =>
    obtain ⟨h1, h2⟩ := ih (k + 3) (bound env { name := p.name, slot := ⟨f, k + 1⟩, elem := .i32 })
    rw [funcs_bound] at h1
    rw [scopes_tail_bound] at h2
    exact ⟨h1, h2⟩

theorem sequence_cons_ok {e : Expr} {es : List Expr} {t : Option (Position × Operand)}
    (h : sequence (e :: es) b = .ok t b') :
    ∃ x b₁ t', expr e b = .ok x b₁ ∧ sequence es b₁ = .ok t' b' ∧
      t = some (t'.getD (e.pos, x)) := by
  rw [sequence] at h
  obtain ⟨x, b₁, hx, h⟩ := bind_eq_ok_iff.1 h
  obtain ⟨t', b₂, ht', h⟩ := bind_eq_ok_iff.1 h
  cases t' with
  | none =>
    cases h
    exact ⟨x, b₁, none, hx, ht', rfl⟩
  | some last =>
    cases h
    exact ⟨x, b₁, some last, hx, ht', rfl⟩

theorem interruptedIn_of_arguments {es : List Expr} {xs : List (Position × Operand)}
    (h : arguments es b = .ok xs b') : interruptedIn es b = [] := by
  induction es generalizing b xs with
  | nil => rw [interruptedIn]
  | cons e es ih =>
    rw [arguments] at h
    obtain ⟨x, b₁, hx, h⟩ := bind_eq_ok_iff.1 h
    obtain ⟨ys, b₂, hes, h⟩ := bind_eq_ok_iff.1 h
    cases h
    rw [interruptedIn, hx]
    exact ih hes

theorem interruptedIn_of_sequence {es : List Expr} {t : Option (Position × Operand)}
    (h : sequence es b = .ok t b') : interruptedIn es b = [] := by
  induction es generalizing b t with
  | nil => rw [interruptedIn]
  | cons e es ih =>
    obtain ⟨x, b₁, t', hx, hes, -⟩ := sequence_cons_ok h
    rw [interruptedIn, hx]
    exact ih hes

/-- Lowering the body of a function completes it, or leaves it without a result. -/
theorem body_grows {body : List Expr} (hbody : SequenceGrows body) (h : Inv b ds f d)
    {names : List Ident} (hsig : d.sig = userSignature names.length) (name : String)
    (pos : Position) :
    Ends (funcBody name pos names body b)
      (fun _ b' => ∃ d' new, Sound b'.module (ds.set f d' ++ new) ∧ d'.sig = d.sig ∧
        d'.isOpen = false ∧ (∀ e ∈ new, e.isOpen = false) ∧
        FuncsOk (ds.set f d' ++ new) b'.env ∧ b'.env.scopes.tail = b.env.scopes.tail)
      (fun b' => ∃ b₁, spillParams 0 names b = .ok () b₁ ∧
        Stopped ds (interruptedIn body b₁) b') := by
  obtain ⟨b₁, hb₁, hw₁⟩ := spillParams_spec h.now 0 names
  obtain ⟨hfuncs₁, htail₁⟩ := spillEnv_eq f d.code.length b.env names
  obtain ⟨hc₁, hv₁⟩ := spillCode_ok (Draft.sigs ds) d.sig 0 names h.vars
    (by rw [hsig, Nat.zero_add]; rfl)
  have hgrown₁ := Grown.of_wrote h hw₁ hc₁ hv₁ hfuncs₁ htail₁
  have hseq := hbody hgrown₁.inv
  rw [funcBody, bind_ok hb₁]
  cases hb₂ : sequence body b₁ with
  | error e b₂ =>
    rw [hb₂] at hseq
    rw [bind_error hb₂]
    exact ⟨b₁, hb₁, hgrown₁.stopped h.now.here hseq⟩
  | ok t b₂ =>
    rw [hb₂] at hseq
    obtain ⟨vs, new, hgrown₂, hx⟩ := hseq
    have hgrown := hgrown₁.trans h.now.lt_length hgrown₂
    rw [bind_ok hb₂]
    rcases returnTail_spec hgrown.inv.now name pos t with
      ⟨last, x, b₃, ht, hb₃, htype, hnow, henv, hrest⟩ | ⟨e, ws, b₃, hb₃, hws, hw⟩
    · rw [hb₃]
      have hok := hx last x ht
      rw [Draft.code_append, List.append_assoc] at hok
      have hresult : d.sig.result = .i32 := by rw [hsig]; rfl
      have htyped := readRef_typed hok last
      rw [htype, ← hresult] at htyped
      have hsound := hgrown.inv.returned hnow hrest (readCode_ok hok) htyped
      have hset : ∀ d', (ds.set f (d.append (spillCode f d.code.length 0 names ++ vs)) ++
          ([] ++ new)).set f d' = ds.set f d' ++ new := by
        intro d'
        rw [List.set_append_left _ _ (by simpa using h.now.lt_length), List.set_set]
        rfl
      rw [hset] at hsound
      refine ⟨_, new, hsound, rfl, by simp [Draft.isOpen, Draft.ret], hgrown₂.closed, ?_, ?_⟩
      · rw [henv, ← hset]
        apply hgrown.inv.funcs.mono
        intro g s hg
        rwa [Draft.sigs_set hgrown.inv.now.here]
        rfl
      · rw [henv, hgrown.tail]
    · rw [hb₃]
      refine ⟨b₁, hb₁, ?_⟩
      rw [interruptedIn_of_sequence hb₂]
      apply hgrown.stopped h.now.here
      refine (Grown.of_wrote_same hgrown.inv hw ?_).halted hgrown.inv.now.here
      rcases hws with rfl | ⟨last, x, ht, rfl⟩
      · exact .nil
      · have hok := hx last x ht
        rw [Draft.code_append, List.append_assoc] at hok
        exact readCode_ok hok

theorem inScope_ok {α : Type} {title : String} {site : BlockRef} {body : Lowering α} {a : α}
    (h : body { b with env := b.env.openScope title, site } = .ok a b') :
    inScope title site body b = .ok a { b'.closeScope with site := b.site } := by
  simp only [inScope, h]

theorem inScope_error {α : Type} {title : String} {site : BlockRef} {body : Lowering α}
    {e : LoweringError} (h : body { b with env := b.env.openScope title, site } = .error e b') :
    inScope title site body b = .error e { b'.closeScope with site := b.site } := by
  simp only [inScope, h]

theorem inScope_eq_ok {α : Type} {title : String} {site : BlockRef} {body : Lowering α} {a : α}
    (h : inScope title site body b = .ok a b') :
    ∃ b₁, body { b with env := b.env.openScope title, site } = .ok a b₁ ∧
      b' = { b₁.closeScope with site := b.site } := by
  simp only [inScope] at h
  split at h
  · rename_i hb
    cases h
    exact ⟨_, hb, rfl⟩
  · cases h

theorem function_grows {body : List Expr} (hbody : SequenceGrows body) (p : Position)
    (target : Ident) (pos : Position) (params : List Expr) :
    Grows (.assign p target (.function pos params body)) := by
  intro b ds f d h
  rw [interrupted]
  rcases declareFunc_spec h.now target pos params with
    ⟨names, b₁, hb₁, -, -, hnow, henv, hrest⟩ | ⟨e, hb₁⟩
  swap
  · rw [expr, bind_error hb₁, hb₁]
    exact (Grown.refl h).halted h.now.here
  rw [expr_define hb₁, hb₁]
  have henter := h.enter hnow rfl hrest henv ("function " ++ target.name)
  have hgrow := body_grows hbody henter rfl target.name pos
  have hbefore : b₁.site = b.site ∧ b₁.env.scopes = b.env.scopes := by
    rw [hnow.site, h.now.site, henv]
    exact ⟨rfl, rfl⟩
  cases hb₂ : funcBody target.name pos names body
      { b₁ with env := b₁.env.openScope ("function " ++ target.name), site := ⟨ds.length, 0⟩ } with
  | error e b₂ =>
    rw [hb₂] at hgrow
    obtain ⟨b₃, hb₃, ds', hsound, hnames, hplaces⟩ := hgrow
    rw [bind_error (inScope_error hb₂)]
    rw [List.map_append] at hnames
    refine ⟨ds', ?_, (List.prefix_append _ _).trans hnames, ?_⟩
    · show Sound b₂.closeScope.module ds'
      rw [(closeScope_eq b₂).1]
      exact hsound
    · -- the function itself stays without a result
      simp only [hb₃]
      rw [hplaces, Draft.openPlaces_append, Nat.zero_add, List.append_assoc]
      rfl
  | ok u b₂ =>
    rw [hb₂] at hgrow
    obtain ⟨d', new, hsound, hsig, hclosed, hnew, hfuncs, htail⟩ := hgrow
    rw [set_length_append, List.append_assoc] at hsound hfuncs
    have hinv := h.leave hbefore hsound hfuncs htail
    obtain ⟨b₃, hb₃, hw⟩ := emitFuncAddr_spec hinv.now ds.length (userSignature names.length) pos
    rw [bind_ok (inScope_ok hb₂), hb₃]
    have hsigs : Draft.sigs (ds ++ d' :: new) ds.length = some (userSignature names.length) := by
      simp [Draft.sigs, hsig, header]
    have hwrite := Grown.of_wrote_same hinv hw (.single (.funcAddr ds.length _ pos hsigs))
    have hfirst : Grown b ds f d { b₂.closeScope with site := b₁.site } [] (d' :: new) := by
      refine ⟨?_, ?_, ?_⟩
      · rw [Draft.append_nil, h.now.set_self]
        exact hinv
      · show b₂.closeScope.env.scopes.tail = _
        rw [(closeScope_eq b₂).2.2, htail, ← hbefore.2]
        rfl
      · intro e he
        rcases List.mem_cons.1 he with rfl | he
        · exact hclosed
        · exact hnew e he
    rw [← h.now.set_self, ← Draft.append_nil d] at hwrite
    refine ⟨_, _, hfirst.trans h.now.lt_length hwrite, ?_⟩
    refine ⟨by simp, fun _ => typed_last f d.code _, .inr rfl, ?_⟩
    rintro s ⟨⟩
    exact ⟨⟨names.length, rfl⟩, rfl⟩

/-- What grows from a grown state has grown from the state before. -/
theorem Grown.andThen {α : Type} {P : List Value → α → Prop}
    {r : EStateM.Result LoweringError Builder α} {places : List Nat} (h : Inv b ds f d)
    (hgrown : Grown b ds f d b' vs new)
    (hr : Ends r
      (fun a b'' => ∃ ws new',
        Grown b' (ds.set f (d.append vs) ++ new) f (d.append vs) b'' ws new' ∧
          P ((d.append vs).code ++ ws) a)
      (Stopped (ds.set f (d.append vs) ++ new) places)) :
    Ends r (fun a b'' => ∃ ws new', Grown b ds f d b'' ws new' ∧ P (d.code ++ ws) a)
      (Stopped ds places) := by
  cases r with
  | ok a b'' =>
    obtain ⟨ws, new', hgrown', hp⟩ := hr
    rw [Draft.code_append, List.append_assoc] at hp
    exact ⟨_, _, hgrown.trans h.now.lt_length hgrown', hp⟩
  | error e b'' => exact hgrown.stopped h.now.here hr

theorem assign_grows {value : Expr} (hvalue : Grows value)
    (hnot : ∀ pos params body, value ≠ .function pos params body) (pos : Position)
    (target : Ident) : Grows (.assign pos target value) := by
  intro b ds f d h
  have hv := hvalue h
  rw [expr_assign hnot, interrupted_assign hnot]
  cases hb₁ : expr value b with
  | error e b₁ =>
    rw [hb₁] at hv
    rw [bind_error hb₁]
    exact hv
  | ok x b₁ =>
    rw [hb₁] at hv
    obtain ⟨vs, new, hgrown, hx⟩ := hv
    rw [bind_ok hb₁]
    exact hgrown.andThen h (assignValue_grows hgrown.inv hx pos target.name)

theorem call_grows {args : List Expr} (hargs : ArgumentsGrow args) (pos : Position)
    (callee : Ident) : Grows (.call pos callee args) := by
  intro b ds f d h
  have hs := hargs h
  rw [expr, interrupted]
  cases hb₁ : arguments args b with
  | error e b₁ =>
    rw [hb₁] at hs
    rw [bind_error hb₁]
    exact hs
  | ok xs b₁ =>
    rw [hb₁] at hs
    obtain ⟨vs, new, hgrown, hxs⟩ := hs
    rw [bind_ok hb₁, interruptedIn_of_arguments hb₁]
    exact hgrown.andThen h (callNamed_grows hgrown.inv hxs pos callee.name)

theorem fail_grows {e : Expr} (h : ∀ b, ∃ err, expr e b = .error err b)
    (hi : ∀ b, interrupted e b = []) : Grows e := by
  intro b ds f d hinv
  obtain ⟨err, hb⟩ := h b
  rw [hb, hi]
  exact (Grown.refl hinv).halted hinv.now.here

theorem arguments_cons_grow {e : Expr} {es : List Expr} (he : Grows e) (hes : ArgumentsGrow es) :
    ArgumentsGrow (e :: es) := by
  intro b ds f d h
  have hx := he h
  rw [arguments, interruptedIn]
  cases hb₁ : expr e b with
  | error err b₁ =>
    rw [hb₁] at hx
    rw [bind_error hb₁]
    exact hx
  | ok x b₁ =>
    rw [hb₁] at hx
    obtain ⟨vs, new, hgrown, hx⟩ := hx
    rw [bind_ok hb₁]
    refine hgrown.andThen
      (P := fun code (xs : List (Position × Operand)) => ∀ x ∈ xs, OperandOk f code x.2) h ?_
    have hxs := hes hgrown.inv
    cases hb₂ : arguments es b₁ with
    | error err b₂ =>
      rw [hb₂] at hxs
      rw [bind_error hb₂]
      exact hxs
    | ok xs b₂ =>
      rw [hb₂] at hxs
      obtain ⟨ws, new', hgrown', hxs⟩ := hxs
      rw [bind_ok hb₂]
      refine ⟨ws, new', hgrown', ?_⟩
      intro y hy
      rcases List.mem_cons.1 hy with rfl | hy
      · exact hx.mono (List.prefix_append _ _)
      · exact hxs y hy

theorem sequence_cons_grows {e : Expr} {es : List Expr} (he : Grows e) (hes : SequenceGrows es) :
    SequenceGrows (e :: es) := by
  intro b ds f d h
  have hx := he h
  rw [sequence, interruptedIn]
  cases hb₁ : expr e b with
  | error err b₁ =>
    rw [hb₁] at hx
    rw [bind_error hb₁]
    exact hx
  | ok x b₁ =>
    rw [hb₁] at hx
    obtain ⟨vs, new, hgrown, hx⟩ := hx
    rw [bind_ok hb₁]
    refine hgrown.andThen
      (P := fun code tail => ∀ p x, tail = some (p, x) → OperandOk f code x) h ?_
    have hxs := hes hgrown.inv
    cases hb₂ : sequence es b₁ with
    | error err b₂ =>
      rw [hb₂] at hxs
      rw [bind_error hb₂]
      exact hxs
    | ok t b₂ =>
      rw [hb₂] at hxs
      obtain ⟨ws, new', hgrown', hxs⟩ := hxs
      rw [bind_ok hb₂]
      cases t with
      | some last => exact ⟨ws, new', hgrown', hxs⟩
      | none =>
        refine ⟨ws, new', hgrown', ?_⟩
        rintro p y ⟨⟩
        exact hx.mono (List.prefix_append _ _)

mutual

/-- Lowering keeps the invariant. -/
theorem expr_grows : ∀ e : Expr, Grows e
  | .int pos n => int_grows pos n
  | .name id => nameValue_grows id
  | .string pos content => stringLiteral_grows pos content
  | .assign p target value => by
    have hvalue := expr_grows value
    cases value with
    | function pos params body => exact function_grows (sequence_grows body) p target pos params
    | _ => exact assign_grows hvalue (by simp) p target
  | .call pos callee args => call_grows (arguments_grow args) pos callee
  | .function pos params body =>
    fail_grows (fun _ => ⟨_, by simp only [expr]; rfl⟩) (by simp [interrupted])
  | .absent => fail_grows (fun _ => ⟨_, by simp only [expr]; rfl⟩) (by simp [interrupted])
  | .infixTail .. => fail_grows (fun _ => ⟨_, by simp only [expr]; rfl⟩) (by simp [interrupted])
  | .empty .. => fail_grows (fun _ => ⟨_, by simp only [expr]; rfl⟩) (by simp [interrupted])

theorem arguments_grow : ∀ es : List Expr, ArgumentsGrow es
  | [] => by
    intro b ds f d h
    rw [arguments]
    exact ⟨[], [], .refl h, by simp⟩
  | e :: es => arguments_cons_grow (expr_grows e) (arguments_grow es)

theorem sequence_grows : ∀ es : List Expr, SequenceGrows es
  | [] => by
    intro b ds f d h
    rw [sequence]
    exact ⟨[], [], .refl h, by simp⟩
  | e :: es => sequence_cons_grows (expr_grows e) (sequence_grows es)

end

/-! ## Whole programs -/

/-- The code of `+`. -/
def addCode : List Value :=
  [Draft.placed 1 (argValue 0 "a") [], Draft.placed 1 (argValue 1 "b") [],
    Draft.placed 1 { op := .add32, type := .i32 } [⟨1, 0⟩, ⟨1, 1⟩]]

/-- The code of `print`, which passes the format and its argument to the output function. -/
def printCode : List Value :=
  [Draft.placed 2 (argValue 0 "x") [],
    Draft.placed 2 { op := .globalAddr, type := .ptr, aux := .global 0 } [],
    Draft.placed 2 { op := .call, type := .i32, aux := .func 0 } [⟨2, 1⟩, ⟨2, 0⟩]]

/-- The signature of the output function. -/
def outputSignature : Signature := { params := [.ptr], result := .i32, variadic := true }

/-- The entry function before anything is lowered into it. -/
def entryDraft : Draft := { name := Builtin.entry, sig := userSignature 0 }

/-- The built-in functions and the entry function, whose body is still empty. -/
def startDrafts : List Draft :=
  [{ name := Builtin.output, sig := outputSignature, external := true },
    { name := Builtin.add, sig := userSignature 2, paramNames := ["a", "b"], code := addCode,
      result := some ⟨1, 2⟩ },
    { name := Builtin.print, sig := userSignature 1, paramNames := ["x"], code := printCode,
      result := some ⟨2, 2⟩ },
    entryDraft]

/-- The place of the entry function. -/
def entryPlace : Nat := 3

/-- The functions that are there from the start do not depend on the two texts. -/
theorem initial_funcs (name triple : String) : (Builder.initial name triple).module.funcs =
    (Builder.initial "" "").module.funcs := by rfl

theorem initial_drafted (name triple : String) :
    (Builder.initial name triple).module.Drafted startDrafts := by
  have hfuncs : (Builder.initial name triple).module.core.funcs =
      (Builder.initial "" "").module.core.funcs := by rfl
  have h : (Builder.initial "" "").module.core.funcs = startDrafts.mapIdx Draft.func := by
    decide +kernel
  exact hfuncs.trans h

theorem initial_env (name triple : String) : (Builder.initial name triple).env =
    { scopes := [{ title := "program" }],
      funcs := [{ name := Builtin.print, func := 2, sig := userSignature 1 },
        { name := Builtin.add, func := 1, sig := userSignature 2 },
        { name := Builtin.output, func := 0, sig := outputSignature, hidden := true }] } := rfl

theorem initial_globals (name triple : String) : (Builder.initial name triple).module.globals =
    [⟨".str.0", Text.Utf8.ofString Builtin.printFormat⟩] := by
  have hglobals : (Builder.initial name triple).module.globals =
      (Builder.initial "" "").module.globals := by rfl
  rw [hglobals]
  decide +kernel

theorem initial_symbols (name triple : String) :
    (Builder.initial name triple).module.symbols.map Prod.fst =
      [Builtin.entry, ".str.0", Builtin.print, Builtin.add, Builtin.output] := by
  have hsymbols : (Builder.initial name triple).module.symbols =
      (Builder.initial "" "").module.symbols := by rfl
  rw [hsymbols]
  decide +kernel

theorem initial_named (name triple : String) :
    (Builder.initial name triple).module.Named startDrafts := by
  refine ⟨?_, ?_⟩
  · rw [initial_globals]
    decide
  · rw [initial_globals, initial_symbols]
    decide

theorem addCode_ok (σ : Nat → Option Signature) : CodeOk σ 1 (userSignature 2) [] addCode :=
  .cons (.arg 0 .i32 (.name "a") {} rfl) (.cons (.arg 1 .i32 (.name "b") {} rfl)
    (.single (.add32 ⟨1, 0⟩ ⟨1, 1⟩ {} ⟨rfl, _, rfl, rfl⟩ ⟨rfl, _, rfl, rfl⟩)))

theorem printCode_ok (σ : Nat → Option Signature) (h : σ 0 = some outputSignature) :
    CodeOk σ 2 (userSignature 1) [] printCode := by
  refine .cons (.arg 0 .i32 (.name "x") {} rfl) (.cons (.globalAddr 0 {})
    (.single (.call 0 outputSignature [⟨2, 1⟩, ⟨2, 0⟩] {} h ⟨rfl, ?_, ?_⟩)))
  · intro r hr
    rcases List.mem_pair.1 hr with rfl | rfl
    · exact ⟨.ptr, .inr rfl, rfl, _, rfl, rfl⟩
    · exact ⟨.i32, .inl rfl, rfl, _, rfl, rfl⟩
  · intro i t r ht hr
    match i with
    | 0 =>
      cases ht
      cases hr
      exact ⟨rfl, _, rfl, rfl⟩
    | i + 1 => simp [outputSignature] at ht

theorem startDrafts_ok (i : Nat) (d : Draft) (h : startDrafts[i]? = some d) :
    d.Ok startDrafts i := by
  match i with
  | 0 =>
    cases h
    exact ⟨by simp, by simp⟩
  | 3 =>
    cases h
    exact ⟨by simp [entryDraft], by simp [entryDraft]⟩
  | 1 =>
    cases h
    refine ⟨addCode_ok _, ?_⟩
    rintro r ⟨⟩
    exact ⟨rfl, _, rfl, rfl⟩
  | 2 =>
    cases h
    refine ⟨printCode_ok _ rfl, ?_⟩
    rintro r ⟨⟩
    exact ⟨rfl, _, rfl, rfl⟩
  | i + 4 => simp [startDrafts] at h

theorem initial_site (name triple : String) :
    (Builder.initial name triple).site = ⟨entryPlace, 0⟩ := by
  have hsite : (Builder.initial name triple).site = (Builder.initial "" "").site := by rfl
  rw [hsite]
  decide +kernel

theorem initial_inv (name triple : String) :
    Inv (Builder.initial name triple) startDrafts entryPlace entryDraft := by
  refine ⟨⟨initial_drafted name triple, initial_site name triple, rfl, rfl⟩,
    ⟨initial_drafted name triple, initial_named name triple, startDrafts_ok⟩, rfl, ?_, ?_⟩
  · intro s hs v hv
    rw [initial_env] at hs
    cases hs
    cases hv
  · intro n c hc
    rw [initial_env, Env.findFunc?, List.find?_cons, List.find?_cons, List.find?_cons] at hc
    split at hc
    · cases hc
      exact ⟨rfl, 1, rfl⟩
    · split at hc
      · cases hc
        exact ⟨rfl, 2, rfl⟩
      · split at hc <;> cases hc

theorem topLevel_grows (i : Nat) (es : List Expr) (h : Inv b ds f d) : Ends (topLevel i es b)
    (fun _ b' => ∃ vs new, Grown b ds f d b' vs new) (Stopped ds (interruptedAt i es b)) := by
  induction es generalizing b ds d i with
  | nil => exact ⟨[], [], .refl h⟩
  | cons e es ih =>
    have hinv : Inv { b with events := b.events ++ [.expression i e.kind e.pos] } ds f d :=
      ⟨h.now.with_events _, h.sound, h.unended, h.vars, h.funcs⟩
    have hx := expr_grows e hinv
    rw [topLevel_cons, interruptedAt]
    cases hb₁ : expr e { b with events := b.events ++ [.expression i e.kind e.pos] } with
    | error err b₁ =>
      rw [hb₁] at hx
      rw [bind_error hb₁]
      exact hx
    | ok x b₁ =>
      rw [hb₁] at hx
      obtain ⟨vs, new, hgrown, -⟩ := hx
      rw [bind_ok hb₁]
      have hgrown' : Grown b ds f d b₁ vs new := ⟨hgrown.inv, hgrown.tail, hgrown.closed⟩
      have hrest := ih (i + 1) hgrown.inv
      cases hb₂ : topLevel (i + 1) es b₁ with
      | error err b₂ =>
        rw [hb₂] at hrest
        exact hgrown'.stopped h.now.here hrest
      | ok u b₂ =>
        rw [hb₂] at hrest
        obtain ⟨ws, new', hgrown''⟩ := hrest
        exact ⟨_, _, hgrown'.trans h.now.lt_length hgrown''⟩

end Lowering

namespace IR

/-- The symbol of the function at a place. -/
def Module.symbolAt (m : Module) (f : Nat) : String := ((m.funcs[f]?).map (·.name)).getD ""

/-- The violation of a function that does not return. -/
def unendedBlock (symbol : String) : Violation := ⟨.block symbol 0, .notReturn .plain⟩

theorem Draft.unfinished_eq {symbol : Nat → String} (n : Nat) (ds : List Draft)
    (h : ∀ (i : Nat) d, ds[i]? = some d → symbol (n + i) = d.name) :
    ds.flatMap unfinished = (openPlaces n ds).map fun i => unendedBlock (symbol i) := by
  induction ds generalizing n with
  | nil => rfl
  | cons d ds ih =>
    have hd : symbol n = d.name := h 0 d rfl
    have hrest := ih (n + 1) fun i e he => by
      rw [Nat.add_assoc, Nat.add_comm 1]
      exact h (i + 1) e he
    rw [List.flatMap_cons, openPlaces, unfinished, hrest]
    split
    · rw [List.map_cons, hd]
      rfl
    · rfl

end IR

namespace Lowering

open Builder

theorem Sound.symbolAt_eq {m : Module} {ds : List Draft} (h : Sound m ds) {i : Nat} {d : Draft}
    (hd : ds[i]? = some d) : m.symbolAt i = d.name := by
  obtain ⟨x, hx, hxd⟩ := h.drafted.getElem?_funcs hd
  rw [Module.symbolAt, hx, ← Draft.name_func i d, ← hxd]
  rfl

/-- What the verifier says about a module in which some functions are not complete yet. -/
theorem Sound.verify_eq {m : Module} {ds : List Draft} (h : Sound m ds) :
    m.verify = (Draft.openPlaces 0 ds).map fun f => unendedBlock (m.symbolAt f) := by
  rw [h.drafted.verify_eq h.named h.ok, Draft.unfinished_eq]
  intro i d hd
  rw [Nat.zero_add, h.symbolAt_eq hd]

/-- The constant that the entry function returns. -/
def statusCode (f : Nat) : Value :=
  Draft.placed f { op := .const32, type := .i32, number := Builtin.entryStatus.toInt } []

/-- Ending the function at hand appends the constant and returns it. -/
theorem finish_spec {b : Builder} {ds : List Draft} {f : Nat} {d : Draft} (h : At b ds f d) :
    b.finish.module.Drafted (ds.set f ((d.append [statusCode f]).ret (next f d))) ∧
      b.finish.module.rest = b.module.rest := by
  obtain ⟨b', hb', hw⟩ := emit_spec h
    { op := .const32, type := .i32, number := Builtin.entryStatus.toInt } []
  have hfinish : b.finish.module = b'.module.setReturn ⟨f, 0⟩ (some (next f d)) := by
    rw [emit_eq, EStateM.Result.ok.injEq] at hb'
    obtain ⟨hr, rfl⟩ := hb'
    rw [← hr, ← h.site]
    rfl
  have hret := hw.now.drafted.setReturn hw.now.here hw.now.inside (next f d)
  rw [List.set_set, ← hfinish] at hret
  refine ⟨hret, ?_⟩
  rw [hfinish]
  exact hw.rest_eq

/-- Ending the function at hand completes it. -/
theorem Inv.finish {b : Builder} {ds : List Draft} {f : Nat} {d : Draft} (h : Inv b ds f d)
    (hsig : d.sig.result = .i32) :
    Sound b.finish.module (ds.set f ((d.append [statusCode f]).ret (next f d))) := by
  obtain ⟨hdrafted, hrest⟩ := finish_spec h.now
  have hc : CodeOk (Draft.sigs ds) f d.sig d.code [statusCode f] := .single (.const32 _ _)
  apply h.sound.set h.now.here hdrafted hrest rfl rfl
  refine ⟨((h.sound.ok f d h.now.here).append h.unended hc).values, ?_⟩
  rintro r ⟨⟩
  show Typed f (d.code ++ [statusCode f]) ⟨f, d.code.length⟩ d.sig.result
  rw [hsig]
  exact typed_last f d.code (statusCode f)

/-- Ending the entry function leaves no function incomplete. -/
theorem finish_verify {name triple : String} {b : Builder} {vs : List Value} {new : List Draft}
    (h : Grown (Builder.initial name triple) startDrafts entryPlace entryDraft b vs new) :
    b.finish.module.verify = [] := by
  have hsound := h.inv.finish rfl
  have hds : ∀ d', (startDrafts.set entryPlace (entryDraft.append vs) ++ new).set entryPlace d' =
      startDrafts.set entryPlace d' ++ new := fun _ => rfl
  rw [hds] at hsound
  rw [hsound.verify_eq, Draft.openPlaces_append, Draft.openPlaces_eq_nil h.closed]
  rfl

end Lowering

end Wordlang
