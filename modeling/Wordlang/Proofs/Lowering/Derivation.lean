import Wordlang.Proofs.Lowering.Verified

/-!
# Derivations of lowering

What lowering yields when it succeeds, as rules over expressions: which values an expression adds to
the function at hand, which functions it adds to the module, and how the environment changes. The
rules mention neither the module nor the state, so that later proofs go by induction on derivations.
-/

namespace Wordlang

open IR Outcome

namespace Lowering

open Builder

/-- An integer constant. -/
def constCode (f : Nat) (n : Int32) (pos : Position) : Value :=
  Draft.placed f { op := .const32, type := .i32, number := n.toInt, pos } []

/-- The address of a global. -/
def globalCode (f g : Nat) (pos : Position) : Value :=
  Draft.placed f { op := .globalAddr, type := .ptr, aux := .global g, pos } []

/-- The address of a function. -/
def addressCode (f g : Nat) (pos : Position) : Value :=
  Draft.placed f { op := .funcAddr, type := .ptr, aux := .func g, pos } []

/-- The draft at place `n` of a function whose body added the values `vs` and ended with the operand
`x`. -/
def completed (symbol : String) (names : List Ident) (n : Nat) (vs : List Value)
    (last : Position × Operand) : Draft :=
  (((header symbol names).append (spillCode n 0 0 names ++ vs)).append
    (readCode n last.1 last.2)).ret (readRef n (spillCode n 0 0 names ++ vs).length last.2)

/-- The environment in which the body of the function `name` at place `n` is lowered. -/
def bodyEnv (env : Env) (name : String) (n : Nat) (names : List Ident) : Env :=
  spillEnv n 0
    ((env.defineFunc { name, func := n, sig := userSignature names.length }).openScope
      ("function " ++ name)) names

mutual

/-- In the function `f`, which has `k` values, of a module with `n` functions, the expression is
lowered to the operand; it adds the values and the functions that come last. -/
inductive Lowers : Nat → Env → Nat → Nat → Expr → Operand → Env → List Value → List Draft → Prop
  | int (f k n : Nat) (env : Env) (pos : Position) (i : Int32) :
    Lowers f env k n (.int pos i) { ref := ⟨f, k⟩, type := .i32 } env [constCode f i pos] []
  | string (f k n g : Nat) (env : Env) (pos : Position) (content : String) :
    Lowers f env k n (.string pos content) { ref := ⟨f, k⟩, type := .ptr } env [globalCode f g pos]
      []
  | variable (f k n : Nat) (env : Env) (id : Ident) (v : Binding)
    (hv : env.findVar? id.name = some v) :
    Lowers f env k n (.name id) { ref := v.slot, type := v.elem, isSlot := true, sig := v.sig } env
      [] []
  | function (f k n : Nat) (env : Env) (id : Ident) (c : Callable)
    (hv : env.findVar? id.name = none) (hc : env.findFunc? id.name = some c) :
    Lowers f env k n (.name id) { ref := ⟨f, k⟩, type := .ptr, sig := some c.sig } env
      [addressCode f c.func id.pos] []
  | define (f k n : Nat) (env env' : Env) (p pos : Position) (target : Ident)
    (params body : List Expr) (names : List Ident) (symbol : String)
    (xs : List (Position × Operand)) (last : Position × Operand) (vs : List Value)
    (new : List Draft) (hnames : paramNames 0 params = .ok names)
    (hbody : LowersAll n (bodyEnv env target.name n names) (spillCode n 0 0 names).length (n + 1)
      body xs env' vs new)
    (hlast : xs.getLast? = some last) (htype : last.2.type = .i32) :
    Lowers f env k n (.assign p target (.function pos params body))
      { ref := ⟨f, k⟩, type := .ptr, sig := some (userSignature names.length) }
      { env' with scopes := env.scopes } [addressCode f n pos]
      (completed symbol names n vs last :: new)
  | assign (f k n : Nat) (env env' : Env) (pos : Position) (target : Ident) (e : Expr) (x : Operand)
    (slot : ValueRef) (vs ws : List Value) (new : List Draft)
    (hnot : ∀ pos params body, e ≠ .function pos params body)
    (he : Lowers f env k n e x env' vs new) (hfree : env'.findFunc? target.name = none)
    (hslot : Assigns env' f (k + vs.length + (readCode f pos x).length) target.name x.type pos slot
      ws) :
    Lowers f env k n (.assign pos target e)
      { ref := readRef f (k + vs.length) x, type := x.type, sig := x.sig }
      (bound env' { name := target.name, slot, elem := x.type, sig := x.sig })
      (vs ++ (readCode f pos x ++ ws ++ [storeCode f slot (readRef f (k + vs.length) x) pos])) new
  | call (f k n : Nat) (env env' : Env) (pos : Position) (callee : Ident) (args : List Expr)
    (xs : List (Position × Operand)) (t : Target) (sig : Signature) (vs ws : List Value)
    (new : List Draft) (hargs : LowersAll f env k n args xs env' vs new)
    (hcalls : Calls env' callee.name t sig) (hacc : sig.accepts xs.length = true)
    (hfit : Fit sig.params xs) (hws : ws = invokeCode f (k + vs.length) t sig xs pos) :
    Lowers f env k n (.call pos callee args)
      { ref := ⟨f, k + vs.length + ws.length⟩, type := sig.result, isSlot := true } env'
      (vs ++ (ws ++ keepCode f (k + vs.length + ws.length) sig.result callee.name pos)) new

/-- The same for expressions one after the other, each of which yields an operand. -/
inductive LowersAll : Nat → Env → Nat → Nat → List Expr → List (Position × Operand) → Env →
    List Value → List Draft → Prop
  | nil (f k n : Nat) (env : Env) : LowersAll f env k n [] [] env [] []
  | cons (f k n : Nat) (env env' env'' : Env) (e : Expr) (es : List Expr) (x : Operand)
    (xs : List (Position × Operand)) (vs ws : List Value) (new new' : List Draft)
    (he : Lowers f env k n e x env' vs new)
    (hes : LowersAll f env' (k + vs.length) (n + new.length) es xs env'' ws new') :
    LowersAll f env k n (e :: es) ((e.pos, x) :: xs) env'' (vs ++ ws) (new ++ new')

end

/-! ## Derivations from successful lowering -/

/-- The state `b'` is reached from `b` with the values `vs` added to the function at hand and the
functions `new` added to the module. -/
structure Added (b : Builder) (ds : List Draft) (f : Nat) (d : Draft) (b' : Builder)
    (vs : List Value) (new : List Draft) : Prop where
  now : At b' (ds.set f (d.append vs) ++ new) f (d.append vs)
  globals : b.module.globals <+: b'.module.globals
  tail : b'.env.scopes.tail = b.env.scopes.tail

variable {b b' : Builder} {ds : List Draft} {f : Nat} {d : Draft} {vs ws : List Value}
  {new : List Draft} {env : Env}

theorem globals_eq {m m' : Module} (h : m'.rest = m.rest) : m'.globals = m.globals :=
  congrArg (·.2.2.1) h

theorem Added.of_wrote (hw : Wrote b ds f d vs env b')
    (htail : env.scopes.tail = b.env.scopes.tail) : Added b ds f d b' vs [] := by
  refine ⟨?_, ?_, ?_⟩
  · rw [List.append_nil]
    exact hw.now
  · exact ⟨[], by rw [List.append_nil, globals_eq hw.rest_eq]⟩
  · rw [hw.env_eq, htail]

theorem Added.refl (h : At b ds f d) : Added b ds f d b [] [] := .of_wrote (.refl h) rfl

theorem Added.trans {b'' : Builder} {new' : List Draft} (hlt : f < ds.length)
    (h : Added b ds f d b' vs new)
    (h' : Added b' (ds.set f (d.append vs) ++ new) f (d.append vs) b'' ws new') :
    Added b ds f d b'' (vs ++ ws) (new ++ new') := by
  refine ⟨?_, h.globals.trans h'.globals, h'.tail.trans h.tail⟩
  have hnow := h'.now
  rw [List.set_append_left _ _ (by simpa using hlt), List.set_set, Draft.append_append,
    List.append_assoc] at hnow
  exact hnow

/-- A body yields the last of its operands. -/
theorem sequence_ok {es : List Expr} {t : Option (Position × Operand)}
    (h : sequence es b = .ok t b') : ∃ xs, arguments es b = .ok xs b' ∧ t = xs.getLast? := by
  induction es generalizing b t with
  | nil =>
    rw [sequence] at h
    cases h
    exact ⟨[], by rw [arguments]; rfl, rfl⟩
  | cons e es ih =>
    obtain ⟨x, b₁, t', hx, hes, rfl⟩ := sequence_cons_ok h
    obtain ⟨xs, hxs, rfl⟩ := ih hes
    refine ⟨(e.pos, x) :: xs, ?_, List.getLast?_cons.symm⟩
    rw [arguments, bind_ok hx, bind_ok hxs]
    rfl

/-- Successful lowering of the expression has a derivation. -/
def Derived (e : Expr) : Prop :=
  ∀ ⦃b ds f d x b'⦄, At b ds f d → expr e b = .ok x b' →
    ∃ vs new, Lowers f b.env d.code.length ds.length e x b'.env vs new ∧ Added b ds f d b' vs new

/-- Successful lowering of the expressions has a derivation. -/
def DerivedAll (es : List Expr) : Prop :=
  ∀ ⦃b ds f d xs b'⦄, At b ds f d → arguments es b = .ok xs b' →
    ∃ vs new, LowersAll f b.env d.code.length ds.length es xs b'.env vs new ∧
      Added b ds f d b' vs new

theorem int_derived (pos : Position) (n : Int32) : Derived (.int pos n) := by
  intro b ds f d x b' h hb
  obtain ⟨b₁, hb₁, hw⟩ := emit_spec h { op := .const32, type := .i32, number := n.toInt, pos } []
  rw [expr, emitConst, bind_ok hb₁] at hb
  cases hb
  refine ⟨_, _, ?_, .of_wrote hw rfl⟩
  rw [hw.env_eq]
  exact .int f d.code.length ds.length b.env pos n

theorem prefix_internString (m : Module) (data : List UInt8) :
    m.globals <+: (m.internString data).2.globals := by
  unfold Module.internString
  split
  · exact List.prefix_rfl
  · exact List.prefix_append _ _

theorem string_derived (pos : Position) (content : String) : Derived (.string pos content) := by
  intro b ds f d x b' h hb
  obtain ⟨data, g, b₁, hb₁, hw⟩ := stringLiteral_spec h pos content
  rw [expr, hb₁] at hb
  cases hb
  have hadded := Added.of_wrote hw rfl
  refine ⟨_, _, ?_, hadded.now, (prefix_internString _ data).trans hadded.globals, hadded.tail⟩
  rw [hw.env_eq]
  exact .string f d.code.length ds.length g b.env pos content

theorem name_derived (id : Ident) : Derived (.name id) := by
  intro b ds f d x b' h hb
  rw [expr] at hb
  rcases nameValue_spec h id with ⟨v, hv, hb₁⟩ | ⟨c, b₁, hv, hc, hb₁, hw⟩ | ⟨e, hb₁⟩
  · rw [hb₁] at hb
    cases hb
    exact ⟨_, _, .variable f _ _ _ id v hv, .refl h⟩
  · rw [hb₁] at hb
    cases hb
    refine ⟨_, _, ?_, .of_wrote hw rfl⟩
    rw [hw.env_eq]
    exact .function f _ _ _ id c hv hc
  · rw [hb₁] at hb
    cases hb

theorem assign_derived {e : Expr} (he : Derived e)
    (hnot : ∀ pos params body, e ≠ .function pos params body) (pos : Position) (target : Ident) :
    Derived (.assign pos target e) := by
  intro b ds f d y b' h hb
  rw [expr_assign hnot] at hb
  obtain ⟨x, b₁, hx, hb₁⟩ := bind_eq_ok_iff.1 hb
  obtain ⟨vs, new, hlow, hadded⟩ := he h hx
  rcases assignValue_spec hadded.now pos target.name x with
    ⟨slot, ws, b₂, hb₂, hfree, hslot, hw⟩ | ⟨err, b₂, hb₂, -⟩
  swap
  · rw [hb₂] at hb₁
    cases hb₁
  rw [hb₂] at hb₁
  cases hb₁
  refine ⟨_, _, ?_, hadded.trans h.lt_length (.of_wrote hw (scopes_tail_bound _ _))⟩
  rw [Draft.code_append, List.length_append, List.length_append] at hslot
  rw [hw.env_eq, Draft.code_append, List.length_append, List.append_nil]
  exact .assign f _ _ _ _ pos target e x slot vs ws new hnot hlow hfree hslot

theorem call_derived {args : List Expr} (hargs : DerivedAll args) (pos : Position)
    (callee : Ident) : Derived (.call pos callee args) := by
  intro b ds f d y b' h hb
  rw [expr] at hb
  obtain ⟨xs, b₁, hxs, hb₁⟩ := bind_eq_ok_iff.1 hb
  obtain ⟨vs, new, hlow, hadded⟩ := hargs h hxs
  rcases callNamed_spec hadded.now pos callee.name xs with
    ⟨t, sig, k, b₂, hb₂, hcalls, hacc, hfit, hk, hw⟩ | ⟨err, ys, b₂, hb₂, -⟩
  swap
  · rw [hb₂] at hb₁
    cases hb₁
  rw [hb₂] at hb₁
  cases hb₁
  refine ⟨_, _, ?_, hadded.trans h.lt_length (.of_wrote hw rfl)⟩
  rw [Draft.code_append, List.length_append, List.length_append] at hk
  rw [hw.env_eq, List.append_nil, Draft.code_append, List.length_append, hk]
  exact .call f _ _ _ _ pos callee args xs t sig vs _ new hlow hcalls hacc hfit rfl

/-- A function whose body has been lowered is complete, and has the code of the derivation. -/
theorem body_derived {body : List Expr} (hbody : DerivedAll body) {names : List Ident}
    {symbol name : String} {pos : Position} (h : At b ds f (header symbol names))
    (hb : funcBody name pos names body b = .ok () b') :
    ∃ xs last vs new, LowersAll f (spillEnv f 0 b.env names) (spillCode f 0 0 names).length
        ds.length body xs b'.env vs new ∧
      xs.getLast? = some last ∧ last.2.type = .i32 ∧
      b'.module.Drafted (ds.set f (completed symbol names f vs last) ++ new) ∧
      b.module.globals <+: b'.module.globals ∧ b'.env.scopes.tail = b.env.scopes.tail := by
  obtain ⟨b₁, hb₁, hw⟩ := spillParams_spec h 0 names
  rw [funcBody, bind_ok hb₁] at hb
  obtain ⟨t, b₂, hseq, hret⟩ := bind_eq_ok_iff.1 hb
  obtain ⟨xs, hxs, rfl⟩ := sequence_ok hseq
  have hspill := Added.of_wrote hw (spillEnv_eq _ _ _ _).2
  obtain ⟨vs, new, hlow, hadded⟩ := hbody hw.now hxs
  have hall : Added b ds f (header symbol names) b₂ (spillCode f 0 0 names ++ vs) new := by
    have hlow' : Added b₁ (ds.set f ((header symbol names).append (spillCode f 0 0 names)) ++ []) f
        ((header symbol names).append (spillCode f 0 0 names)) b₂ vs new := by
      rw [List.append_nil]
      exact hadded
    exact hspill.trans h.lt_length hlow'
  rcases returnTail_spec hall.now name pos xs.getLast? with
    ⟨last, x, b₃, hlast, hb₃, htype, hnow, henv, hrest⟩ | ⟨e, ws, b₃, hb₃, -⟩
  swap
  · rw [hb₃] at hret
    cases hret
  rw [hb₃] at hret
  cases hret
  refine ⟨xs, (last, x), vs, new, ?_, hlast, htype, ?_, ?_, ?_⟩
  · rw [hw.env_eq, List.length_set] at hlow
    rw [henv]
    exact hlow
  · have hdrafted := hnow.drafted
    rwa [List.set_append_left _ _ (by simpa using h.lt_length), List.set_set] at hdrafted
  · rw [globals_eq hrest]
    exact hall.globals
  · rw [henv]
    exact hall.tail

theorem define_derived {body : List Expr} (hbody : DerivedAll body) (p : Position) (target : Ident)
    (pos : Position) (params : List Expr) :
    Derived (.assign p target (.function pos params body)) := by
  intro b ds f d x b' h hb
  rcases declareFunc_spec h target pos params with
    ⟨names, b₁, hb₁, hnames, -, hnow, henv, hrest⟩ | ⟨e, hb₁⟩
  swap
  · rw [expr, bind_error hb₁] at hb
    cases hb
  rw [expr_define hb₁] at hb
  obtain ⟨u, b₂, hscope, haddr⟩ := bind_eq_ok_iff.1 hb
  obtain ⟨b₃, hb₃, rfl⟩ := inScope_eq_ok hscope
  -- the body is lowered into the function that was declared last
  have hat : At
      { b₁ with env := b₁.env.openScope ("function " ++ target.name), site := ⟨ds.length, 0⟩ }
      (ds ++ [header (b.module.freshSymbol target.name).1 names]) ds.length
      (header (b.module.freshSymbol target.name).1 names) :=
    ⟨hnow.drafted, rfl, by simp, rfl⟩
  obtain ⟨xs, last, vs, new, hlow, hlast, htype, hdrafted, hglobals, htail⟩ :=
    body_derived hbody hat hb₃
  rw [set_length_append, List.append_assoc] at hdrafted
  obtain ⟨hmodule, hfuncs, hscopes⟩ := closeScope_eq b₃
  have hscopes' : b₃.closeScope.env.scopes = b.env.scopes := by
    rw [hscopes, htail]
    show b₁.env.scopes = b.env.scopes
    rw [henv]
    rfl
  have hback : At { b₃.closeScope with site := b₁.site }
      (ds ++ completed (b.module.freshSymbol target.name).1 names ds.length vs last :: new) f d := by
    refine ⟨?_, hnow.site, ?_, h.inside⟩
    · show b₃.closeScope.module.Drafted _
      rw [hmodule]
      exact hdrafted
    · rw [List.getElem?_append_left h.lt_length, h.here]
  obtain ⟨b₄, hb₄, hw⟩ := emitFuncAddr_spec hback ds.length (userSignature names.length) pos
  rw [hb₄] at haddr
  cases haddr
  have henv' : b'.env = { b₃.env with scopes := b.env.scopes } := by
    rw [hw.env_eq]
    show b₃.closeScope.env = ⟨b.env.scopes, b₃.env.funcs⟩
    rw [← hscopes', ← hfuncs]
  refine ⟨[addressCode f ds.length pos],
    completed (b.module.freshSymbol target.name).1 names ds.length vs last :: new, ?_, ?_, ?_, ?_⟩
  · rw [henv']
    refine .define f _ _ b.env b₃.env p pos target params body names
      (b.module.freshSymbol target.name).1 xs last vs new hnames ?_ hlast htype
    simpa [bodyEnv, henv] using hlow
  · have hat' := hw.now
    rwa [List.set_append_left _ _ h.lt_length] at hat'
  · rw [globals_eq hw.rest_eq]
    show _ <+: b₃.closeScope.module.globals
    rw [hmodule]
    refine List.IsPrefix.trans ?_ hglobals
    show _ <+: b₁.module.globals
    exact ⟨[], by rw [List.append_nil, globals_eq hrest, (Module.Drafted.funcs_freshSymbol _ _).2]⟩
  · rw [henv']

mutual

/-- Successful lowering has a derivation. -/
theorem expr_derived : ∀ e : Expr, Derived e
  | .int pos n => int_derived pos n
  | .name id => name_derived id
  | .string pos content => string_derived pos content
  | .assign p target value => by
    have hvalue := expr_derived value
    cases value with
    | function pos params body => exact define_derived (arguments_derived body) p target pos params
    | _ => exact assign_derived hvalue (by simp) p target
  | .call pos callee args => call_derived (arguments_derived args) pos callee
  | .function .. => by
    intro b ds f d x b' _ hb
    simp only [expr] at hb
    cases hb
  | .absent => by
    intro b ds f d x b' _ hb
    simp only [expr] at hb
    cases hb
  | .infixTail .. => by
    intro b ds f d x b' _ hb
    simp only [expr] at hb
    cases hb
  | .empty .. => by
    intro b ds f d x b' _ hb
    simp only [expr] at hb
    cases hb

theorem arguments_derived : ∀ es : List Expr, DerivedAll es
  | [] => by
    intro b ds f d xs b' h hb
    rw [arguments] at hb
    cases hb
    exact ⟨_, _, .nil f _ _ _, .refl h⟩
  | e :: es => by
    intro b ds f d xs b' h hb
    rw [arguments] at hb
    obtain ⟨x, b₁, hx, hb₁⟩ := bind_eq_ok_iff.1 hb
    obtain ⟨ys, b₂, hys, hb₂⟩ := bind_eq_ok_iff.1 hb₁
    cases hb₂
    obtain ⟨vs, new, hlow, hadded⟩ := expr_derived e h hx
    obtain ⟨ws, new', hlow', hadded'⟩ := arguments_derived es hadded.now hys
    refine ⟨_, _, ?_, hadded.trans h.lt_length hadded'⟩
    simp only [Draft.code_append, List.length_append, List.length_set] at hlow'
    exact .cons f _ _ _ _ _ e es x ys vs ws new new' hlow hlow'

end

/-! ## Whole programs -/

theorem topLevel_derived (i : Nat) (es : List Expr) (h : At b ds f d)
    (hb : topLevel i es b = .ok () b') :
    ∃ xs vs new, LowersAll f b.env d.code.length ds.length es xs b'.env vs new ∧
      Added b ds f d b' vs new := by
  induction es generalizing b ds d i with
  | nil =>
    cases hb
    exact ⟨_, _, _, .nil f _ _ _, .refl h⟩
  | cons e es ih =>
    rw [topLevel_cons] at hb
    obtain ⟨x, b₁, hx, hb₁⟩ := bind_eq_ok_iff.1 hb
    obtain ⟨vs, new, hlow, hadded⟩ := expr_derived e (h.with_events _) hx
    obtain ⟨xs, ws, new', hlow', hadded'⟩ := ih (i + 1) hadded.now hb₁
    have hadded'' : Added b ds f d b₁ vs new := ⟨hadded.now, hadded.globals, hadded.tail⟩
    refine ⟨(e.pos, x) :: xs, vs ++ ws, new ++ new', ?_, hadded''.trans h.lt_length hadded'⟩
    simp only [Draft.code_append, List.length_append, List.length_set] at hlow'
    exact .cons f _ _ _ _ _ e es x xs vs ws new new' hlow hlow'

/-- The entry function of a program whose expressions added the values `vs`. -/
def programDraft (vs : List Value) : Draft :=
  ((entryDraft.append vs).append [statusCode entryPlace]).ret ⟨entryPlace, vs.length⟩

/-- The drafts of a program. -/
def programDrafts (vs : List Value) (new : List Draft) : List Draft :=
  startDrafts.set entryPlace (programDraft vs) ++ new

/-- The environment before the first expression of a program. -/
def startEnv : Env where
  scopes := [{ title := "program" }]
  funcs := [{ name := Builtin.print, func := 2, sig := userSignature 1 },
    { name := Builtin.add, func := 1, sig := userSignature 2 },
    { name := Builtin.output, func := 0, sig := outputSignature, hidden := true }]

end Lowering

open Lowering in
/-- A program that is lowered without a failure has a derivation, which gives the functions of the
module. -/
theorem lower_derived {o : CompileOptions} {es : List Expr} (h : (lower o es).failure = none) :
    ∃ xs env vs new, LowersAll entryPlace startEnv 0 startDrafts.length es xs env vs new ∧
      (lower o es).module.Drafted (programDrafts vs new) ∧
      ((lower o es).module.globals[0]?).map (·.data) =
        some (Text.Utf8.ofString Builtin.printFormat) := by
  have hinv := (initial_inv o.effectiveName o.triple).now
  cases htop : topLevel 0 es (Builder.initial o.effectiveName o.triple) with
  | error e b =>
    simp only [lower, htop] at h
    cases h
  | ok u b =>
    obtain ⟨xs, vs, new, hlow, hadded⟩ := topLevel_derived 0 es hinv htop
    obtain ⟨hdrafted, hrest⟩ := finish_spec hadded.now
    have hmodule : (lower o es).module = b.finish.module := by
      simp only [lower, htop]
      generalize (if o.verify then b.finish.module.verify else []) = violations
      cases violations <;> exact (closeScope_eq _).1
    rw [initial_env] at hlow
    refine ⟨xs, b.env, vs, new, hlow, ?_, ?_⟩
    · rw [hmodule]
      exact hdrafted
    · rw [hmodule, globals_eq hrest]
      have hformat : (Builder.initial o.effectiveName o.triple).module.globals[0]? =
          some ⟨".str.0", Text.Utf8.ofString Builtin.printFormat⟩ := by
        rw [initial_globals]
        rfl
      rw [getElem?_later hadded.globals hformat]
      rfl

end Wordlang
