import Mathlib.Data.List.Forall2
import Wordlang.Proofs.Lowering.Frame

/-!
# The functions of a program

Lowering adds one function for each function literal whose body it begins, and no other function. A
literal is begun when it is entered in the table, so the one around it comes before the ones inside
it: the functions stand in the order in which their literals stand in the text.

`begun` follows the lowering and lists the literals that it begins.
-/

namespace Wordlang

open IR Outcome

/-- A function literal and the name that it is assigned to. -/
structure FunctionLiteral where
  /-- The name. -/
  name : String
  /-- The parameters. -/
  params : List Expr
  /-- The body. -/
  body : List Expr

namespace Expr

mutual

/-- The function literals in an expression that are assigned to names, in the order of the text. -/
def functionLiterals : Expr → List FunctionLiteral
  | .assign _ target (.function _ params body) =>
    ⟨target.name, params, body⟩ :: functionLiteralsAll body
  | .assign _ _ value => functionLiterals value
  | .call _ _ args => functionLiteralsAll args
  | .function _ _ body => functionLiteralsAll body
  | .infixTail _ _ rhs => functionLiterals rhs
  | _ => []

/-- The same for expressions that stand one after the other. -/
def functionLiteralsAll : List Expr → List FunctionLiteral
  | [] => []
  | e :: es => functionLiterals e ++ functionLiteralsAll es

end

end Expr

namespace IR

/-! ## Heads -/

/-- What of a function stays as it was declared. -/
structure Head where
  /-- The symbol. -/
  name : String
  /-- The parameter and result types. -/
  sig : Option Signature
  /-- The names of the parameters. -/
  paramNames : List String
  /-- Whether the body lives outside the module. -/
  external : Bool
  deriving DecidableEq, Repr

def Func.head (f : Func) : Head := ⟨f.name, f.sig, f.paramNames, f.external⟩

def Draft.head (d : Draft) : Head := ⟨d.name, some d.sig, d.paramNames, d.external⟩

/-- The function with this head is the one that the literal stands for. -/
structure Head.IsOf (h : Head) (l : FunctionLiteral) : Prop where
  name : h.name = l.name ∨ ∃ n, h.name = Module.suffixed l.name n
  sig : h.sig = some (Builder.userSignature l.params.length)
  params : ∃ ids : List Ident, l.params = ids.map .name ∧ h.paramNames = ids.map (·.name)
  inside : h.external = false

theorem Draft.head_func (place : Nat) (d : Draft) : (d.func place).head = d.head := by
  by_cases he : d.external = true
  · simp [Draft.func, Draft.head, Func.head, he]
  · simp [Draft.func, Draft.head, Func.head, he]

theorem Module.Drafted.map_head {m : Module} {ds : List Draft} (h : m.Drafted ds) :
    m.funcs.map Func.head = ds.map Draft.head := h.map_funcs (fun _ => rfl) Draft.head_func

/-- The drafts `ds'` have the heads of `ds`, and further ones that the literals `ls` stand for. -/
def Follows (ds ds' : List Draft) (ls : List FunctionLiteral) : Prop :=
  ∃ new, ds'.map Draft.head = ds.map Draft.head ++ new ∧ List.Forall₂ Head.IsOf new ls

namespace Follows

variable {ds ds' ds'' : List Draft} {ls ls' : List FunctionLiteral}

theorem refl (ds : List Draft) : Follows ds ds [] := ⟨[], by simp, .nil⟩

theorem trans (h : Follows ds ds' ls) (h' : Follows ds' ds'' ls') : Follows ds ds'' (ls ++ ls') := by
  obtain ⟨new, hnew, hls⟩ := h
  obtain ⟨new', hnew', hls'⟩ := h'
  refine ⟨new ++ new', ?_, List.rel_append hls hls'⟩
  rw [hnew', hnew, List.append_assoc]

/-- A draft may be replaced by one with the same head. -/
theorem set {f : Nat} {d d' : Draft} (hd : ds[f]? = some d) (h : d'.head = d.head) :
    Follows ds (ds.set f d') [] := by
  refine ⟨[], ?_, .nil⟩
  rw [List.append_nil, map_set_of_eq hd h]

theorem getElem? {f : Nat} {d : Draft} (h : Follows ds ds' ls) (hd : ds[f]? = some d) :
    ∃ d', ds'[f]? = some d' ∧ d'.head = d.head := by
  obtain ⟨new, hnew, -⟩ := h
  have hhead : (ds'.map Draft.head)[f]? = some d.head := by
    rw [hnew, List.getElem?_append_left, List.getElem?_map, hd]
    · rfl
    · rw [List.length_map]
      exact (List.getElem?_eq_some_iff.1 hd).1
  rw [List.getElem?_map] at hhead
  exact Option.map_eq_some_iff.1 hhead

end Follows

end IR

namespace Lowering

open Builder

variable {α β : Type}

/-! ## Literals that are begun -/

/-- What `g` lists from the state after a success, and nothing after a failure. -/
def afterwards (r : EStateM.Result LoweringError Builder α) (g : α → Builder → List β) : List β :=
  match r with
  | .ok a b => g a b
  | .error _ _ => []

mutual

/-- The function literals whose bodies are begun when an expression is lowered, in order. -/
def begun : Expr → Builder → List FunctionLiteral
  | .assign _ target (.function pos params body), b =>
    afterwards (declareFunc target pos params b) fun declared b =>
      ⟨target.name, params, body⟩ ::
        afterwards (spillParams 0 declared.2 (entered b target.name declared.1)) fun _ b =>
          begunIn body b
  | .assign _ _ value, b => begun value b
  | .call _ _ args, b => begunIn args b
  | _, _ => []

/-- The same for expressions that are lowered one after the other. -/
def begunIn : List Expr → Builder → List FunctionLiteral
  | [], _ => []
  | e :: es, b => begun e b ++ afterwards (expr e b) fun _ b => begunIn es b

end

/-- The same for the expressions of a program, the first of which has number `i`. -/
def begunAt (i : Nat) : List Expr → Builder → List FunctionLiteral
  | [], _ => []
  | e :: es, b =>
    let b := { b with events := b.events ++ [.expression i e.kind e.pos] }
    begun e b ++ afterwards (expr e b) fun _ b => begunAt (i + 1) es b

theorem begun_assign {value : Expr} (h : ∀ pos params body, value ≠ .function pos params body)
    (pos : Position) (target : Ident) (b : Builder) :
    begun (.assign pos target value) b = begun value b := by
  rw [begun]
  exact h

/-! ## The functions that are added -/

variable {b b' : Builder} {ds ds' : List Draft} {f : Nat} {d d' : Draft} {vs : List Value} {env : Env}
  {ls ls' : List FunctionLiteral}

/-- The outcome is a state in which the functions of the literals `ls` stand behind those of `ds`. It
still writes to the function `f`, unless it is a failure. -/
def Begins (ds : List Draft) (f : Nat) (ls : List FunctionLiteral)
    (r : EStateM.Result LoweringError Builder α) : Prop :=
  Ends r (fun _ b' => ∃ ds' d', At b' ds' f d' ∧ Follows ds ds' ls)
    fun b' => ∃ ds', b'.module.Drafted ds' ∧ Follows ds ds' ls

namespace Begins

theorem ok {r : EStateM.Result LoweringError Builder α} {a : α} (hr : r = .ok a b') (h : At b' ds' f d')
    (hls : Follows ds ds' ls) : Begins ds f ls r := by
  rw [hr]
  exact ⟨ds', d', h, hls⟩

theorem error {r : EStateM.Result LoweringError Builder α} {e : LoweringError} (hr : r = .error e b')
    (h : b'.module.Drafted ds') (hls : Follows ds ds' ls) : Begins ds f ls r := by
  rw [hr]
  exact ⟨ds', h, hls⟩

/-- Writing to the function at hand adds no function. -/
theorem follows_of_wrote (h : At b ds f d) (vs : List Value) : Follows ds (ds.set f (d.append vs)) [] :=
  .set h.here rfl

theorem of_wrote {r : EStateM.Result LoweringError Builder α} {a : α} (h : At b ds f d)
    (hr : r = .ok a b') {b₀ : Builder} (hw : Wrote b₀ ds f d vs env b') : Begins ds f [] r :=
  ok hr hw.now (follows_of_wrote h vs)

theorem of_wrote_error {r : EStateM.Result LoweringError Builder α} {e : LoweringError}
    (h : At b ds f d) (hr : r = .error e b') (hw : Wrote b ds f d vs env b') : Begins ds f [] r :=
  error hr hw.now.drafted (follows_of_wrote h vs)

/-- What is begun after further functions have been added. -/
theorem after {r : EStateM.Result LoweringError Builder α} (h : Follows ds ds' ls)
    (hr : Begins ds' f ls' r) : Begins ds f (ls ++ ls') r := by
  refine hr.imp ?_ ?_
  · rintro _ _ ⟨ds'', d'', hat, hls⟩
    exact ⟨ds'', d'', hat, h.trans hls⟩
  · rintro _ ⟨ds'', hdrafted, hls⟩
    exact ⟨ds'', hdrafted, h.trans hls⟩

/-- What follows a success adds its functions behind the others. -/
theorem bind {x : Lowering α} {k : α → Lowering β} {g : α → Builder → List FunctionLiteral}
    (hx : Begins ds f ls (x b))
    (hk : ∀ a b' ds' d', x b = .ok a b' → At b' ds' f d' → Begins ds' f (g a b') (k a b')) :
    Begins ds f (ls ++ afterwards (x b) g) ((x >>= k) b) := by
  cases hb : x b with
  | error e b' =>
    rw [hb] at hx
    obtain ⟨ds', hdrafted, hls⟩ := hx
    rw [afterwards, List.append_nil]
    exact error (bind_error hb) hdrafted hls
  | ok a b' =>
    rw [hb] at hx
    obtain ⟨ds', d', hat, hls⟩ := hx
    rw [bind_ok hb]
    exact .after hls (hk a b' ds' d' hb hat)

/-- What follows may add no function. -/
theorem bind_nil {x : Lowering α} {k : α → Lowering β} (hx : Begins ds f ls (x b))
    (hk : ∀ a b' ds' d', x b = .ok a b' → At b' ds' f d' → Begins ds' f [] (k a b')) :
    Begins ds f ls ((x >>= k) b) := by
  have h := hx.bind (g := fun _ _ => []) hk
  have hnil : afterwards (x b) (fun _ _ => ([] : List FunctionLiteral)) = [] := by
    cases x b <;> rfl
  rwa [hnil, List.append_nil] at h

/-- When a function is left, new values go to the function around it again. -/
theorem inScope {title : String} {site : BlockRef} {n : Nat} {x : Lowering α} (h : At b ds f d)
    (hx : Begins ds n ls (x { b with env := b.env.openScope title, site })) :
    Begins ds f ls (inScope title site x b) := by
  cases hb : x { b with env := b.env.openScope title, site } with
  | error e b' =>
    rw [hb] at hx
    obtain ⟨ds', hdrafted, hls⟩ := hx
    refine error (inScope_error hb) ?_ hls
    show b'.closeScope.module.Drafted ds'
    rw [(closeScope_eq b').1]
    exact hdrafted
  | ok a b' =>
    rw [hb] at hx
    obtain ⟨ds', d', hat, hls⟩ := hx
    obtain ⟨d'', hd'', hhead⟩ := hls.getElem? h.here
    have hinside : d''.external = d.external := congrArg Head.external hhead
    refine ok (inScope_ok hb) ⟨?_, h.site, hd'', hinside.trans h.inside⟩ hls
    show b'.closeScope.module.Drafted ds'
    rw [(closeScope_eq b').1]
    exact hat.drafted

end Begins

theorem emitFuncAddr_begins (h : At b ds f d) (g : Nat) (sig : Signature) (pos : Position) :
    Begins ds f [] (emitFuncAddr g sig pos b) := by
  obtain ⟨b', hb, hw⟩ := emitFuncAddr_spec h g sig pos
  exact .of_wrote h hb hw

theorem nameValue_begins (h : At b ds f d) (id : Ident) : Begins ds f [] (nameValue id b) := by
  rcases nameValue_spec h id with ⟨v, -, hb⟩ | ⟨c, b', -, -, hb, hw⟩ | ⟨e, hb⟩
  · exact .of_wrote h hb (.refl h)
  · exact .of_wrote h hb hw
  · exact .of_wrote_error h hb (.refl h)

theorem assignValue_begins (h : At b ds f d) (pos : Position) (name : String) (x : Operand) :
    Begins ds f [] (assignValue pos name x b) := by
  rcases assignValue_spec h pos name x with ⟨slot, vs, b', hb, -, -, hw⟩ | ⟨e, b', hb, hw⟩
  · exact .of_wrote h hb hw
  · exact .of_wrote_error h hb hw

theorem callNamed_begins (h : At b ds f d) (pos : Position) (name : String)
    (xs : List (Position × Operand)) : Begins ds f [] (callNamed pos name xs b) := by
  rcases callNamed_spec h pos name xs with ⟨t, sig, k, b', hb, -, -, -, -, hw⟩ | ⟨e, ys, b', hb, -, hw⟩
  · exact .of_wrote h hb hw
  · exact .of_wrote_error h hb hw

theorem returnTail_begins (h : At b ds f d) (name : String) (pos : Position)
    (tail : Option (Position × Operand)) : Begins ds f [] (returnTail name pos tail b) := by
  rcases returnTail_spec h name pos tail with
    ⟨last, x, b', -, hb, -, hnow, -, -⟩ | ⟨e, vs, b', hb, -, hw⟩
  · exact .ok hb hnow (.set h.here rfl)
  · exact .of_wrote_error h hb hw

/-! ## Function literals -/

/-- The header of a declared function is that of its literal. -/
theorem header_isOf {params : List Expr} {names : List Ident} (h : paramNames 0 params = .ok names)
    (m : Module) (name : String) (body : List Expr) :
    (header (m.freshSymbol name).1 names).head.IsOf ⟨name, params, body⟩ := by
  have hparams := params_eq_of_paramNames h
  refine ⟨m.freshSymbol_cases name, ?_, ⟨names, hparams, rfl⟩, rfl⟩
  rw [hparams, List.length_map]
  rfl

/-- Lowering the expression adds the functions of the literals that are begun. -/
def ExprBegins (e : Expr) : Prop :=
  ∀ ⦃b ds f d⦄, At b ds f d → Begins ds f (begun e b) (expr e b)

/-- Lowering the expressions of a body adds the functions of the literals that are begun. -/
def SequenceBegins (es : List Expr) : Prop :=
  ∀ ⦃b ds f d⦄, At b ds f d → Begins ds f (begunIn es b) (sequence es b)

/-- Lowering the arguments of a call adds the functions of the literals that are begun. -/
def ArgumentsBegin (es : List Expr) : Prop :=
  ∀ ⦃b ds f d⦄, At b ds f d → Begins ds f (begunIn es b) (arguments es b)

theorem body_begins {body : List Expr} (hbody : SequenceBegins body) (h : At b ds f d)
    (name : String) (pos : Position) (names : List Ident) :
    Begins ds f (afterwards (spillParams 0 names b) fun _ b => begunIn body b)
      (funcBody name pos names body b) := by
  obtain ⟨b₁, hb₁, hw⟩ := spillParams_spec h 0 names
  rw [hb₁, funcBody, bind_ok hb₁]
  refine .after (Begins.follows_of_wrote h _) ((hbody hw.now).bind_nil ?_)
  intro t b₂ ds₂ d₂ _ h₂
  exact returnTail_begins h₂ name pos t

theorem function_begins {body : List Expr} (hbody : SequenceBegins body) (p : Position)
    (target : Ident) (pos : Position) (params : List Expr) :
    ExprBegins (.assign p target (.function pos params body)) := by
  intro b ds f d h
  rw [begun]
  rcases declareFunc_spec h target pos params with
    ⟨names, b₁, hb₁, hparams, -, hnow, -, -⟩ | ⟨e, hb₁⟩
  swap
  · rw [expr, bind_error hb₁, hb₁]
    exact .error rfl h.drafted (.refl ds)
  rw [expr_define hb₁, hb₁]
  let new := header (b.module.freshSymbol target.name).1 names
  -- the function is there before its body is lowered, hence before those inside it
  have hdeclared : Follows ds (ds ++ [new]) [⟨target.name, params, body⟩] :=
    ⟨[new.head], by simp, .cons (header_isOf hparams b.module target.name body) .nil⟩
  have hentered : At (entered b₁ target.name ds.length) (ds ++ [new]) ds.length new :=
    ⟨hnow.drafted, rfl, by simp, rfl⟩
  have hscope := Begins.inScope hnow (body_begins hbody hentered target.name pos names)
  refine .after hdeclared (hscope.bind_nil ?_)
  intro _ b₂ ds₂ d₂ _ h₂
  exact emitFuncAddr_begins h₂ ds.length (userSignature names.length) pos

theorem fail_begins {e : Expr} (h : ∀ b, ∃ err, expr e b = .error err b)
    (hnone : ∀ b, begun e b = []) : ExprBegins e := by
  intro b ds f d hat
  obtain ⟨err, hb⟩ := h b
  rw [hnone]
  exact .error hb hat.drafted (.refl ds)

mutual

theorem expr_begins : ∀ e : Expr, ExprBegins e
  | .int pos n => by
    intro b ds f d h
    rw [expr, begun]
    · obtain ⟨b', hb, hw⟩ := emit_spec h { op := .const32, type := .i32, number := n.toInt, pos } []
      rw [emitConst, bind_ok hb]
      exact .of_wrote h rfl hw
    all_goals simp
  | .name id => by
    intro b ds f d h
    rw [expr, begun]
    · exact nameValue_begins h id
    all_goals simp
  | .string pos content => by
    intro b ds f d h
    rw [expr, begun]
    · obtain ⟨data, g, b', hb, hw⟩ := stringLiteral_spec h pos content
      exact .of_wrote h hb hw
    all_goals simp
  | .assign p target value => by
    have hvalue := expr_begins value
    cases value with
    | function pos params body => exact function_begins (sequence_begins body) p target pos params
    | _ =>
      intro b ds f d h
      rw [expr_assign (by simp), begun_assign (by simp)]
      exact (hvalue h).bind_nil fun x b' ds' d' _ h' => assignValue_begins h' p target.name x
  | .call pos callee args => by
    intro b ds f d h
    rw [expr, begun]
    exact (arguments_begin args h).bind_nil fun xs b' ds' d' _ h' =>
      callNamed_begins h' pos callee.name xs
  | .function pos params body =>
    fail_begins (fun _ => ⟨_, by simp only [expr]; rfl⟩) (by simp [begun])
  | .absent => fail_begins (fun _ => ⟨_, by simp only [expr]; rfl⟩) (by simp [begun])
  | .infixTail .. => fail_begins (fun _ => ⟨_, by simp only [expr]; rfl⟩) (by simp [begun])
  | .empty .. => fail_begins (fun _ => ⟨_, by simp only [expr]; rfl⟩) (by simp [begun])

theorem arguments_begin : ∀ es : List Expr, ArgumentsBegin es
  | [] => by
    intro b ds f d h
    rw [arguments, begunIn]
    exact .ok rfl h (.refl ds)
  | e :: es => by
    intro b ds f d h
    rw [arguments, begunIn]
    refine (expr_begins e h).bind fun x b₁ ds₁ d₁ _ h₁ => ?_
    exact (arguments_begin es h₁).bind_nil fun xs b₂ ds₂ d₂ _ h₂ => .ok rfl h₂ (.refl ds₂)

theorem sequence_begins : ∀ es : List Expr, SequenceBegins es
  | [] => by
    intro b ds f d h
    rw [sequence, begunIn]
    exact .ok rfl h (.refl ds)
  | e :: es => by
    intro b ds f d h
    rw [sequence, begunIn]
    refine (expr_begins e h).bind fun x b₁ ds₁ d₁ _ h₁ => ?_
    refine (sequence_begins es h₁).bind_nil fun t b₂ ds₂ d₂ _ h₂ => ?_
    cases t with
    | some last => exact .ok rfl h₂ (.refl ds₂)
    | none => exact .ok rfl h₂ (.refl ds₂)

end

theorem topLevel_begins (i : Nat) (es : List Expr) (h : At b ds f d) :
    Begins ds f (begunAt i es b) (topLevel i es b) := by
  induction es generalizing b ds d i with
  | nil => exact .ok rfl h (.refl ds)
  | cons e es ih =>
    rw [topLevel_cons, begunAt]
    exact (expr_begins e (h.with_events _)).bind fun x b₁ ds₁ d₁ _ h₁ => ih (i + 1) h₁

/-! ## The order of the text -/

theorem functionLiterals_assign {value : Expr}
    (h : ∀ pos params body, value ≠ .function pos params body) (pos : Position) (target : Ident) :
    (Expr.assign pos target value).functionLiterals = value.functionLiterals := by
  rw [Expr.functionLiterals]
  exact h

mutual

/-- Nothing is left out when an expression is lowered. -/
theorem begun_of_expr : ∀ (e : Expr) {b b' : Builder} {x : Operand}, expr e b = .ok x b' →
    begun e b = e.functionLiterals
  | .assign p target value, b, b', x, h => by
    cases value with
    | function pos params body =>
      rw [expr] at h
      obtain ⟨⟨n, names⟩, b₁, hb₁, h⟩ := bind_eq_ok_iff.1 h
      obtain ⟨_, b₂, hb₂, h⟩ := bind_eq_ok_iff.1 h
      obtain ⟨b₃, hb₃, -⟩ := inScope_eq_ok hb₂
      obtain ⟨_, b₄, hb₄, hb₃⟩ := bind_eq_ok_iff.1 hb₃
      obtain ⟨t, b₅, hb₅, hb₃⟩ := bind_eq_ok_iff.1 hb₃
      have hbody := begunIn_of_sequence body hb₅
      rw [begun, hb₁, afterwards, entered, hb₄, afterwards, hbody, Expr.functionLiterals]
    | _ =>
      rw [expr_assign (by simp)] at h
      obtain ⟨y, b₁, hb₁, -⟩ := bind_eq_ok_iff.1 h
      rw [begun_assign (by simp), functionLiterals_assign (by simp)]
      exact begun_of_expr _ hb₁
  | .call pos callee args, b, b', x, h => by
    rw [expr] at h
    obtain ⟨xs, b₁, hb₁, h⟩ := bind_eq_ok_iff.1 h
    rw [begun, Expr.functionLiterals, begunIn_of_arguments args hb₁]
  | .int .., b, b', x, h => by simp [begun, Expr.functionLiterals]
  | .name _, b, b', x, h => by simp [begun, Expr.functionLiterals]
  | .string .., b, b', x, h => by simp [begun, Expr.functionLiterals]
  | .function .., b, b', x, h => by
    rw [expr] at h
    cases h
  | .absent, b, b', x, h => by simp [begun, Expr.functionLiterals]
  | .infixTail .., b, b', x, h => by
    simp only [expr] at h
    cases h
  | .empty _, b, b', x, h => by simp [begun, Expr.functionLiterals]

theorem begunIn_of_arguments : ∀ (es : List Expr) {b b' : Builder} {xs : List (Position × Operand)},
    arguments es b = .ok xs b' → begunIn es b = Expr.functionLiteralsAll es
  | [], b, b', xs, h => by rw [begunIn, Expr.functionLiteralsAll]
  | e :: es, b, b', xs, h => by
    rw [arguments] at h
    obtain ⟨x, b₁, hb₁, h⟩ := bind_eq_ok_iff.1 h
    obtain ⟨ys, b₂, hb₂, h⟩ := bind_eq_ok_iff.1 h
    rw [begunIn, Expr.functionLiteralsAll, begun_of_expr e hb₁, hb₁, afterwards,
      begunIn_of_arguments es hb₂]

theorem begunIn_of_sequence : ∀ (es : List Expr) {b b' : Builder} {t : Option (Position × Operand)},
    sequence es b = .ok t b' → begunIn es b = Expr.functionLiteralsAll es
  | [], b, b', t, h => by rw [begunIn, Expr.functionLiteralsAll]
  | e :: es, b, b', t, h => by
    obtain ⟨x, b₁, t', hb₁, hb₂, -⟩ := sequence_cons_ok h
    rw [begunIn, Expr.functionLiteralsAll, begun_of_expr e hb₁, hb₁, afterwards,
      begunIn_of_sequence es hb₂]

end

/-- What is begun in one expression and, if it does not fail, in those behind it. -/
theorem append_afterwards_le {r : EStateM.Result LoweringError Builder α}
    {g : Builder → List FunctionLiteral} {all all' : List FunctionLiteral} (h : ls <+: all)
    (hall : ∀ {a b'}, r = .ok a b' → ls = all) (hg : ∀ b', g b' <+: all') :
    ls ++ afterwards r (fun _ b' => g b') <+: all ++ all' := by
  cases r with
  | error e b' =>
    rw [afterwards, List.append_nil]
    exact h.trans (List.prefix_append _ _)
  | ok a b' =>
    rw [afterwards, hall rfl, List.prefix_append_right_inj]
    exact hg b'

mutual

/-- A failure leaves out what stands behind it in the text. -/
theorem begun_le : ∀ (e : Expr) (b : Builder), begun e b <+: e.functionLiterals
  | .assign p target value, b => by
    cases value with
    | function pos params body =>
      rw [begun, Expr.functionLiterals]
      cases hb₁ : declareFunc target pos params b with
      | error e b₁ => exact List.nil_prefix
      | ok declared b₁ =>
        rw [afterwards, List.prefix_cons_inj]
        cases hb₂ : spillParams 0 declared.2 (entered b₁ target.name declared.1) with
        | error e b₂ => exact List.nil_prefix
        | ok u b₂ => exact begunIn_le body b₂
    | _ =>
      rw [begun_assign (by simp), functionLiterals_assign (by simp)]
      exact begun_le _ b
  | .call pos callee args, b => by
    rw [begun, Expr.functionLiterals]
    exact begunIn_le args b
  | .int .., b => by simp [begun]
  | .name _, b => by simp [begun]
  | .string .., b => by simp [begun]
  | .function .., b => by simp [begun]
  | .absent, b => by simp [begun]
  | .infixTail .., b => by simp [begun]
  | .empty _, b => by simp [begun]

theorem begunIn_le : ∀ (es : List Expr) (b : Builder), begunIn es b <+: Expr.functionLiteralsAll es
  | [], b => by
    rw [begunIn]
    exact List.nil_prefix
  | e :: es, b => by
    rw [begunIn, Expr.functionLiteralsAll]
    exact append_afterwards_le (begun_le e b) (begun_of_expr e) fun b' => begunIn_le es b'

end

theorem begunAt_le (i : Nat) (es : List Expr) (b : Builder) :
    begunAt i es b <+: Expr.functionLiteralsAll es := by
  induction es generalizing i b with
  | nil => exact List.nil_prefix
  | cons e es ih =>
    rw [begunAt, Expr.functionLiteralsAll]
    exact append_afterwards_le (begun_le e _) (begun_of_expr e) fun b' => ih (i + 1) b'

theorem begunAt_of_topLevel (i : Nat) (es : List Expr) (h : topLevel i es b = .ok () b') :
    begunAt i es b = Expr.functionLiteralsAll es := by
  induction es generalizing i b with
  | nil => rfl
  | cons e es ih =>
    rw [topLevel_cons] at h
    obtain ⟨x, b₁, hb₁, h⟩ := bind_eq_ok_iff.1 h
    rw [begunAt, Expr.functionLiteralsAll, begun_of_expr e hb₁, hb₁, afterwards, ih (i + 1) h]

end Lowering

end Wordlang
