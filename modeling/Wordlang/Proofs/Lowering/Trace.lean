import Wordlang.Proofs.Lowering.Builtins
import Wordlang.Proofs.Lowering.Names
import Wordlang.Proofs.Lowering.Report

/-!
# What lowering reports

Lowering reports what it does: the expressions that the turn comes to, and in each of them the
definitions, nested like brackets, also when it fails. `performed` follows the lowering and tells
what is done, and `pending` tells in the bodies of which functions it fails.
-/

namespace Wordlang

open IR Outcome

namespace Lowering

open Builder

/-! ## What is done -/

mutual

/-- The steps of lowering an expression. An assignment is one of them if it succeeds. -/
def performed : Expr → Builder → List BodyStep
  | .assign _ target (.function pos params body), b =>
    afterwards (declareFunc target pos params b) fun (f, names) b =>
      [.defined target.name (names.map (·.name)) pos
        (afterwards (spillParams 0 names (entered b target.name f)) fun _ b => performedIn body b)]
  | .assign pos target value, b =>
    performed value b ++
      afterwards (expr (.assign pos target value) b) fun _ _ => [.assigned target.name]
  | .call _ _ args, b => performedIn args b
  | _, _ => []

/-- The same for expressions that are lowered one after the other. -/
def performedIn : List Expr → Builder → List BodyStep
  | [], _ => []
  | e :: es, b => performed e b ++ afterwards (expr e b) fun _ b => performedIn es b

end

mutual

/-- The names of the functions in whose bodies the lowering of an expression fails, outermost first;
none if it succeeds. -/
def pending : Expr → Builder → List String
  | .assign pos' target (.function pos params body), b =>
    match expr (.assign pos' target (.function pos params body)) b with
    | .ok _ _ => []
    | .error _ _ =>
      afterwards (declareFunc target pos params b) fun (f, names) b =>
        target.name :: afterwards (spillParams 0 names (entered b target.name f)) fun _ b =>
          pendingIn body b
  | .assign _ _ value, b => pending value b
  | .call _ _ args, b => pendingIn args b
  | _, _ => []

/-- The same for expressions that are lowered one after the other. -/
def pendingIn : List Expr → Builder → List String
  | [], _ => []
  | e :: es, b => pending e b ++ afterwards (expr e b) fun _ b => pendingIn es b

end

theorem performed_assign {value : Expr} (h : ∀ pos params body, value ≠ .function pos params body)
    (pos : Position) (target : Ident) (b : Builder) :
    performed (.assign pos target value) b = performed value b ++
      afterwards (expr (.assign pos target value) b) fun _ _ => [.assigned target.name] := by
  rw [performed]
  exact h

theorem pending_assign {value : Expr} (h : ∀ pos params body, value ≠ .function pos params body)
    (pos : Position) (target : Ident) (b : Builder) :
    pending (.assign pos target value) b = pending value b := by
  rw [pending]
  exact h

/-! ## Reports -/

/-- The innermost open scope has the title and the variables `names`, and the others are `outer`. -/
def Inside (title : String) (names : List String) (outer : List Scope) (b : Builder) : Prop :=
  ∃ s, b.env.scopes = s :: outer ∧ s.title = title ∧ (s.vars.map (·.name)).Nodup ∧
    ∀ x, x ∈ s.vars.map (·.name) ↔ x ∈ names

/-- From the state `b` to the state `b'`, both of them in a body, the variables `added` are bound and
the events `evs` are reported, among them the functions that are added. -/
structure Adds (title : String) (names : List String) (outer : List Scope) (b : Builder)
    (added : List String) (evs : List Event) (b' : Builder) : Prop where
  events : b'.events = b.events ++ evs
  inside : Inside title (names ++ added) outer b'
  symbols : b'.module.funcSymbols = b.module.funcSymbols ++ evs.filterMap Event.symbol?

/-- The steps are done and reported from the state `b` to the state `b'`. -/
structure Told (title : String) (names : List String) (outer : List Scope) (b : Builder)
    (steps : List BodyStep) (evs : List Event) (b' : Builder) : Prop
    extends Adds title names outer b (BodyStep.targets steps) evs b' where
  reported : IsReport steps evs

/-- In a body, the steps are reported. If there is a failure, the report ends with the ends of the
scopes of the functions named `stack`. -/
def Tells {α : Type} (title : String) (names : List String) (outer : List Scope) (b : Builder)
    (steps : List BodyStep) (stack : List String) (r : EStateM.Result LoweringError Builder α) :
    Prop :=
  Ends r (fun _ b' => stack = [] ∧ ∃ evs, Told title names outer b steps evs b')
    fun b' => ∃ evs, Told title names outer b steps evs b' ∧ Closes evs stack

variable {α β : Type} {title : String} {names : List String} {outer : List Scope}
  {b b' : Builder} {steps steps' : List BodyStep} {evs evs' : List Event} {stack : List String}

theorem Inside.bound {v : Binding} (h : Inside title names outer b)
    (henv : b'.env = Lowering.bound b.env v) : Inside title (names ++ [v.name]) outer b' := by
  obtain ⟨s, hs, htitle, hnodup, hmem⟩ := h
  have hscopes : b'.env.scopes = s.insert v :: outer := by
    rw [henv, Lowering.bound, Env.defineVar?, hs]
    rfl
  have hothers : (s.vars.filter (·.name ≠ v.name)).map (·.name) =
      (s.vars.map (·.name)).filter (· ≠ v.name) := by
    rw [List.filter_map]
    rfl
  have hnames : (s.insert v).vars.map (·.name) =
      v.name :: (s.vars.map (·.name)).filter (· ≠ v.name) := by
    rw [← hothers]
    rfl
  refine ⟨s.insert v, hscopes, htitle, ?_, fun x => ?_⟩
  · rw [hnames, List.nodup_cons]
    exact ⟨by simp, hnodup.filter _⟩
  · rw [hnames, List.mem_cons, List.mem_filter, hmem, List.mem_append, List.mem_singleton]
    by_cases hx : x = v.name
    · simp [hx]
    · simp [hx]

theorem Inside.congr (h : Inside title names outer b) (hscopes : b'.env.scopes = b.env.scopes) :
    Inside title names outer b' := by
  obtain ⟨s, hs, hrest⟩ := h
  exact ⟨s, hscopes.trans hs, hrest⟩

theorem Adds.trans {added added' : List String} {b'' : Builder}
    (h : Adds title names outer b added evs b')
    (h' : Adds title (names ++ added) outer b' added' evs' b'') :
    Adds title names outer b (added ++ added') (evs ++ evs') b'' := by
  refine ⟨?_, ?_, ?_⟩
  · rw [h'.events, h.events, List.append_assoc]
  · rw [← List.append_assoc]
    exact h'.inside
  · rw [h'.symbols, h.symbols, List.filterMap_append, List.append_assoc]

theorem Told.refl (h : Inside title names outer b) : Told title names outer b [] [] b :=
  ⟨⟨by simp, by simpa using h, by simp⟩, .nil⟩

theorem Told.trans {b'' : Builder} (h : Told title names outer b steps evs b')
    (h' : Told title (names ++ BodyStep.targets steps) outer b' steps' evs' b'') :
    Told title names outer b (steps ++ steps') (evs ++ evs') b'' := by
  refine ⟨?_, h.reported.append h'.reported⟩
  rw [BodyStep.targets_append]
  exact h.toAdds.trans h'.toAdds

/-- What only builds has nothing to report. -/
theorem Told.then (h : Told title names outer b steps evs b') {b'' : Builder}
    (h' : Unmoved b' b'') : Told title names outer b steps evs b'' :=
  ⟨⟨h'.events.trans h.events, h.inside.congr (congrArg (·.scopes) h'.env),
    h'.symbols.trans h.symbols⟩, h.reported⟩

theorem Quiet.tells {x : Lowering α} (hx : Quiet x) (h : Inside title names outer b) :
    Tells title names outer b [] [] (x b) :=
  (hx b).imp (fun _ _ hb' => ⟨rfl, [], (Told.refl h).then hb'⟩)
    fun _ hb' => ⟨[], (Told.refl h).then hb', .none []⟩

/-- What follows a success reports its steps afterwards. -/
theorem Tells.bind {x : Lowering α} {k : α → Lowering β} {g : α → Builder → List BodyStep}
    {m : α → Builder → List String} (hx : Tells title names outer b steps stack (x b))
    (hk : ∀ a b', x b = .ok a b' → Inside title (names ++ BodyStep.targets steps) outer b' →
      Tells title (names ++ BodyStep.targets steps) outer b' (g a b') (m a b') (k a b')) :
    Tells title names outer b (steps ++ afterwards (x b) g) (stack ++ afterwards (x b) m)
      ((x >>= k) b) := by
  cases hb : x b with
  | error e b' =>
    rw [hb] at hx
    rw [bind_error hb, afterwards, afterwards, List.append_nil, List.append_nil]
    exact hx
  | ok a b' =>
    rw [hb] at hx
    obtain ⟨rfl, evs, htold⟩ := hx
    rw [bind_ok hb]
    refine (hk a b' hb htold.inside).imp ?_ ?_
    · rintro c b'' ⟨hnone, evs', htold'⟩
      exact ⟨hnone, evs ++ evs', htold.trans htold'⟩
    · rintro b'' ⟨evs', htold', hcloses⟩
      exact ⟨evs ++ evs', htold.trans htold', hcloses.prepend evs⟩

/-- What follows may have nothing to report. -/
theorem Tells.bind_quiet {x : Lowering α} {k : α → Lowering β}
    (hx : Tells title names outer b steps stack (x b)) (hk : ∀ a, Quiet (k a)) :
    Tells title names outer b steps stack ((x >>= k) b) := by
  have hend := hx.bind (k := k) (g := fun _ _ => []) (m := fun _ _ => [])
    fun a b' _ hinside => (hk a).tells hinside
  have hnone : ∀ γ : Type, afterwards (x b) (fun _ _ => ([] : List γ)) = [] := by
    intro γ
    cases x b <;> rfl
  rwa [hnone, hnone, List.append_nil, List.append_nil] at hend

/-! ### Functions -/

/-- The report of a definition that is entered in the tables. -/
theorem declareFunc_reports {target : Ident} {pos : Position} {params : List Expr} {f : Nat}
    {ids : List Ident} (h : declareFunc target pos params b = .ok (f, ids) b') : ∃ symbol,
    b'.events = b.events ++ [.function target.name symbol (ids.map (·.name)) pos] ∧
    b'.module.funcSymbols = b.module.funcSymbols ++ [symbol] ∧
    paramNames 0 params = .ok ids := by
  have hget : (get : Lowering Builder) b = .ok b b := rfl
  rw [declareFunc, bind_ok hget] at h
  cases hv : b.env.findVarAnywhere? target.name with
  | some v =>
    rw [hv] at h
    cases h
  | none =>
    rw [hv] at h
    cases hp : paramNames 0 params with
    | error e =>
      rw [hp] at h
      cases h
    | ok ids' =>
      rw [hp] at h
      obtain ⟨hplace, g, hadded, -, -⟩ := Module.funcs_addFunc b.module target.name
        (userSignature ids'.length) (ids'.map (·.name))
      have hsymbol : ((b.module.addFunc target.name (userSignature ids'.length)
          (ids'.map (·.name))).2.funcs[(b.module.addFunc target.name (userSignature ids'.length)
          (ids'.map (·.name))).1]?.map (·.name)).getD target.name = g.name := by
        rw [hplace, hadded, List.getElem?_append_right (Nat.le_refl _), Nat.sub_self]
        rfl
      cases h
      refine ⟨g.name, ?_, ?_, rfl⟩
      · rw [← hsymbol]
        rfl
      · show Module.funcSymbols (b.module.addFunc _ _ _).2 = _
        rw [Module.funcSymbols, hadded, List.map_append]
        rfl

/-- The parameters become variables, and nothing is reported. -/
theorem spillParams_inside (i : Nat) (ids : List Ident) (h : Inside title names outer b) :
    ∃ b', spillParams i ids b = .ok () b' ∧ b'.events = b.events ∧
      b'.module.funcSymbols = b.module.funcSymbols ∧
      Inside title (names ++ ids.map (·.name)) outer b' := by
  induction ids generalizing b i names with
  | nil => exact ⟨b, rfl, rfl, rfl, by simpa using h⟩
  | cons id ids ih =>
    obtain ⟨slot, b₁, hb₁⟩ : ∃ slot b₁, keepParam i id b = .ok slot b₁ := ⟨_, _, rfl⟩
    have hkept : Unmoved b b₁ := (keepParam_quiet i id b).of_ok hb₁
    let v : Binding := { name := id.name, slot, elem := .i32 }
    have hbound : Inside title (names ++ [v.name]) outer { b₁ with env := bound b₁.env v } :=
      h.bound (by rw [hkept.env])
    obtain ⟨b', hb', hevents, hsymbols, hinside⟩ := ih (i + 1) hbound
    refine ⟨b', ?_, hevents.trans hkept.events, hsymbols.trans hkept.symbols, ?_⟩
    · rw [spillParams_cons, bind_ok hb₁]
      exact hb'
    · rwa [List.append_assoc] at hinside

/-- When a scope is closed, its variables are listed. -/
theorem closeScope_reports (h : Inside title names outer b) : ∃ vars, Lists vars names ∧
    b.closeScope.events = b.events ++ [.scopeClosed title vars] ∧
    b.closeScope.env.scopes = outer := by
  obtain ⟨s, hs, rfl, hnodup, hmem⟩ := h
  refine ⟨s.names, lists_names hnodup hmem, ?_, ?_⟩
  · simp [Builder.closeScope, hs]
  · rw [(closeScope_eq b).2.2, hs]
    rfl

/-- Lowering the expression reports its steps. -/
def ExprTells (e : Expr) : Prop :=
  ∀ ⦃title names outer b⦄, Inside title names outer b →
    Tells title names outer b (performed e b) (pending e b) (expr e b)

/-- Lowering the expressions of a body reports their steps. -/
def SequenceTells (es : List Expr) : Prop :=
  ∀ ⦃title names outer b⦄, Inside title names outer b →
    Tells title names outer b (performedIn es b) (pendingIn es b) (sequence es b)

/-- Lowering the arguments of a call reports their steps. -/
def ArgumentsTell (es : List Expr) : Prop :=
  ∀ ⦃title names outer b⦄, Inside title names outer b →
    Tells title names outer b (performedIn es b) (pendingIn es b) (arguments es b)

/-- The steps of a body are reported, whether or not it can be completed. -/
theorem body_tells {body : List Expr} (hbody : SequenceTells body) (h : Inside title names outer b)
    (name : String) (pos : Position) (ids : List Ident) :
    Tells title (names ++ ids.map (·.name)) outer b
      (afterwards (spillParams 0 ids b) fun _ b => performedIn body b)
      (afterwards (spillParams 0 ids b) fun _ b => pendingIn body b)
      (funcBody name pos ids body b) := by
  obtain ⟨b₁, hb₁, hevents, hsymbols, hinside⟩ := spillParams_inside 0 ids h
  rw [funcBody, bind_ok hb₁, hb₁, afterwards, afterwards]
  have hend := (hbody hinside).bind_quiet fun t => Quiet.returnTail name pos t
  -- the parameters are bound without a report
  have hbefore : ∀ {steps evs b'}, Told title (names ++ ids.map (·.name)) outer b₁ steps evs b' →
      Told title (names ++ ids.map (·.name)) outer b steps evs b' := by
    intro steps evs b' htold
    exact ⟨⟨by rw [htold.events, hevents], htold.inside, by rw [htold.symbols, hsymbols]⟩,
      htold.reported⟩
  refine hend.imp ?_ ?_
  · rintro _ b' ⟨hnone, evs, htold⟩
    exact ⟨hnone, evs, hbefore htold⟩
  · rintro b' ⟨evs, htold, hcloses⟩
    exact ⟨evs, hbefore htold, hcloses⟩

/-- When the body of a function is left, the report of its definition is complete, and the scope
around it is as it was. -/
theorem Told.leave {b₁ b₂ : Builder} {name symbol : String} {params : List String} {pos : Position}
    {inside : List BodyStep} {inner : List Event} {f : Nat} (h : Inside title names outer b)
    (hevents : b₁.events = b.events ++ [.function name symbol params pos])
    (hsymbols : b₁.module.funcSymbols = b.module.funcSymbols ++ [symbol])
    (htold : Told ("function " ++ name) params b.env.scopes (entered b₁ name f) inside inner b₂)
    (site : BlockRef) : ∃ vars, Told title names outer b [.defined name params pos inside]
      (.function name symbol params pos :: inner ++ [.scopeClosed ("function " ++ name) vars])
      { b₂.closeScope with site } := by
  obtain ⟨vars, hvars, hclosed, houter⟩ := closeScope_reports htold.inside
  refine ⟨vars, ⟨?_, ?_, ?_⟩, ?_⟩
  · show b₂.closeScope.events = _
    rw [hclosed, htold.events]
    show b₁.events ++ inner ++ _ = _
    rw [hevents]
    simp
  · rw [BodyStep.targets, List.filterMap_cons, BodyStep.target?, List.filterMap_nil, List.append_nil]
    exact h.congr houter
  · show b₂.closeScope.module.funcSymbols = _
    rw [(closeScope_eq b₂).1, htold.symbols]
    show b₁.module.funcSymbols ++ _ = _
    rw [hsymbols]
    simp only [List.filterMap_append, List.filterMap_cons, List.filterMap_nil, Event.symbol?,
      List.append_nil, List.append_assoc, List.cons_append, List.nil_append]
  · have hone := IsReport.defined name symbol params pos inside [] inner [] vars htold.reported hvars
      .nil
    rwa [List.append_nil] at hone

theorem function_tells {body : List Expr} (hbody : SequenceTells body) (p : Position)
    (target : Ident) (pos : Position) (params : List Expr) :
    ExprTells (.assign p target (.function pos params body)) := by
  intro title names outer b h
  have hdeclared := declareFunc_declared b target pos params
  rw [performed, pending]
  cases hr : declareFunc target pos params b with
  | error e b₁ =>
    rw [hr] at hdeclared
    obtain rfl : b₁ = b := hdeclared
    rw [expr, bind_error hr]
    exact ⟨[], .refl h, .none []⟩
  | ok fn b₁ =>
    obtain ⟨f, ids⟩ := fn
    rw [hr] at hdeclared
    have hscopes : b₁.env.scopes = b.env.scopes := hdeclared.scopes
    have hentered : Inside ("function " ++ target.name) [] b.env.scopes (entered b₁ target.name f) :=
      ⟨{ title := "function " ++ target.name }, by rw [entered, Env.openScope, hscopes], rfl,
        List.nodup_nil, fun x => Iff.rfl⟩
    obtain ⟨symbol, hevents, hsymbols, -⟩ := declareFunc_reports hr
    have hend := body_tells hbody hentered target.name pos ids
    rw [List.nil_append] at hend
    rw [expr_define hr, afterwards]
    cases hr' : funcBody target.name pos ids body (entered b₁ target.name f) with
    | error e b₂ =>
      rw [hr'] at hend
      obtain ⟨inner, htold, hcloses⟩ := hend
      obtain ⟨vars, hleft⟩ := htold.leave h hevents hsymbols b₁.site
      have hclosed := hcloses.prepend [.function target.name symbol (ids.map (·.name)) pos]
      rw [bind_error (inScope_error hr')]
      exact ⟨_, hleft, hclosed.close target.name vars⟩
    | ok u b₂ =>
      rw [hr'] at hend
      obtain ⟨-, inner, htold⟩ := hend
      obtain ⟨vars, hleft⟩ := htold.leave h hevents hsymbols b₁.site
      obtain ⟨x, b₃, hb₃⟩ : ∃ x b₃, emitFuncAddr f (userSignature ids.length) pos
          { b₂.closeScope with site := b₁.site } = .ok x b₃ := ⟨_, _, rfl⟩
      rw [bind_ok (inScope_ok hr'), hb₃]
      exact ⟨rfl, _, hleft.then ((Quiet.emitFuncAddr f _ pos _).of_ok hb₃)⟩

/-! ### Expressions -/

theorem assign_tells {value : Expr} (hvalue : ExprTells value)
    (hnot : ∀ pos params body, value ≠ .function pos params body) (pos : Position)
    (target : Ident) : ExprTells (.assign pos target value) := by
  intro title names outer b h
  have hfirst := hvalue h
  rw [performed_assign hnot, pending_assign hnot, expr_assign hnot]
  cases hr : expr value b with
  | error e b₁ =>
    rw [hr] at hfirst
    rw [bind_error hr, afterwards, List.append_nil]
    exact hfirst
  | ok x b₁ =>
    rw [hr] at hfirst
    obtain ⟨hnone, evs, htold⟩ := hfirst
    rw [bind_ok hr, hnone]
    have hassign := assignValue_binds pos target.name x b₁
    cases hr' : assignValue pos target.name x b₁ with
    | error e b₂ =>
      rw [hr'] at hassign
      rw [afterwards, List.append_nil]
      exact ⟨evs, htold.then hassign, .none evs⟩
    | ok y b₂ =>
      rw [hr'] at hassign
      obtain ⟨-, v, hname, hbinds⟩ := hassign
      have hsymbols := hbinds.symbols.trans htold.symbols
      refine ⟨rfl, evs, ⟨hbinds.events.trans htold.events, ?_, hsymbols⟩, ?_⟩
      · have hbound := htold.inside.bound hbinds.env
        rw [hname] at hbound
        rw [afterwards, BodyStep.targets_append, ← List.append_assoc]
        exact hbound
      · have hone := htold.reported.append (.assigned target.name [] [] .nil)
        rwa [List.append_nil] at hone

theorem Quiet.exprTells {e : Expr} (hquiet : Quiet (expr e)) (hsteps : ∀ b, performed e b = [])
    (hpending : ∀ b, pending e b = []) : ExprTells e := by
  intro title names outer b h
  rw [hsteps, hpending]
  exact hquiet.tells h

mutual

/-- Lowering reports its steps. -/
theorem expr_tells : ∀ e : Expr, ExprTells e
  | .int pos n => by
    refine Quiet.exprTells ?_ (by simp [performed]) (by simp [pending])
    rw [expr]
    exact (Quiet.emit _ _).bind fun _ => .pure _
  | .name id => by
    refine Quiet.exprTells ?_ (by simp [performed]) (by simp [pending])
    rw [expr]
    exact .nameValue id
  | .string pos content => by
    refine Quiet.exprTells ?_ (by simp [performed]) (by simp [pending])
    rw [expr]
    exact .stringLiteral pos content
  | .assign p target value => by
    have hvalue := expr_tells value
    cases value with
    | function pos params body => exact function_tells (sequence_tells body) p target pos params
    | _ => exact assign_tells hvalue (by simp) p target
  | .call pos callee args => by
    intro title names outer b h
    rw [performed, pending, expr]
    exact (arguments_tell args h).bind_quiet fun xs => Quiet.callNamed pos callee.name xs
  | .function .. => by
    refine Quiet.exprTells ?_ (by simp [performed]) (by simp [pending])
    rw [expr]
    exact .fail _ _
  | .absent => by
    refine Quiet.exprTells ?_ (by simp [performed]) (by simp [pending])
    rw [expr]
    · exact .fail _ _
    all_goals simp
  | .infixTail .. => by
    refine Quiet.exprTells ?_ (by simp [performed]) (by simp [pending])
    rw [expr]
    · exact .fail _ _
    all_goals simp
  | .empty .. => by
    refine Quiet.exprTells ?_ (by simp [performed]) (by simp [pending])
    rw [expr]
    · exact .fail _ _
    all_goals simp

theorem arguments_tell : ∀ es : List Expr, ArgumentsTell es
  | [] => by
    intro title names outer b h
    rw [arguments, performedIn, pendingIn]
    exact (Quiet.pure _).tells h
  | e :: es => by
    intro title names outer b h
    rw [arguments, performedIn, pendingIn]
    refine (expr_tells e h).bind fun x b₁ _ hinside => ?_
    exact (arguments_tell es hinside).bind_quiet fun xs => .pure _

theorem sequence_tells : ∀ es : List Expr, SequenceTells es
  | [] => by
    intro title names outer b h
    rw [sequence, performedIn, pendingIn]
    exact (Quiet.pure _).tells h
  | e :: es => by
    intro title names outer b h
    rw [sequence, performedIn, pendingIn]
    refine (expr_tells e h).bind fun x b₁ _ hinside => ?_
    refine (sequence_tells es hinside).bind_quiet fun t => ?_
    cases t with
    | some last => exact .pure _
    | none => exact .pure _

end

/-! ### Programs -/

theorem parameters_of_paramNames {params : List Expr} {ids : List Ident}
    (h : paramNames 0 params = .ok ids) : Expr.parameters params = ids.map (·.name) := by
  rw [params_eq_of_paramNames h, Expr.parameters, List.filterMap_map]
  show ids.filterMap (some ∘ fun id => id.name) = _
  rw [List.filterMap_eq_map]

mutual

/-- Nothing is left undone when an expression is lowered. -/
theorem performed_of_expr : ∀ (e : Expr) {b b' : Builder} {x : Operand}, expr e b = .ok x b' →
    performed e b = e.steps
  | .assign p target value, b, b', x, h => by
    cases value with
    | function pos params body =>
      rw [expr] at h
      obtain ⟨⟨f, ids⟩, b₁, hb₁, h⟩ := bind_eq_ok_iff.1 h
      obtain ⟨_, b₂, hb₂, h⟩ := bind_eq_ok_iff.1 h
      obtain ⟨b₃, hb₃, -⟩ := inScope_eq_ok hb₂
      obtain ⟨_, b₄, hb₄, hb₃⟩ := bind_eq_ok_iff.1 hb₃
      obtain ⟨t, b₅, hb₅, hb₃⟩ := bind_eq_ok_iff.1 hb₃
      obtain ⟨symbol, -, -, hparams⟩ := declareFunc_reports hb₁
      have hspilled : spillParams 0 ids (entered b₁ target.name f) = .ok () b₄ := hb₄
      rw [performed, hb₁, Expr.steps, parameters_of_paramNames hparams]
      simp only [afterwards, hspilled, performedIn_of_sequence body hb₅]
    | _ =>
      have hsuccess := h
      rw [expr_assign (by simp)] at h
      obtain ⟨y, b₁, hb₁, -⟩ := bind_eq_ok_iff.1 h
      rw [performed_assign (by simp), Expr.steps_assign (by simp), hsuccess, afterwards,
        performed_of_expr _ hb₁]
  | .call pos callee args, b, b', x, h => by
    rw [expr] at h
    obtain ⟨xs, b₁, hb₁, h⟩ := bind_eq_ok_iff.1 h
    rw [performed, Expr.steps, performedIn_of_arguments args hb₁]
  | .int .., b, b', x, h => by simp [performed, Expr.steps]
  | .name _, b, b', x, h => by simp [performed, Expr.steps]
  | .string .., b, b', x, h => by simp [performed, Expr.steps]
  | .function .., b, b', x, h => by simp [performed, Expr.steps]
  | .absent, b, b', x, h => by simp [performed, Expr.steps]
  | .infixTail .., b, b', x, h => by simp [performed, Expr.steps]
  | .empty _, b, b', x, h => by simp [performed, Expr.steps]

theorem performedIn_of_arguments : ∀ (es : List Expr) {b b' : Builder}
    {xs : List (Position × Operand)}, arguments es b = .ok xs b' →
    performedIn es b = Expr.stepsAll es
  | [], b, b', xs, h => by rw [performedIn, Expr.stepsAll]
  | e :: es, b, b', xs, h => by
    rw [arguments] at h
    obtain ⟨x, b₁, hb₁, h⟩ := bind_eq_ok_iff.1 h
    obtain ⟨ys, b₂, hb₂, h⟩ := bind_eq_ok_iff.1 h
    rw [performedIn, Expr.stepsAll, performed_of_expr e hb₁, hb₁, afterwards,
      performedIn_of_arguments es hb₂]

theorem performedIn_of_sequence : ∀ (es : List Expr) {b b' : Builder}
    {t : Option (Position × Operand)}, sequence es b = .ok t b' →
    performedIn es b = Expr.stepsAll es
  | [], b, b', t, h => by rw [performedIn, Expr.stepsAll]
  | e :: es, b, b', t, h => by
    obtain ⟨x, b₁, t', hb₁, hb₂, -⟩ := sequence_cons_ok h
    rw [performedIn, Expr.stepsAll, performed_of_expr e hb₁, hb₁, afterwards,
      performedIn_of_sequence es hb₂]

end

section Whole

variable {o : CompileOptions} {es : List Expr} {added : List String} {evs : List Event}

end Whole

end Lowering

/-- A failure in the body of a function that is defined in the body of another one. -/
example : (lower {} [.assign {} { name := "f" } (.function {} [.name { name := "a" }]
    [.assign {} { name := "x" } (.int {} 1), .assign {} { name := "g" } (.function {} []
      [.name { name := "a" }])])]).events =
    [.expression 0 "Assignment" {}, .function "f" "f" ["a"] {}, .function "g" "g" [] {},
      .scopeClosed "function g" [], .scopeClosed "function f" ["a", "x"],
      .scopeClosed "program" []] := by
  cbv

end Wordlang
