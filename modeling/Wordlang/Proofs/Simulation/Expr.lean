import Wordlang.Proofs.Simulation.Code

/-!
# Running the code of an expression

The machine, when it runs the code that an expression was lowered to, and the evaluator, when it
evaluates the expression, end alike. The proof goes by induction on the derivation of lowering, with
one lemma for each rule.
-/

namespace Wordlang.Meaning

open IR IR.Machine Lowering Builder Outcome

variable {checked : Bool} {sigs : Nat → Option Signature} {callee : Nat → List Datum → Exec Datum}
  {args : List Datum} {table : Table} {defs ds : List Definition} {f k n : Nat} {env env' : Env}
  {s : State} {vals : Vals} {μ : Memory}

/-- What is known when an expression has been evaluated to an answer and its code has been run: the
frame holds the activation, the operand stands for the answer, and cells are kept. -/
structure Yields (defs : List Definition) (f k : Nat) (env : Env) (vals : Vals) (μ : Memory)
    (env' : Env) (x : Operand) (a : Answer) (s' : State) (vals' : Vals) (μ' : Memory) : Prop where
  holds : Matches defs f k env' s' vals' μ'
  shows : Shows defs env' vals' μ' x.sig x a
  advance : Advance env vals μ env' vals' μ'

/-- The same for several expressions. -/
structure YieldsAll (defs : List Definition) (f k : Nat) (env : Env) (vals : Vals) (μ : Memory)
    (env' : Env) (xs : List (Position × Operand)) (as : List Answer) (s' : State) (vals' : Vals)
    (μ' : Memory) : Prop where
  holds : Matches defs f k env' s' vals' μ'
  shows : ShowsAll defs env' vals' μ' xs as
  advance : Advance env vals μ env' vals' μ'

/-- An expression whose code computes one value without touching the memory. -/
theorem sim_single {e : Expr} {x : Operand} {v : Value} {u : Val} {w : Datum}
    (hm : Matches defs f k env s vals μ) (he : eval table ds e s = .ok (.value u) s)
    (hv : compute checked sigs callee args vals v μ = .ok w μ) (hx : x.isSlot = false)
    (href : x.ref = ⟨f, k⟩) (hrep : Rep defs u w x.type x.sig) (henv : env'.scopes = env.scopes) :
    Sim (eval table ds e s) (runCode checked sigs callee args f k vals [v] μ)
      (Yields defs f (k + 1) env vals μ env' x) := by
  rw [he, runCode_cons [] hv]
  have hkept := Kept.push hm.fresh w
  refine ⟨(hm.grow hkept (hm.fresh.push w)).congr henv, .value u w hx ?_ hrep,
    (hm.advance hkept List.prefix_rfl).congr henv⟩
  rw [href]
  exact lookup_push f k w vals

theorem sim_variable {id : Ident} {v : Binding} (hm : Matches defs f k env s vals μ)
    (hv : env.findVar? id.name = some v) :
    Sim (eval table ds (.name id) s) (runCode checked sigs callee args f k vals [] μ)
      (Yields defs f k env vals μ env
        { ref := v.slot, type := v.elem, isSlot := true, sig := v.sig }) := by
  obtain ⟨i, u, w, hslot, hcell, hu, hrep⟩ := hm.bound id.name v hv
  rw [eval_name, hu]
  exact ⟨hm, .named id.name v rfl hv rfl rfl rfl, hm.advance (.refl vals) List.prefix_rfl⟩

theorem sim_assign {e : Expr} {x : Operand} {slot : ValueRef} {vs ws : List Value} {pos : Position}
    {target : Ident} (hnot : ∀ pos params body, e ≠ .function pos params body)
    (he : Sim (eval table ds e s) (runCode checked sigs callee args f k vals vs μ)
      (Yields defs f (k + vs.length) env vals μ env' x))
    (hslot : Assigns env' f (k + vs.length + (readCode f pos x).length) target.name x.type pos slot
      ws) :
    Sim (eval table ds (.assign pos target e) s)
      (runCode checked sigs callee args f k vals
        (vs ++ (readCode f pos x ++ ws ++ [storeCode f slot (readRef f (k + vs.length) x) pos])) μ)
      (Yields defs f (k + (vs ++ (readCode f pos x ++ ws ++
          [storeCode f slot (readRef f (k + vs.length) x) pos])).length) env vals μ
        (bound env' { name := target.name, slot, elem := x.type, sig := x.sig })
        { ref := readRef f (k + vs.length) x, type := x.type, sig := x.sig }) := by
  rw [eval_assign table ds hnot, runCode_append, List.length_append, ← Nat.add_assoc]
  refine he.bind fun a s₁ vals₁ μ₁ hy => ?_
  obtain ⟨u, w, vals₂, μ₂, hu, hrep, hrun, hm, hlookup, ha⟩ :=
    run_assign hy.holds hy.advance hy.shows hslot
  rw [assignTo_eq hu, hrun]
  exact ⟨hm, .value u w rfl hlookup hrep, ha⟩

theorem sim_call {args' : List Expr} {xs : List (Position × Operand)} {t : Target} {sig : Signature}
    {vs ws : List Value} {pos : Position} {name : Ident} (hagree : Agree defs sigs callee table)
    (hargs : Sim (evalAll table ds args' s) (runCode checked sigs callee args f k vals vs μ)
      (YieldsAll defs f (k + vs.length) env vals μ env' xs))
    (hl : Linked (afterAll ds args') env' n) (hds : afterAll ds args' <:+ defs)
    (hcalls : Calls env' name.name t sig) (hacc : sig.accepts xs.length = true)
    (hfit : Fit sig.params xs) (hws : ws = invokeCode f (k + vs.length) t sig xs pos) :
    Sim (eval table ds (.call pos name args') s)
      (runCode checked sigs callee args f k vals
        (vs ++ (ws ++ keepCode f (k + vs.length + ws.length) sig.result name.name pos)) μ)
      (Yields defs f
        (k + (vs ++ (ws ++ keepCode f (k + vs.length + ws.length) sig.result name.name pos)).length)
        env vals μ env'
        { ref := ⟨f, k + vs.length + ws.length⟩, type := sig.result, isSlot := true }) := by
  rw [eval, runCode_append, List.length_append, ← Nat.add_assoc]
  refine hargs.bind fun as s₁ vals₁ μ₁ hy => ?_
  obtain ⟨c, ns, j, vals₂, hc, hwithin, rfl, harity, hns, hj, hkept, hfresh, hrun⟩ :=
    run_invoke hagree hy.holds hl hds hcalls hacc hfit hy.shows pos
      (keepCode f (k + vs.length + ws.length) sig.result name.name pos)
  have hcall := hagree.call c ns μ₁ hwithin harity
  rw [hy.holds.out] at hcall
  subst hws
  rw [callWith_eq hc hns, hrun, List.length_append, ← Nat.add_assoc, hj]
  refine hcall.onOutput.bind ?_
  rintro u s₂ w μ₂ ⟨out, rfl, ⟨m, rfl, rfl⟩, hout, hcells⟩
  -- the result is kept in a cell that is no variable's
  have hkept₂ := hkept.trans (.push hfresh (.int m))
  have hm₂ := hy.holds.extend hkept₂ (hfresh.push (.int m)) hcells hout
  obtain ⟨vals₃, hrun₃, hslot, hkept₃, hfresh₃⟩ :=
    run_keep hm₂ (lookup_push f j (.int m) vals₂) c.sig.result name.name pos
  have hcells₃ : μ₂.cells <+: μ₂.cells ++ [some (.int m)] := List.prefix_append _ _
  rw [hrun₃]
  refine ⟨hm₂.extend hkept₃ hfresh₃ hcells₃ hout, ?_, ?_⟩
  · refine .result (.int m) (.int m) μ₂.cells.length rfl hslot (by simp) ?_ (.int m)
    intro hheld
    exact Nat.lt_irrefl _ (hm₂.lt_of_held (hm₂.held_of_kept hkept₃ hheld))
  · exact hy.advance.trans
      ((hy.holds.advance hkept₂ hcells).trans (hm₂.advance hkept₃ hcells₃))

mutual

/-- Evaluating an expression and running its code end alike. -/
theorem sim_expr (hagree : Agree defs sigs callee table) {ds : List Definition} {f k n : Nat}
    {env env' : Env} {e : Expr} {x : Operand} {vs : List Value} {new : List Draft} {s : State}
    {vals : Vals} {μ : Memory} (hl : Linked ds env n) (hds : after ds e <:+ defs)
    (hm : Matches defs f k env s vals μ) : Lowers f env k n e x env' vs new →
      Sim (eval table ds e s) (runCode checked sigs callee args f k vals vs μ)
        (Yields defs f (k + vs.length) env vals μ env' x)
  | .int f k n env pos i =>
    sim_single hm (by rw [eval]; rfl) (compute_const i) rfl rfl (.int i) rfl
  | .string f k n g env pos content =>
    sim_single hm (by rw [eval]; rfl) rfl rfl rfl (.text content g) rfl
  | .variable f k n env id v hv => sim_variable hm hv
  | .function f k n env id e hv he => by
    obtain ⟨c, hc, hplace, hsig⟩ := hl.resolve_eq he
    have hwithin := (resolve_within hc).mono ((suffix_after (.name id) ds).trans hds)
    refine sim_single hm (u := .func c) ?_ rfl rfl rfl ?_ rfl
    · simp only [eval_name, hm.unbound _ hv, hc]
    · rw [← hplace, ← hsig]
      exact .func c hwithin
  | .define f k n env env' p pos target params body names symbol xs last vs new hnames hbody _ _ => by
    have hwithin : (Callee.defined ⟨target.name, params, body⟩ ds).Within defs := by
      rw [after] at hds
      exact (suffix_afterAll body _).trans hds
    have hrep := Rep.func (.defined ⟨target.name, params, body⟩ ds) hwithin
    rw [Callee.place, ← hl.count, Callee.sig, Callee.arity, ← (paramNames_ok hnames).2] at hrep
    exact sim_single hm (by rw [eval]; rfl) rfl rfl rfl hrep rfl
  | .assign f k n env env' pos target e x slot vs ws new hnot he _ hslot =>
    sim_assign hnot (sim_expr hagree hl (by rwa [after_assign hnot] at hds) hm he) hslot
  | .call f k n env env' pos name args' xs t sig vs ws new hargs hcalls hacc hfit hws => by
    rw [after] at hds
    exact sim_call hagree (sim_exprs hagree hl hds hm hargs) (linked_afterAll hl hargs) hds hcalls
      hacc hfit hws

/-- Evaluating expressions one after the other and running their code end alike. -/
theorem sim_exprs (hagree : Agree defs sigs callee table) {ds : List Definition} {f k n : Nat}
    {env env' : Env} {es : List Expr} {xs : List (Position × Operand)} {vs : List Value}
    {new : List Draft} {s : State} {vals : Vals} {μ : Memory} (hl : Linked ds env n)
    (hds : afterAll ds es <:+ defs) (hm : Matches defs f k env s vals μ) :
    LowersAll f env k n es xs env' vs new →
      Sim (evalAll table ds es s) (runCode checked sigs callee args f k vals vs μ)
        (YieldsAll defs f (k + vs.length) env vals μ env' xs)
  | .nil f k n env => by
    rw [evalAll]
    exact ⟨hm, .nil, hm.advance (.refl vals) List.prefix_rfl⟩
  | .cons f k n env env' env'' e es x xs vs ws new new' he hes => by
    rw [afterAll] at hds
    have hfirst := (suffix_afterAll es (after ds e)).trans hds
    rw [evalAll, runCode_append, List.length_append, ← Nat.add_assoc]
    refine (sim_expr hagree hl hfirst hm he).bind fun a s₁ vals₁ μ₁ hy => ?_
    have hrest := sim_exprs hagree (linked_after hl he) hds hy.holds hes
    rw [← bind_pure (runCode checked sigs callee args f (k + vs.length) vals₁ ws)]
    refine hrest.bind fun as s₂ vals₂ μ₂ hys => ?_
    exact ⟨hys.holds, .cons (hy.shows.advance hys.advance) hys.shows, hy.advance.trans hys.advance⟩

end

end Wordlang.Meaning
