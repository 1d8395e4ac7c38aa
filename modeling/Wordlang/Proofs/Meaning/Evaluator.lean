import Wordlang.Proofs.Meaning
import Wordlang.Proofs.Outcome

/-!
# Evaluating programs

An evaluator for the language that lets calls nest to a given depth, and the proof that it computes
the meaning: a program terminates with some output if and only if the evaluator finds that output at
some depth, and then at every greater one.
-/

namespace Wordlang.Meaning

open Outcome

/-- Why evaluation stops. -/
inductive Stop where
  /-- The calls nest too deeply. -/
  | tooDeep
  /-- No rule applies. -/
  | stuck
  deriving DecidableEq, Repr

/-- How functions are called: with arguments, in the state that the output is. -/
abbrev Table := Callee → List Val → EStateM Stop String Val

/-- Takes what there is, and is stuck if there is nothing. -/
def need {σ α : Type} : Option α → EStateM Stop σ α
  | some a => pure a
  | none => throw .stuck

/-- Runs a call in an activation, of which it changes nothing but the output. -/
def onOutput {α : Type} (g : EStateM Stop String α) : EStateM Stop State α := fun s =>
  match g s.out with
  | .ok a out => .ok a { s with out }
  | .error e out => .error e { s with out }

/-- Assigns what an answer is when it is read. -/
def assignTo (name : String) (a : Answer) : EStateM Stop State Answer := do
  let v ← need ((← get).read? a)
  modify (·.assign name v)
  return .value v

/-- Calls `name`, where `ds` precede, with what the answers are when they are read. -/
def callWith (table : Table) (ds : List Definition) (name : String) (as : List Answer) :
    EStateM Stop State Answer := do
  let s ← get
  let c ← need (s.callee? ds name)
  let vs ← need (as.mapM s.read?)
  return .value (← onOutput (table c vs))

mutual

/-- Evaluates an expression where `ds` precede. -/
def eval (table : Table) (ds : List Definition) : Expr → EStateM Stop State Answer
  | .int _ n => return .value (.int n)
  | .string _ content => return .value (.text content)
  | .name id => do
    match (← get).vars.lookup id.name with
    | some _ => return .variable id.name
    | none => return .value (.func (← need (resolve ds id.name)))
  | .assign _ target (.function _ params body) =>
    return .value (.func (.defined ⟨target.name, params, body⟩ ds))
  | .assign _ target e => do assignTo target.name (← eval table ds e)
  | .call _ callee args => do
    callWith table (afterAll ds args) callee.name (← evalAll table ds args)
  | _ => throw .stuck

/-- Evaluates expressions one after the other. -/
def evalAll (table : Table) (ds : List Definition) : List Expr → EStateM Stop State (List Answer)
  | [] => return []
  | e :: es => do
    let a ← eval table ds e
    return a :: (← evalAll table (after ds e) es)

end

/-- Evaluates a body, and reads the last answer. -/
def evalBody (table : Table) (ds : List Definition) (body : List Expr) : EStateM Stop State Val := do
  let as ← evalAll table ds body
  need (as.getLast?.bind (← get).read?)

/-- Runs an activation that starts with the given variables, of which only the output is left. -/
def inActivation {α : Type} (vars : List (String × Val)) (g : EStateM Stop State α) :
    EStateM Stop String α := fun out =>
  match g { vars, out } with
  | .ok a s => .ok a s.out
  | .error e s => .error e s.out

/-- Calls a function of the program. -/
def activate (table : Table) (d : Definition) (before : List Definition) (vs : List Val) :
    EStateM Stop String Val := do
  inActivation (← need (bindParams d.params vs)) (evalBody table (d :: before) d.body)

/-- Calls a function, in whose body functions are called as in the table. -/
def invoke (table : Table) : Table
  | .add, [.int x, .int y] => return .int (x + y)
  | .print, [.int x] => do
    modify (· ++ line x)
    return .int (Int32.ofNat (line x).utf8ByteSize)
  | .defined d before, vs => activate table d before vs
  | _, _ => throw .stuck

/-- Calls a function. Calls nest to the given depth. -/
def apply : Nat → Table
  | 0 => fun _ _ => throw .tooDeep
  | depth + 1 => invoke (apply depth)

/-! ## Evaluating each kind of expression -/

theorem eval_name (table : Table) (ds : List Definition) (id : Ident) (s : State) :
    eval table ds (.name id) s =
      match s.vars.lookup id.name with
      | some _ => .ok (.variable id.name) s
      | none =>
        match resolve ds id.name with
        | some c => .ok (.value (.func c)) s
        | none => .error .stuck s := by
  have hget : (get : EStateM Stop State State) s = .ok s s := rfl
  rw [eval, bind_ok hget]
  cases s.vars.lookup id.name with
  | some v => rfl
  | none => cases resolve ds id.name <;> rfl

theorem eval_assign (table : Table) (ds : List Definition) {e : Expr}
    (hnot : ∀ pos params body, e ≠ .function pos params body) (pos : Position) (target : Ident) :
    eval table ds (.assign pos target e) = eval table ds e >>= assignTo target.name := by
  rw [eval]
  exact hnot

theorem assignTo_eq {name : String} {a : Answer} {v : Val} {s : State} (hv : s.read? a = some v) :
    assignTo name a s = .ok (.value v) (s.assign name v) := by
  have hget : (get : EStateM Stop State State) s = .ok s s := rfl
  rw [assignTo, bind_ok hget, hv]
  rfl

theorem callWith_eq {table : Table} {ds : List Definition} {name : String} {as : List Answer}
    {c : Callee} {vs : List Val} {s : State} (hc : s.callee? ds name = some c)
    (hvs : as.mapM s.read? = some vs) :
    callWith table ds name as s = (onOutput (table c vs) >>= fun v => pure (.value v)) s := by
  have hget : (get : EStateM Stop State State) s = .ok s s := rfl
  rw [callWith, bind_ok hget, hc, hvs]
  rfl

/-! ## What is evaluated is meant -/

theorem need_ok {σ α : Type} {x : Option α} {a : α} {s s' : σ} (h : need x s = .ok a s') :
    x = some a ∧ s' = s := by
  cases x with
  | none => cases h
  | some a' =>
    cases h
    exact ⟨rfl, rfl⟩

theorem onOutput_eq {α : Type} {g : EStateM Stop String α} {a : α} {s : State} {out : String}
    (h : g s.out = .ok a out) : onOutput g s = .ok a { s with out } := by
  rw [onOutput, h]

theorem onOutput_ok {α : Type} {g : EStateM Stop String α} {a : α} {s s' : State}
    (h : onOutput g s = .ok a s') : ∃ out, g s.out = .ok a out ∧ s' = { s with out } := by
  unfold onOutput at h
  cases hg : g s.out with
  | ok b out =>
    rw [hg] at h
    cases h
    exact ⟨out, rfl, rfl⟩
  | error e out =>
    rw [hg] at h
    cases h

/-- Every call that the table answers is a call of the semantics. -/
def Table.Sound (table : Table) : Prop :=
  ∀ ⦃c vs out v out'⦄, table c vs out = .ok v out' → Call c vs out v out'

section Sound

variable {table : Table}

theorem assignTo_ok {name : String} {a b : Answer} {s s' : State}
    (h : assignTo name a s = .ok b s') :
    ∃ v, s.read? a = some v ∧ b = .value v ∧ s' = s.assign name v := by
  rw [assignTo] at h
  obtain ⟨_, _, ⟨⟩, h₁⟩ := bind_eq_ok_iff.1 h
  obtain ⟨v, s₁, hneed, h₂⟩ := bind_eq_ok_iff.1 h₁
  obtain ⟨hv, hs⟩ := need_ok hneed
  obtain ⟨_, _, ⟨⟩, hend⟩ := bind_eq_ok_iff.1 h₂
  cases hend
  rw [hs]
  exact ⟨v, hv, rfl, rfl⟩

theorem callWith_ok {ds : List Definition} {name : String} {as : List Answer} {a : Answer}
    {s s' : State} (h : callWith table ds name as s = .ok a s') :
    ∃ c vs v out, s.callee? ds name = some c ∧ as.mapM s.read? = some vs ∧
      table c vs s.out = .ok v out ∧ a = .value v ∧ s' = { s with out } := by
  rw [callWith] at h
  obtain ⟨_, _, ⟨⟩, h₁⟩ := bind_eq_ok_iff.1 h
  obtain ⟨c, s₁, hfind, h₂⟩ := bind_eq_ok_iff.1 h₁
  obtain ⟨hc, hs₁⟩ := need_ok hfind
  obtain ⟨vs, s₂, hread, h₃⟩ := bind_eq_ok_iff.1 h₂
  obtain ⟨hvs, hs₂⟩ := need_ok hread
  obtain ⟨v, s₃, htable, hend⟩ := bind_eq_ok_iff.1 h₃
  subst hs₁ hs₂
  obtain ⟨out, hcall, hs₃⟩ := onOutput_ok htable
  cases hend
  exact ⟨c, vs, v, out, hc, hvs, hcall, rfl, hs₃⟩

mutual

theorem eval_sound (ht : table.Sound) : ∀ (e : Expr) ⦃ds s a s'⦄,
    eval table ds e s = .ok a s' → Eval ds e s a s'
  | .int pos n, ds, s, a, s', h => by
    rw [eval] at h
    cases h
    exact .int ds pos n s
  | .string pos content, ds, s, a, s', h => by
    rw [eval] at h
    cases h
    exact .string ds pos content s
  | .name id, ds, s, a, s', h => by
    rw [eval] at h
    obtain ⟨_, _, ⟨⟩, h₁⟩ := bind_eq_ok_iff.1 h
    cases hv : s.vars.lookup id.name with
    | some v =>
      rw [hv] at h₁
      cases h₁
      exact .variable ds id v s hv
    | none =>
      rw [hv] at h₁
      obtain ⟨c, s₁, hneed, h₂⟩ := bind_eq_ok_iff.1 h₁
      obtain ⟨hc, hs⟩ := need_ok hneed
      cases h₂
      rw [hs]
      exact .function ds id c s hv hc
  | .assign pos target e, ds, s, a, s', h => by
    have ih := eval_sound ht e
    cases e with
    | function fpos params body =>
      rw [eval] at h
      cases h
      exact .define ds pos target fpos params body s
    | _ =>
      rw [eval_assign table ds (by simp)] at h
      obtain ⟨a₁, s₁, h₁, hassign⟩ := bind_eq_ok_iff.1 h
      obtain ⟨v, hv, rfl, rfl⟩ := assignTo_ok hassign
      exact .assign ds pos target _ a₁ v s s₁ (by simp) (ih h₁) hv
  | .call pos callee args, ds, s, a, s', h => by
    rw [eval] at h
    obtain ⟨as, s₁, hargs, h₁⟩ := bind_eq_ok_iff.1 h
    obtain ⟨c, vs, v, out, hc, hvs, hcall, rfl, rfl⟩ := callWith_ok h₁
    exact .call ds pos callee args as c vs v s s₁ out (evalAll_sound ht args hargs) hc hvs (ht hcall)
  | .function pos params body, ds, s, a, s', h => by simp only [eval] at h; cases h
  | .absent, ds, s, a, s', h => by simp only [eval] at h; cases h
  | .infixTail .., ds, s, a, s', h => by simp only [eval] at h; cases h
  | .empty _, ds, s, a, s', h => by simp only [eval] at h; cases h

theorem evalAll_sound (ht : table.Sound) : ∀ (es : List Expr) ⦃ds s as s'⦄,
    evalAll table ds es s = .ok as s' → EvalAll ds es s as s'
  | [], ds, s, as, s', h => by
    rw [evalAll] at h
    cases h
    exact .nil ds s
  | e :: es, ds, s, as, s', h => by
    rw [evalAll] at h
    obtain ⟨a, s₁, h₁, h⟩ := bind_eq_ok_iff.1 h
    obtain ⟨as', s₂, h₂, h⟩ := bind_eq_ok_iff.1 h
    cases h
    exact .cons ds e es a as' s s₁ _ (eval_sound ht e h₁) (evalAll_sound ht es h₂)

end

end Sound

theorem inActivation_ok {α : Type} {g : EStateM Stop State α} {vars : List (String × Val)} {a : α}
    {out out' : String} (h : inActivation vars g out = .ok a out') :
    ∃ s, g { vars, out } = .ok a s ∧ out' = s.out := by
  unfold inActivation at h
  cases hg : g { vars, out } with
  | ok b s =>
    rw [hg] at h
    cases h
    exact ⟨s, rfl, rfl⟩
  | error e s =>
    rw [hg] at h
    cases h

theorem activate_sound {table : Table} (ht : table.Sound) {d : Definition}
    {before : List Definition} {vs : List Val} {out out' : String} {v : Val}
    (h : activate table d before vs out = .ok v out') : Call (.defined d before) vs out v out' := by
  rw [activate] at h
  obtain ⟨vars, out₁, hneed, h₁⟩ := bind_eq_ok_iff.1 h
  obtain ⟨hvars, rfl⟩ := need_ok hneed
  obtain ⟨s, hbody, rfl⟩ := inActivation_ok h₁
  rw [evalBody] at hbody
  obtain ⟨as, s₁, has, h₂⟩ := bind_eq_ok_iff.1 hbody
  obtain ⟨_, _, ⟨⟩, h₃⟩ := bind_eq_ok_iff.1 h₂
  obtain ⟨hread, rfl⟩ := need_ok h₃
  obtain ⟨a, ha, hv⟩ := Option.bind_eq_some_iff.1 hread
  exact .defined d before vs vars as a v out₁ _ hvars (evalAll_sound ht d.body has) ha hv

theorem invoke_sound {table : Table} (ht : table.Sound) : (invoke table).Sound := by
  intro c vs out v out' h
  unfold invoke at h
  split at h
  · cases h
    exact .add _ _ out
  · cases h
    exact .print _ out
  · exact activate_sound ht h
  · cases h

theorem apply_sound (depth : Nat) : (apply depth).Sound := by
  induction depth with
  | zero =>
    intro c vs out v out' h
    cases h
  | succ depth ih => exact invoke_sound ih

/-! ## What is meant is evaluated -/

/-- From some depth on the outcome is always the same. -/
def Settles {σ α : Type} (g : Nat → EStateM.Result Stop σ α) (a : α) (s : σ) : Prop :=
  ∃ n, ∀ m, n ≤ m → g m = .ok a s

mutual

theorem Eval.settles {ds : List Definition} {e : Expr} {s s' : State} {a : Answer} :
    Eval ds e s a s' → Settles (fun n => eval (apply n) ds e s) a s'
  | .int .. => ⟨0, fun m _ => by simp only [eval]; rfl⟩
  | .string .. => ⟨0, fun m _ => by simp only [eval]; rfl⟩
  | .variable ds id v s hv => ⟨0, fun m _ => by simp only [eval_name, hv]⟩
  | .function ds id c s hv hc => ⟨0, fun m _ => by simp only [eval_name, hv, hc]⟩
  | .define .. => ⟨0, fun m _ => by simp only [eval]; rfl⟩
  | .assign ds pos target e a v s s' hnot he hv => by
    obtain ⟨n, hn⟩ := he.settles
    refine ⟨n, fun m hm => ?_⟩
    show eval (apply m) ds (.assign pos target e) s = _
    rw [eval_assign _ ds hnot, bind_ok (hn m hm), assignTo_eq hv]
  | .call ds pos callee args as c vs v s s' out hargs hc hvs hcall => by
    obtain ⟨n, hn⟩ := hargs.settles
    obtain ⟨k, hk⟩ := hcall.settles
    refine ⟨max n k, fun m hm => ?_⟩
    show eval (apply m) ds (.call pos callee args) s = _
    rw [eval, bind_ok (hn m (by omega)), callWith_eq hc hvs,
      bind_ok (onOutput_eq (hk m (by omega)))]
    rfl

theorem EvalAll.settles {ds : List Definition} {es : List Expr} {s s' : State} {as : List Answer} :
    EvalAll ds es s as s' → Settles (fun n => evalAll (apply n) ds es s) as s'
  | .nil .. => ⟨0, fun m _ => by simp only [evalAll]; rfl⟩
  | .cons ds e es a as s s' s'' he hes => by
    obtain ⟨n, hn⟩ := he.settles
    obtain ⟨k, hk⟩ := hes.settles
    refine ⟨max n k, fun m hm => ?_⟩
    show evalAll (apply m) ds (e :: es) s = _
    rw [evalAll, bind_ok (hn m (by omega)), bind_ok (hk m (by omega))]
    rfl

theorem Call.settles {c : Callee} {vs : List Val} {out out' : String} {v : Val} :
    Call c vs out v out' → Settles (fun n => apply n c vs out) v out'
  | .add .. => ⟨1, fun m hm => by obtain ⟨m, rfl⟩ := Nat.exists_eq_add_of_le' hm; rfl⟩
  | .print .. => ⟨1, fun m hm => by obtain ⟨m, rfl⟩ := Nat.exists_eq_add_of_le' hm; rfl⟩
  | .defined d before vs vars as a v out s hvars hbody hlast hv => by
    obtain ⟨n, hn⟩ := hbody.settles
    refine ⟨n + 1, fun m hm => ?_⟩
    obtain ⟨m, rfl⟩ := Nat.exists_eq_add_of_le' (Nat.le_of_add_left_le hm)
    have hread : need (as.getLast?.bind s.read?) s = .ok v s := by
      rw [hlast, Option.bind_some, hv]
      rfl
    have heval : evalBody (apply m) (d :: before) d.body { vars, out } = .ok v s := by
      rw [evalBody, bind_ok (hn m (by omega))]
      exact hread
    show activate (apply m) d before vs out = _
    rw [activate, hvars]
    show inActivation vars (evalBody (apply m) (d :: before) d.body) out = _
    rw [inActivation, heval]

end

/-- A program terminates with some output if and only if the evaluator finds that output at some
depth. -/
theorem terminates_iff (es : List Expr) (out : String) :
    Terminates es out ↔ ∃ depth as s, evalAll (apply depth) [] es {} = .ok as s ∧ s.out = out := by
  constructor
  · rintro ⟨as, s, h, hout⟩
    obtain ⟨n, hn⟩ := h.settles
    exact ⟨n, as, s, hn n (Nat.le_refl n), hout⟩
  · rintro ⟨depth, as, s, h, hout⟩
    exact ⟨as, s, evalAll_sound (apply_sound depth) es h, hout⟩

end Wordlang.Meaning
