import Wordlang.Proofs.Collect
import Wordlang.Proofs.Lowering.Derivation
import Wordlang.Proofs.Meaning.Evaluator

/-!
# Functions of the program and of its module

A definition of the program becomes a function of the module, and the place of that function is told
by how many definitions precede. While the program is lowered, the table of functions agrees with
what names stand for in the text; and when it has been lowered, the module holds the code of every
definition.
-/

namespace Wordlang

open IR Lowering Builder

namespace Meaning

/-- The place of a function in the module: the definitions follow the functions that every module
has. -/
def Callee.place : Callee → Nat
  | .add => 1
  | .print => 2
  | .defined _ before => startDrafts.length + before.length

/-- The number of parameters of a function. -/
def Callee.arity : Callee → Nat
  | .add => 2
  | .print => 1
  | .defined d _ => d.params.length

/-- The signature of a function. -/
def Callee.sig (c : Callee) : Signature := userSignature c.arity

/-- The function is a built-in one or among the definitions `ds`. -/
def Callee.Within (ds : List Definition) : Callee → Prop
  | .add => True
  | .print => True
  | .defined d before => d :: before <:+ ds

variable {ds ds' : List Definition} {c : Callee} {name : String}

theorem Callee.Within.mono (h : c.Within ds) (hds : ds <:+ ds') : c.Within ds' := by
  cases c with
  | add => trivial
  | print => trivial
  | defined d before => exact List.IsSuffix.trans h hds

theorem resolve_within (h : resolve ds name = some c) : c.Within ds := by
  induction ds with
  | nil =>
    rw [resolve] at h
    split at h
    · cases h
      trivial
    · split at h
      · cases h
        trivial
      · cases h
  | cons d ds ih =>
    rw [resolve] at h
    split at h
    · cases h
      exact List.suffix_rfl
    · exact (ih h).mono (List.suffix_cons d ds)

/-! ## Definitions only accumulate -/

theorem after_assign {e : Expr} (hnot : ∀ pos params body, e ≠ .function pos params body)
    (ds : List Definition) (pos : Position) (target : Ident) :
    after ds (.assign pos target e) = after ds e := by
  rw [after]
  exact hnot

mutual

theorem suffix_after : ∀ (e : Expr) (ds : List Definition), ds <:+ after ds e
  | .assign pos target value, ds => by
    have hvalue := suffix_after value ds
    cases value with
    | function _ params body =>
      rw [after]
      exact (List.suffix_cons _ ds).trans (suffix_afterAll body _)
    | _ =>
      rw [after_assign (by simp)]
      exact hvalue
  | .call _ _ args, ds => by
    rw [after]
    exact suffix_afterAll args ds
  | .int .., ds => by simp [after]
  | .name _, ds => by simp [after]
  | .string .., ds => by simp [after]
  | .function .., ds => by simp [after]
  | .absent, ds => by simp [after]
  | .infixTail .., ds => by simp [after]
  | .empty .., ds => by simp [after]

theorem suffix_afterAll : ∀ (es : List Expr) (ds : List Definition), ds <:+ afterAll ds es
  | [], ds => by simp [afterAll]
  | e :: es, ds => by
    rw [afterAll]
    exact (suffix_after e ds).trans (suffix_afterAll es _)

end

/-- The names of the parameters are as in the text, one for each. -/
theorem paramNames_ok {i : Nat} {params : List Expr} {names : List Ident}
    (h : paramNames i params = .ok names) :
    params.mapM paramName? = some (names.map (·.name)) ∧ names.length = params.length := by
  rw [params_eq_of_paramNames h]
  refine ⟨mapM_map_eq ?_, (List.length_map _).symm⟩
  intro id _
  rfl

/-! ## The table of functions -/

/-- The table lists the functions that names stand for where `ds` precede, and the module has `n`
functions. -/
structure Linked (ds : List Definition) (env : Env) (n : Nat) : Prop where
  count : n = startDrafts.length + ds.length
  found : ∀ name, (env.findFunc? name).map (fun c => (c.func, c.sig)) =
    (resolve ds name).map fun c => (c.place, c.sig)

variable {env env' : Env} {n : Nat}

theorem Linked.congr (h : Linked ds env n) (he : env'.funcs = env.funcs) : Linked ds env' n := by
  refine ⟨h.count, fun name => ?_⟩
  rw [Env.findFunc?_congr he]
  exact h.found name

theorem Linked.resolve_eq (h : Linked ds env n) {e : Callable} (he : env.findFunc? name = some e) :
    ∃ c, resolve ds name = some c ∧ c.place = e.func ∧ c.sig = e.sig := by
  have hfound := h.found name
  rw [he] at hfound
  obtain ⟨c, hc, heq⟩ := Option.map_eq_some_iff.1 hfound.symm
  rw [Prod.mk.injEq] at heq
  exact ⟨c, hc, heq.1, heq.2⟩

theorem Linked.resolve_none (h : Linked ds env n) (he : env.findFunc? name = none) :
    resolve ds name = none := by
  have hfound := h.found name
  rw [he] at hfound
  exact Option.map_eq_none_iff.1 hfound.symm

/-- A definition is entered in the table before its body is lowered. -/
theorem Linked.body {d : Definition} {names : List Ident} (h : Linked ds env n)
    (hnames : paramNames 0 d.params = .ok names) :
    Linked (d :: ds) (bodyEnv env d.name n names) (n + 1) := by
  have hdefine : Linked (d :: ds)
      (env.defineFunc { name := d.name, func := n, sig := userSignature names.length }) (n + 1) := by
    refine ⟨by rw [h.count, List.length_cons]; omega, fun name => ?_⟩
    rw [Env.findFunc?_defineFunc _ _ rfl, resolve]
    by_cases hname : d.name = name
    · rw [if_pos hname, if_pos hname, (paramNames_ok hnames).2, h.count]
      rfl
    · rw [if_neg hname, if_neg hname]
      exact h.found name
  apply hdefine.congr
  rw [bodyEnv, (spillEnv_eq _ _ _ _).1]
  rfl

theorem linked_start : Linked [] startEnv startDrafts.length := by
  refine ⟨rfl, fun name => ?_⟩
  rw [resolve, Env.findFunc?, startEnv, List.find?_cons, List.find?_cons, List.find?_cons]
  by_cases hprint : Builtin.print = name
  · subst hprint
    rfl
  · by_cases hadd : Builtin.add = name
    · subst hadd
      rfl
    · rw [if_neg (Ne.symm hadd), if_neg (Ne.symm hprint)]
      by_cases hout : Builtin.output = name
      · simp [hprint, hadd, hout]
      · simp [hprint, hadd, hout]

mutual

/-- Lowering an expression enters its definitions in the table. -/
theorem linked_after {ds : List Definition} {f k n : Nat} {env env' : Env}
    {e : Expr} {x : Operand} {vs : List Value} {new : List Draft} (hl : Linked ds env n) :
    Lowers f env k n e x env' vs new → Linked (after ds e) env' (n + new.length)
  | .int .. => by simpa [after] using hl
  | .string .. => by simpa [after] using hl
  | .variable .. => by simpa [after] using hl
  | .function .. => by simpa [after] using hl
  | .define f k n env env' p pos target params body names symbol xs last vs new hnames hbody _ _ => by
    have hafter := linked_afterAll (hl.body (d := ⟨target.name, params, body⟩) hnames) hbody
    rw [after, List.length_cons, Nat.add_comm new.length, ← Nat.add_assoc]
    exact hafter.congr rfl
  | .assign f k n env env' pos target e x slot vs ws new hnot he _ _ => by
    have hafter := linked_after hl he
    rw [after_assign hnot]
    exact hafter.congr (funcs_bound _ _)
  | .call f k n env env' pos callee args xs t sig vs ws new hargs _ _ _ _ => by
    rw [after]
    exact linked_afterAll hl hargs

theorem linked_afterAll {ds : List Definition} {f k n : Nat} {env env' : Env}
    {es : List Expr} {xs : List (Position × Operand)} {vs : List Value} {new : List Draft}
    (hl : Linked ds env n) :
    LowersAll f env k n es xs env' vs new → Linked (afterAll ds es) env' (n + new.length)
  | .nil .. => by simpa [afterAll] using hl
  | .cons f k n env env' env'' e es x xs vs ws new new' he hes => by
    have hafter := linked_afterAll (linked_after hl he) hes
    rw [afterAll, List.length_append, ← Nat.add_assoc]
    exact hafter

end

/-! ## The code of the definitions -/

/-- The drafts hold the code of the definition that `before` precede, and the definitions inside it
are among `defs`. -/
inductive Compiled (drafts : List Draft) (defs : List Definition) (d : Definition)
    (before : List Definition) : Prop
  | intro (n : Nat) (env env' : Env) (names : List Ident) (symbol : String)
    (xs : List (Position × Operand)) (last : Position × Operand) (vs : List Value)
    (new : List Draft) (hlinked : Linked before env n) (hnames : paramNames 0 d.params = .ok names)
    (hbody : LowersAll n (bodyEnv env d.name n names) (spillCode n 0 0 names).length (n + 1) d.body
      xs env' vs new)
    (hlast : xs.getLast? = some last) (htype : last.2.type = .i32)
    (hdraft : drafts[n]? = some (completed symbol names n vs last))
    (hinner : afterAll (d :: before) d.body <:+ defs) : Compiled drafts defs d before

/-- The drafts hold the code of the definitions `ds`. -/
def CompiledAll (drafts : List Draft) (defs ds : List Definition) : Prop :=
  ∀ d before, d :: before <:+ ds → Compiled drafts defs d before

variable {drafts : List Draft} {defs : List Definition}

mutual

/-- The functions that lowering an expression adds are its definitions. -/
theorem compiled_after {ds : List Definition} {f k n : Nat} {env env' : Env}
    {e : Expr} {x : Operand} {vs : List Value} {new : List Draft} (hl : Linked ds env n)
    (hds : CompiledAll drafts defs ds) (hdefs : after ds e <:+ defs) :
    Lowers f env k n e x env' vs new → (∀ (i : Nat) d, new[i]? = some d → drafts[n + i]? = some d) →
      CompiledAll drafts defs (after ds e)
  | .int .., _ => by simpa [after] using hds
  | .string .., _ => by simpa [after] using hds
  | .variable .., _ => by simpa [after] using hds
  | .function .., _ => by simpa [after] using hds
  | .define f k n env env' p pos target params body names symbol xs last vs new hnames hbody hlast
      htype, hnew => by
    rw [after] at hdefs ⊢
    have hself : CompiledAll drafts defs (⟨target.name, params, body⟩ :: ds) := by
      intro d before hd
      rcases List.suffix_cons_iff.1 hd with heq | hd
      · obtain ⟨rfl, rfl⟩ := List.cons.inj heq
        exact .intro n env env' names symbol xs last vs new hl hnames hbody hlast htype
          (hnew 0 _ rfl) hdefs
      · exact hds d before hd
    refine compiled_afterAll (hl.body (d := ⟨target.name, params, body⟩) hnames) hself hdefs hbody ?_
    intro i d hd
    rw [Nat.add_assoc, Nat.add_comm 1]
    exact hnew (i + 1) d hd
  | .assign f k n env env' pos target e x slot vs ws new hnot he _ _, hnew => by
    rw [after_assign hnot] at hdefs ⊢
    exact compiled_after hl hds hdefs he hnew
  | .call f k n env env' pos callee args xs t sig vs ws new hargs _ _ _ _, hnew => by
    rw [after] at hdefs ⊢
    exact compiled_afterAll hl hds hdefs hargs hnew

theorem compiled_afterAll {ds : List Definition} {f k n : Nat} {env env' : Env}
    {es : List Expr} {xs : List (Position × Operand)} {vs : List Value} {new : List Draft}
    (hl : Linked ds env n) (hds : CompiledAll drafts defs ds) (hdefs : afterAll ds es <:+ defs) :
    LowersAll f env k n es xs env' vs new →
      (∀ (i : Nat) d, new[i]? = some d → drafts[n + i]? = some d) →
      CompiledAll drafts defs (afterAll ds es)
  | .nil .., _ => by simpa [afterAll] using hds
  | .cons f k n env env' env'' e es x xs vs ws new new' he hes, hnew => by
    have hfirst : ∀ (i : Nat) d, new[i]? = some d → drafts[n + i]? = some d := by
      intro i d hd
      refine hnew i d ?_
      rw [List.getElem?_append_left (List.getElem?_eq_some_iff.1 hd).1, hd]
    have hrest : ∀ (i : Nat) d, new'[i]? = some d → drafts[n + new.length + i]? = some d := by
      intro i d hd
      rw [Nat.add_assoc]
      refine hnew (new.length + i) d ?_
      rw [List.getElem?_append_right (Nat.le_add_right _ _), Nat.add_sub_cancel_left, hd]
    rw [afterAll] at hdefs ⊢
    have hinner := (suffix_afterAll es (after ds e)).trans hdefs
    exact compiled_afterAll (linked_after hl he) (compiled_after hl hds hinner he hfirst) hdefs hes
      hrest

end

end Meaning

end Wordlang
