import Wordlang.Proofs.Shape
import Wordlang.Proofs.Static

/-!
# Static rules on well-shaped trees

Two of the static rules are about the shape of a tree: that it has no placeholders, and that
parameters are names. No other rule has an error of these kinds, and a well-shaped tree violates
neither.
-/

namespace Wordlang.Static

/-- The error is not about the shape of a tree. -/
def OfMeaning (e : LoweringError) : Prop :=
  e.fault.kind? ≠ some .unsupportedNode ∧ e.fault.kind? ≠ some .unknownParameterShape

/-- The check fails, if at all, with an error that is not about the shape of a tree. -/
def Safe {α : Type} (x : Check α) : Prop := ∀ s e, x s = .error e → OfMeaning e

variable {α β : Type}

theorem Safe.pure (a : α) : Safe (pure a) := by
  intro s e h
  cases h

theorem Safe.get : Safe (get : Check Names) := by
  intro s e h
  cases h

theorem Safe.set (s : Names) : Safe (set s : Check PUnit) := by
  intro s e h
  cases h

theorem Safe.modify (f : Names → Names) : Safe (modify f : Check PUnit) := by
  intro s e h
  cases h

theorem Safe.fail {pos : Position} {fault : LoweringFault}
    (h : OfMeaning ⟨pos, fault⟩ := by simp [OfMeaning, LoweringFault.kind?]) :
    Safe (fail pos fault : Check α) := by
  intro s e he
  cases he
  exact h

theorem Safe.bind {x : Check α} {f : α → Check β} (hx : Safe x) (hf : ∀ a, Safe (f a)) :
    Safe (x >>= f) := by
  intro s e h
  have hbind : (x >>= f) s = (x s).bind fun p => f p.1 p.2 := rfl
  rw [hbind] at h
  cases hs : x s with
  | ok p =>
    rw [hs] at h
    exact hf p.1 p.2 e h
  | error e' =>
    rw [hs] at h
    cases h
    exact hx s e hs

theorem Safe.ite {p : Prop} [Decidable p] {x y : Check α} (hx : Safe x) (hy : Safe y) :
    Safe (if p then x else y) := by
  split
  · exact hx
  · exact hy

/-- A test that stands before a check that is safe. -/
theorem Safe.guard {p : Prop} [Decidable p] {pos : Position} {fault : LoweringFault} {x : Check α}
    (hx : Safe x) (h : OfMeaning ⟨pos, fault⟩ := by simp [OfMeaning, LoweringFault.kind?]) :
    Safe (if p then Static.fail pos fault >>= fun _ : PUnit => x else x) :=
  .ite (.bind (.fail h) fun _ => hx) hx

theorem nameValue_safe (id : Ident) : Safe (nameValue id) := by
  refine .bind .get fun s => ?_
  split
  · exact .pure _
  · split
    · exact .pure _
    · exact .fail

theorem assignValue_safe (pos : Position) (name : String) (x : Info) :
    Safe (assignValue pos name x) := by
  refine .bind .get fun s => ?_
  have hset : Safe (do set (s.bind name x); return x) := .bind (.set _) fun _ => .pure _
  refine .guard ?_
  split
  · exact .guard hset
  · exact hset

theorem calleeArity_safe (pos : Position) (name : String) : Safe (calleeArity pos name) := by
  refine .bind .get fun s => ?_
  split
  · exact .pure _
  · split
    · split
      · exact .pure _
      · exact .fail
    · exact .fail

theorem integers_safe (name : String) (i : Nat) (xs : List (Position × Info)) :
    Safe (integers name i xs) := by
  induction xs generalizing i with
  | nil => exact .pure _
  | cons x xs ih =>
    rw [integers]
    exact .guard (ih _)

theorem callNamed_safe (pos : Position) (name : String) (args : List (Position × Info)) :
    Safe (callNamed pos name args) := by
  refine .bind (calleeArity_safe pos name) fun n => ?_
  exact .guard (.bind (integers_safe name 0 args) fun _ => .pure _)

theorem result_safe (name : String) (pos : Position) (body : List (Position × Info)) :
    Safe (result name pos body) := by
  unfold result
  split
  · exact .fail
  · exact .ite .fail (.pure _)

theorem parameters_safe {ps : List Expr} (h : ∀ p ∈ ps, p.IsParameter) (i : Nat) :
    Safe (parameters i ps) := by
  induction ps generalizing i with
  | nil => exact .pure _
  | cons p ps ih =>
    obtain ⟨hp, hps⟩ := List.forall_mem_cons.1 h
    obtain ⟨id, rfl, -⟩ := hp.eq_name
    exact .bind (ih hps _) fun _ => .pure _

theorem declare_safe (target : Ident) {params : List Expr} (h : ∀ p ∈ params, p.IsParameter) :
    Safe (declare target params) := by
  refine .bind .get fun s => ?_
  exact .guard (.bind (parameters_safe h 0) fun _ => .bind (.modify _) fun _ => .pure _)

theorem define_safe {body : List Expr} (hbody : Safe (exprs body)) {params : List Expr}
    (hparams : ∀ p ∈ params, p.IsParameter) (p : Position) (target : Ident) (pos : Position) :
    Safe (expr (.assign p target (.function pos params body))) := by
  rw [expr]
  refine .bind (declare_safe target hparams) fun names => ?_
  refine .bind (.modify _) fun _ => ?_
  refine .bind hbody fun xs => ?_
  refine .bind (result_safe target.name pos xs) fun _ => ?_
  exact .bind (.modify _) fun _ => .pure _

mutual

theorem expr_safe : ∀ e : Expr, e.Shaped → Safe (expr e)
  | .int .., _ => by
    rw [expr]
    exact .pure _
  | .string .., _ => by
    rw [expr]
    exact .pure _
  | .name id, _ => by
    rw [expr]
    exact nameValue_safe id
  | .assign p target value, h => by
    have hvalue := expr_safe value h.2
    cases value with
    | function pos params body => exact define_safe (exprs_safe body h.2.2) h.2.1 p target pos
    | _ =>
      rw [expr_assign (by simp)]
      exact .bind hvalue fun x => assignValue_safe p target.name x
  | .call pos callee args, h => by
    rw [expr]
    exact .bind (exprs_safe args h.2) fun xs => callNamed_safe pos callee.name xs
  | .function pos _ _, _ => by
    rw [expr]
    exact .fail
  | .absent, h => h.elim
  | .infixTail .., h => h.elim
  | .empty _, h => h.elim

theorem exprs_safe : ∀ es : List Expr, Expr.ShapedAll es → Safe (exprs es)
  | [], _ => by
    rw [exprs]
    exact .pure _
  | e :: es, h => by
    rw [exprs]
    refine .bind (expr_safe e h.1) fun x => ?_
    exact .bind (exprs_safe es h.2) fun xs => .pure _

end

/-- The check of a well-shaped program fails only for what the program means. -/
theorem program_safe {es : List Expr} (h : Expr.ShapedAll es) {e : LoweringError}
    (he : program es = .error e) : OfMeaning e := by
  have hprogram : program es = (exprs es {}).bind fun _ => .ok () := rfl
  rw [hprogram] at he
  cases hs : exprs es {} with
  | ok p =>
    rw [hs] at he
    cases he
  | error e' =>
    rw [hs] at he
    cases he
    exact exprs_safe es h {} e hs

end Wordlang.Static
