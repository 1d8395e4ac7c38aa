import Mathlib.Data.List.Forall2
import Wordlang.Expr
import Wordlang.Lowering.Env
import Wordlang.Lowering.Event
import Wordlang.Proofs.Utf8.Order

/-!
# Reports

What is done while a program is lowered, and how that is reported. The report of a definition and
the end of its scope enclose the report of its body; the end of a scope lists the parameters and the
names that the body had assigned to by then. So the reports of definitions and the ends of scopes are
nested like brackets.
-/

namespace Wordlang

/-! ## Steps -/

/-- Something that is done while a body is lowered. -/
inductive BodyStep where
  /-- A value is assigned to the name. -/
  | assigned (name : String)
  /-- A function is defined; inside its body this is done. -/
  | defined (name : String) (params : List String) (pos : Position) (inside : List BodyStep)

namespace BodyStep

/-- The name that a value is assigned to. -/
def target? : BodyStep → Option String
  | assigned name => some name
  | defined .. => none

/-- The names that values are assigned to in a body, functions in it apart. -/
def targets (steps : List BodyStep) : List String := steps.filterMap target?

@[simp] theorem targets_nil : targets [] = [] := rfl

@[simp] theorem targets_append (steps steps' : List BodyStep) :
    targets (steps ++ steps') = targets steps ++ targets steps' := List.filterMap_append

end BodyStep

namespace Expr

/-- The names among expressions. -/
def parameters (es : List Expr) : List String :=
  es.filterMap fun
    | name id => some id.name
    | _ => none

mutual

/-- What there is to do in an expression, in the order of the text. -/
def steps : Expr → List BodyStep
  | assign _ target (function pos params body) =>
    [.defined target.name (parameters params) pos (stepsAll body)]
  | assign _ target value => steps value ++ [.assigned target.name]
  | call _ _ args => stepsAll args
  | _ => []

/-- The same for expressions that stand one after the other. -/
def stepsAll : List Expr → List BodyStep
  | [] => []
  | e :: es => steps e ++ stepsAll es

end

theorem steps_assign {value : Expr} (h : ∀ pos params body, value ≠ function pos params body)
    (pos : Position) (target : Ident) :
    (assign pos target value).steps = value.steps ++ [.assigned target.name] := by
  rw [steps]
  exact h

end Expr

/-! ## The variables of a scope -/

/-- The list has the given names, each once, in the order of their bytes. -/
structure Lists (vars names : List String) : Prop where
  sorted : vars.Pairwise fun x y => Text.Utf8.ofString x < Text.Utf8.ofString y
  mem : ∀ x, x ∈ vars ↔ x ∈ names

theorem lists_names {s : Scope} {names : List String} (hnodup : (s.vars.map (·.name)).Nodup)
    (hmem : ∀ x, x ∈ s.vars.map (·.name) ↔ x ∈ names) : Lists s.names names := by
  have hperm := List.mergeSort_perm (s.vars.map (·.name)) fun a b => !decide (b < a)
  have hsorted : s.names.Pairwise fun a b => (!decide (b < a)) = true := by
    refine List.pairwise_mergeSort (fun a b c hab hbc => ?_) (fun a b => ?_) _
    · simp only [Bool.not_eq_true', decide_eq_false_iff_not, String.not_lt] at hab hbc ⊢
      exact String.le_trans hab hbc
    · simp only [Bool.or_eq_true, Bool.not_eq_true', decide_eq_false_iff_not, String.not_lt]
      exact String.le_total a b
  have hdistinct : s.names.Nodup := hperm.nodup_iff.2 hnodup
  refine ⟨(hsorted.and hdistinct).imp ?_, fun x => ?_⟩
  · rintro a b ⟨hle, hne⟩
    simp only [Bool.not_eq_true', decide_eq_false_iff_not, String.not_lt] at hle
    refine Text.Utf8.ofString_lt (Decidable.byContradiction fun hnot => ?_)
    exact hne (String.le_antisymm hle (String.not_lt.1 hnot))
  · rw [← hmem]
    exact hperm.mem_iff

/-! ## Reports of steps -/

/-- The events are the report of the steps. -/
inductive IsReport : List BodyStep → List Event → Prop
  | nil : IsReport [] []
  | assigned (name : String) (steps : List BodyStep) (evs : List Event) (h : IsReport steps evs) :
    IsReport (.assigned name :: steps) evs
  | defined (name symbol : String) (params : List String) (pos : Position)
    (inside steps : List BodyStep) (inner evs : List Event) (vars : List String)
    (hinside : IsReport inside inner) (hvars : Lists vars (params ++ BodyStep.targets inside))
    (h : IsReport steps evs) :
    IsReport (.defined name params pos inside :: steps)
      (.function name symbol params pos :: inner ++ [.scopeClosed ("function " ++ name) vars] ++ evs)

theorem IsReport.append {steps steps' : List BodyStep} {evs evs' : List Event}
    (h : IsReport steps evs) (h' : IsReport steps' evs') :
    IsReport (steps ++ steps') (evs ++ evs') := by
  induction h with
  | nil => exact h'
  | assigned name steps evs _ ih => exact .assigned name _ _ ih
  | defined name symbol params pos inside steps inner evs vars hinside hvars _ _ ih =>
    rw [List.cons_append, List.append_assoc]
    exact .defined name symbol params pos inside _ inner _ vars hinside hvars ih

/-- The report of the expressions of a program, the first of which has number `i`, as far as the turn
came to them: what was done in each of them is given. -/
inductive IsReportFrom : Nat → List Expr → List (List BodyStep) → List Event → Prop
  | nil (i : Nat) (es : List Expr) : IsReportFrom i es [] []
  | cons (i : Nat) (e : Expr) (es : List Expr) (steps : List BodyStep) (rest : List (List BodyStep))
    (evs evs' : List Event) (h : IsReport steps evs) (hrest : IsReportFrom (i + 1) es rest evs') :
    IsReportFrom i (e :: es) (steps :: rest) (.expression i e.kind e.pos :: evs ++ evs')

/-! ## Brackets -/

namespace Event

/-- The number of the expression that is about to be lowered. -/
def index? : Event → Option Nat
  | expression index .. => some index
  | _ => none

/-- The symbol of the function that is defined. -/
def symbol? : Event → Option String
  | function _ symbol .. => some symbol
  | _ => none

/-- Whether the event reports a whole program. -/
def isFinished : Event → Bool
  | finished .. => true
  | _ => false

/-- The titles of the scopes that are open after an event, innermost first, if those are given that
were open before it. Only the innermost scope can be closed. -/
def nest? (titles : List String) : Event → Option (List String)
  | function name .. => some (("function " ++ name) :: titles)
  | scopeClosed title _ => if titles.head? = some title then some titles.tail else none
  | _ => some titles

end Event

variable {steps : List BodyStep} {evs : List Event}

theorem IsReport.index? (h : IsReport steps evs) : evs.filterMap Event.index? = [] := by
  induction h with
  | nil => rfl
  | assigned _ _ _ _ ih => exact ih
  | defined _ _ _ _ _ _ _ _ _ _ _ _ ihinside ih =>
    simp only [List.filterMap_append, List.filterMap_cons, List.filterMap_nil, Event.index?,
      ihinside, ih, List.append_nil]

theorem IsReport.isFinished (h : IsReport steps evs) : ∀ ev ∈ evs, ev.isFinished = false := by
  induction h with
  | nil => exact nofun
  | assigned _ _ _ _ ih => exact ih
  | defined _ _ _ _ _ _ _ _ _ _ _ _ ihinside ih =>
    intro ev hev
    simp only [List.cons_append, List.append_assoc, List.nil_append, List.mem_cons,
      List.mem_append] at hev
    rcases hev with rfl | hev | rfl | hev
    · rfl
    · exact ihinside ev hev
    · rfl
    · exact ih ev hev

/-- What is opened in a report is closed in it. -/
theorem IsReport.nest? (h : IsReport steps evs) (titles : List String) :
    evs.foldlM Event.nest? titles = some titles := by
  induction h generalizing titles with
  | nil => rfl
  | assigned _ _ _ _ ih => exact ih titles
  | defined name _ _ _ _ _ _ _ _ _ _ _ ihinside ih =>
    rw [List.append_assoc, List.cons_append, List.foldlM_cons, Event.nest?, Option.bind_eq_bind,
      Option.bind_some, List.foldlM_append, ihinside]
    simp [Event.nest?, ih]

variable {i : Nat} {es : List Expr} {done : List (List BodyStep)}

/-- The expressions are numbered without a gap. -/
theorem IsReportFrom.index? (h : IsReportFrom i es done evs) :
    evs.filterMap Event.index? = List.range' i done.length := by
  induction h with
  | nil => rfl
  | cons i e es steps rest evs evs' h _ ih =>
    rw [List.length_cons, List.range'_succ, List.cons_append, List.filterMap_cons, Event.index?,
      List.filterMap_append, h.index?, ih, List.nil_append]

theorem IsReportFrom.isFinished (h : IsReportFrom i es done evs) :
    ∀ ev ∈ evs, ev.isFinished = false := by
  induction h with
  | nil => exact nofun
  | cons i e es steps rest evs evs' h _ ih =>
    intro ev hev
    rcases List.mem_append.1 hev with hev | hev
    · rcases List.mem_cons.1 hev with rfl | hev
      · rfl
      · exact h.isFinished ev hev
    · exact ih ev hev

theorem IsReportFrom.nest? (h : IsReportFrom i es done evs) (titles : List String) :
    evs.foldlM Event.nest? titles = some titles := by
  induction h with
  | nil => rfl
  | cons i e es steps rest evs evs' h _ ih =>
    have hopen : Event.nest? titles (.expression i e.kind e.pos) = some titles := rfl
    rw [List.cons_append, List.foldlM_cons, hopen, Option.bind_eq_bind, Option.bind_some,
      List.foldlM_append, h.nest?]
    exact ih

/-! ## The end of a report -/

/-- The last events are the ends of the scopes of the functions named `names`, outermost first: the
innermost one is closed first. -/
def Closes (evs : List Event) (names : List String) : Prop :=
  ∃ pre closings, evs = pre ++ closings ∧
    List.Forall₂ (fun name ev => ∃ vars, ev = Event.scopeClosed ("function " ++ name) vars)
      names.reverse closings

theorem Closes.none (evs : List Event) : Closes evs [] := ⟨evs, [], by simp, .nil⟩

theorem Closes.prepend {names : List String} (h : Closes evs names) (evs' : List Event) :
    Closes (evs' ++ evs) names := by
  obtain ⟨pre, closings, rfl, hclosings⟩ := h
  exact ⟨evs' ++ pre, closings, by rw [List.append_assoc], hclosings⟩

theorem Closes.close {names : List String} (h : Closes evs names) (name : String)
    (vars : List String) :
    Closes (evs ++ [.scopeClosed ("function " ++ name) vars]) (name :: names) := by
  obtain ⟨pre, closings, rfl, hclosings⟩ := h
  refine ⟨pre, closings ++ [.scopeClosed ("function " ++ name) vars], by rw [List.append_assoc], ?_⟩
  rw [List.reverse_cons]
  exact List.rel_append hclosings (.cons ⟨vars, rfl⟩ .nil)

end Wordlang
