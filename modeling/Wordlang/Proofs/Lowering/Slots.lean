import Mathlib.Data.List.Forall2
import Wordlang.Proofs.Lowering.Accesses
import Wordlang.Proofs.Simulation.Frame

/-!
# The slots of a function

Every variable of a function has one slot for the whole life of the function, every call keeps its
result in a slot of its own, and the code of the function has one value for each access that the text
of its body asks for, in the same order.

The slot of a variable is told by the environment at the end of the body, since a slot is never given
up. So the proof looks at the code of a part of the body from there: `Binds` says how the environment
has changed in between.
-/

namespace Wordlang

open IR Lowering Builder Meaning

/-! ## Environments -/

/-- From the one environment to the other the names `xs` were assigned to. Variables kept their slots,
functions remained visible, and no function was visible under the name of a new variable. -/
structure Binds (env : Env) (xs : List String) (env' : Env) : Prop where
  opened : env'.scopes ≠ []
  slots : ∀ x v, env.findVar? x = some v → ∃ w, env'.findVar? x = some w ∧ w.slot = v.slot
  names : ∀ x, env'.findVar? x ≠ none ↔ env.findVar? x ≠ none ∨ x ∈ xs
  funcs : ∀ x, env'.findFunc? x = none → env.findFunc? x = none
  fresh : ∀ x, env.findVar? x = none → env'.findVar? x ≠ none → env.findFunc? x = none

namespace Binds

variable {env env' env'' : Env} {xs ys : List String}

theorem refl (h : env.scopes ≠ []) : Binds env [] env :=
  ⟨h, fun _ v hv => ⟨v, hv, rfl⟩, by simp, fun _ h => h, fun _ hnone hsome => absurd hnone hsome⟩

theorem trans (h : Binds env xs env') (h' : Binds env' ys env'') : Binds env (xs ++ ys) env'' := by
  refine ⟨h'.opened, ?_, ?_, fun x hx => h.funcs x (h'.funcs x hx), ?_⟩
  · intro x v hv
    obtain ⟨w, hw, hslot⟩ := h.slots x v hv
    obtain ⟨u, hu, hslot'⟩ := h'.slots x w hw
    exact ⟨u, hu, hslot'.trans hslot⟩
  · intro x
    rw [h'.names, h.names, List.mem_append, or_assoc]
  · intro x hnone hsome
    by_cases hx : env'.findVar? x = none
    · exact h.funcs x (h'.fresh x hx hsome)
    · exact h.fresh x hnone hx

/-- Assigning binds the name. -/
theorem assign {f k : Nat} {name : String} {type : Ty} {pos : Position} {slot : ValueRef}
    {ws : List Value} (henv : env.scopes ≠ []) (hfree : env.findFunc? name = none)
    (hslot : Assigns env f k name type pos slot ws) (sig : Option Signature) :
    Binds env [name] (bound env { name, slot, elem := type, sig }) := by
  refine ⟨scopes_bound_ne henv _, ?_, ?_, ?_, ?_⟩
  · intro x v hv
    rw [findVar?_bound henv]
    by_cases hx : name = x
    · subst hx
      rw [if_pos rfl]
      cases hslot with
      | old w hw ht =>
        obtain rfl := Option.some.inj (hw.symm.trans hv)
        exact ⟨_, rfl, rfl⟩
      | new hnone =>
        rw [hnone] at hv
        cases hv
    · rw [if_neg hx]
      exact ⟨v, hv, rfl⟩
  · intro x
    rw [findVar?_bound henv, List.mem_singleton]
    by_cases hx : name = x
    · simp [hx]
    · simp [hx, Ne.symm hx]
  · intro x hx
    rwa [Env.findFunc?_congr (funcs_bound _ _)] at hx
  · intro x hnone hsome
    rw [findVar?_bound henv] at hsome
    by_cases hx : name = x
    · exact hx ▸ hfree
    · rw [if_neg hx] at hsome
      exact absurd hnone hsome

/-- The body of a function binds nothing around it, and its functions remain visible. -/
theorem leave {name : String} {n : Nat} {names : List Ident} (henv : env.scopes ≠ [])
    (h : Binds (bodyEnv env name n names) xs env') :
    Binds env [] { env' with scopes := env.scopes } := by
  refine ⟨henv, fun _ v hv => ⟨v, hv, rfl⟩, fun x => by simp [Env.findVar?], ?_, ?_⟩
  · intro x hx
    have hbody : (bodyEnv env name n names).findFunc? x = none := h.funcs x hx
    rw [bodyEnv, Env.findFunc?_congr (spillEnv_eq _ _ _ _).1] at hbody
    have hdefine : (env.defineFunc { name, func := n, sig := userSignature names.length }).findFunc? x
        = none := hbody
    rw [Env.findFunc?_defineFunc _ _ rfl] at hdefine
    split at hdefine
    · cases hdefine
    · exact hdefine
  · intro x hnone hsome
    exact absurd hnone hsome

end Binds

theorem scopes_spillEnv (n k : Nat) (env : Env) (names : List Ident) (henv : env.scopes ≠ []) :
    (spillEnv n k env names).scopes ≠ [] := by
  induction names generalizing k env with
  | nil => exact henv
  | cons p ps ih => exact ih _ _ (scopes_bound_ne henv _)

theorem scopes_bodyEnv (env : Env) (name : String) (n : Nat) (names : List Ident) :
    (bodyEnv env name n names).scopes ≠ [] := scopes_spillEnv _ _ _ _ (List.cons_ne_nil _ _)

mutual

/-- Lowering an expression binds the names that it assigns to. -/
theorem binds_of_lowers {f k n : Nat} {env env' : Env} {e : Expr} {x : Operand} {vs : List Value}
    {new : List Draft} (henv : env.scopes ≠ []) : Lowers f env k n e x env' vs new →
      Binds env (e.actions.filterMap Action.target?) env'
  | .int .. => .refl henv
  | .string .. => .refl henv
  | .variable .. => .refl henv
  | .function .. => .refl henv
  | .define f k n env env' p pos target params body names symbol xs last vs new _ hbody _ _ =>
    (binds_of_lowersAll (scopes_bodyEnv _ _ _ _) hbody).leave henv
  | .assign f k n env env' pos target e x slot vs ws new hnot he hfree hslot => by
    have hvalue := binds_of_lowers henv he
    rw [Expr.actions_assign hnot, List.filterMap_append]
    exact hvalue.trans (.assign hvalue.opened hfree hslot x.sig)
  | .call f k n env env' pos callee args xs t sig vs ws new hargs _ _ _ _ => by
    rw [Expr.actions, List.filterMap_append]
    exact (List.append_nil _).symm ▸ binds_of_lowersAll henv hargs

theorem binds_of_lowersAll {f k n : Nat} {env env' : Env} {es : List Expr}
    {xs : List (Position × Operand)} {vs : List Value} {new : List Draft} (henv : env.scopes ≠ []) :
    LowersAll f env k n es xs env' vs new → Binds env (Expr.assignedAll es) env'
  | .nil .. => .refl henv
  | .cons f k n env env' env'' e es x xs vs ws new new' he hes => by
    have hfirst := binds_of_lowers henv he
    rw [Expr.assignedAll, Expr.actionsAll, List.filterMap_append]
    exact hfirst.trans (binds_of_lowersAll hfirst.opened hes)

end

/-! ## Values with their numbers -/

namespace IR.Op

/-- The operation calls a function. -/
def isCall : Op → Bool
  | .call => true
  | .callIndirect => true
  | _ => false

/-- The operation reads a slot, writes one, or calls a function. -/
def isAccess : Op → Bool
  | .load => true
  | .store => true
  | o => o.isCall

/-- The operation makes a slot. -/
def isSlot : Op → Bool
  | .alloca => true
  | _ => false

end IR.Op

/-- The values whose operations satisfy `p`, with their numbers, where the first value has number
`k`. -/
def numbered (p : Op → Bool) (k : Nat) (vs : List Value) : List (Value × Nat) :=
  (vs.zipIdx k).filter fun v => p v.1.op

section Numbered

variable {p : Op → Bool} {k : Nat} {v : Value} {vs ws : List Value}

theorem numbered_append (p : Op → Bool) (k : Nat) (vs ws : List Value) :
    numbered p k (vs ++ ws) = numbered p k vs ++ numbered p (k + vs.length) ws := by
  rw [numbered, List.zipIdx_append, List.filter_append]
  rfl

theorem numbered_cons (p : Op → Bool) (k : Nat) (v : Value) (vs : List Value) :
    numbered p k (v :: vs) = (if p v.op then [(v, k)] else []) ++ numbered p (k + 1) vs := by
  rw [numbered, List.zipIdx_cons, List.filter_cons]
  split <;> rfl

@[simp] theorem numbered_nil (p : Op → Bool) (k : Nat) : numbered p k [] = [] := rfl

theorem numbered_singleton (p : Op → Bool) (k : Nat) (v : Value) :
    numbered p k [v] = if p v.op then [(v, k)] else [] := by
  rw [numbered_cons, numbered_nil, List.append_nil]

theorem numbered_eq_nil (h : ∀ v ∈ vs, p v.op = false) (k : Nat) : numbered p k vs = [] := by
  induction vs generalizing k with
  | nil => rfl
  | cons v vs ih =>
    rw [numbered_cons, h v List.mem_cons_self, ih fun w hw => h w (List.mem_cons_of_mem _ hw)]
    rfl

theorem mem_numbered {i : Nat} : (v, k + i) ∈ numbered p k vs ↔ vs[i]? = some v ∧ p v.op := by
  rw [numbered, List.mem_filter, List.mk_add_mem_zipIdx_iff_getElem?]

end Numbered

/-- The slots that the values make. -/
def slotsMade (f k : Nat) (vs : List Value) : List ValueRef :=
  (numbered Op.isSlot k vs).map fun v => ⟨f, v.2⟩

/-- The slots for the results of the calls among the values: each is made right after its call. -/
def resultSlots (f k : Nat) (vs : List Value) : List ValueRef :=
  (numbered Op.isCall k vs).map fun v => ⟨f, v.2 + 1⟩

theorem slotsMade_append (f k : Nat) (vs ws : List Value) :
    slotsMade f k (vs ++ ws) = slotsMade f k vs ++ slotsMade f (k + vs.length) ws := by
  rw [slotsMade, numbered_append, List.map_append]
  rfl

theorem resultSlots_append (f k : Nat) (vs ws : List Value) :
    resultSlots f k (vs ++ ws) = resultSlots f k vs ++ resultSlots f (k + vs.length) ws := by
  rw [resultSlots, numbered_append, List.map_append]
  rfl

/-- The slot of a variable. -/
def slotIn (env : Env) (name : String) : ValueRef :=
  ((env.findVar? name).map (·.slot)).getD ⟨0, 0⟩

theorem slotIn_eq {env : Env} {name : String} {v : Binding} (h : env.findVar? name = some v) :
    slotIn env name = v.slot := by
  rw [slotIn, h]
  rfl

theorem Binds.slotIn_eq {env env' : Env} {xs : List String} (h : Binds env xs env') {name : String}
    (hname : env.findVar? name ≠ none) : slotIn env' name = slotIn env name := by
  obtain ⟨v, hv⟩ := Option.ne_none_iff_exists'.1 hname
  obtain ⟨w, hw, hslot⟩ := h.slots name v hv
  rw [Wordlang.slotIn_eq hv, Wordlang.slotIn_eq hw, hslot]

/-! ## The slots that are made -/

/-- The slots that the values make are those of the variables that are new in the second environment,
and those for the results of calls. -/
def Makes (f k : Nat) (env env' : Env) (vs : List Value) : Prop :=
  ∃ xs : List String, xs.Nodup ∧
    (∀ x, x ∈ xs ↔ env.findVar? x = none ∧ env'.findVar? x ≠ none) ∧
    (slotsMade f k vs).Perm (xs.map (slotIn env') ++ resultSlots f k vs)

namespace Makes

variable {f k : Nat} {env env' env'' : Env} {vs ws : List Value}

/-- Where no variable is new, there are only the slots for results. -/
theorem of_same (hvars : ∀ x, env.findVar? x = none → env'.findVar? x = none)
    (hslots : slotsMade f k vs = resultSlots f k vs) : Makes f k env env' vs := by
  refine ⟨[], List.nodup_nil, fun x => ?_, ?_⟩
  · simpa using hvars x
  · rw [hslots, List.map_nil, List.nil_append]

theorem append {ys zs : List String} (h : Makes f k env env' vs)
    (h' : Makes f (k + vs.length) env' env'' ws) (hfirst : Binds env ys env')
    (hsecond : Binds env' zs env'') : Makes f k env env'' (vs ++ ws) := by
  obtain ⟨xs, hnodup, hnew, hperm⟩ := h
  obtain ⟨xs', hnodup', hnew', hperm'⟩ := h'
  have hkept : xs.map (slotIn env'') = xs.map (slotIn env') := by
    apply List.map_congr_left
    intro x hx
    exact hsecond.slotIn_eq ((hnew x).1 hx).2
  refine ⟨xs ++ xs', List.nodup_append.2 ⟨hnodup, hnodup', ?_⟩, fun x => ?_, ?_⟩
  · rintro x hx y hy rfl
    exact ((hnew x).1 hx).2 ((hnew' x).1 hy).1
  · have hbefore := hfirst.names x
    have hafter := hsecond.names x
    rw [List.mem_append, hnew, hnew']
    tauto
  · rw [slotsMade_append, resultSlots_append, List.map_append, hkept]
    refine (hperm.append hperm').trans ?_
    rw [List.perm_iff_count]
    intro r
    simp only [List.count_append]
    omega

end Makes

/-! ### Single steps -/

/-- A call ends with the value of the call, and only reads before. -/
theorem invokeCode_ends (f k : Nat) (t : Target) (sig : Signature) (xs : List (Position × Operand))
    (pos : Position) : ∃ ls v, invokeCode f k t sig xs pos = ls ++ [v] ∧ (∀ w ∈ ls, w.op = .load) ∧
      v.op.isCall = true ∧ v.pos = pos := by
  cases t with
  | direct g => exact ⟨_, _, rfl, fun w hw => op_readsCode hw, rfl, rfl⟩
  | indirect slot =>
    let call := Draft.placed f { op := .callIndirect, type := sig.result, aux := .signature sig, pos }
      (⟨f, k + (readsCode f xs).length⟩ :: readRefs f k xs)
    have heq : invokeCode f k (.indirect slot) sig xs pos =
        readsCode f xs ++ ([loadCode f .ptr slot pos] ++ [call]) := rfl
    refine ⟨readsCode f xs ++ [loadCode f .ptr slot pos], call, ?_, ?_, rfl, rfl⟩
    · rw [heq, List.append_assoc]
    intro w hw
    rcases List.mem_append.1 hw with hw | hw
    · exact op_readsCode hw
    · rw [List.mem_singleton.1 hw]
      rfl

/-- An assignment makes a slot for a variable that has none. -/
theorem makes_assign {f k : Nat} {env : Env} {name : String} {type : Ty} {pos : Position}
    {slot r : ValueRef} {ls ws : List Value} (henv : env.scopes ≠ []) (hls : ∀ w ∈ ls, w.op = .load)
    (hslot : Assigns env f (k + ls.length) name type pos slot ws) (sig : Option Signature) :
    Makes f k env (bound env { name, slot, elem := type, sig })
      (ls ++ ws ++ [storeCode f slot r pos]) := by
  have hload : ∀ p : Op → Bool, p .load = false → ∀ j, numbered p j ls = [] := by
    intro p hp j
    exact numbered_eq_nil (fun w hw => by rw [hls w hw, hp]) j
  have hstore : ∀ p : Op → Bool, p .store = false → ∀ j,
      numbered p j [storeCode f slot r pos] = [] := by
    intro p hp j
    rw [numbered_singleton]
    exact if_neg (by simp [storeCode, Draft.placed, hp])
  cases hslot with
  | old v hv ht =>
    refine .of_same (fun x hx => ?_) ?_
    · rw [findVar?_bound henv]
      rw [if_neg]
      · exact hx
      · rintro rfl
        rw [hv] at hx
        cases hx
    · rw [slotsMade, resultSlots, List.append_nil, numbered_append, numbered_append,
        hload _ rfl, hload _ rfl, hstore _ rfl, hstore _ rfl]
      rfl
  | new hnone =>
    refine ⟨[name], List.nodup_singleton _, fun x => ?_, ?_⟩
    · rw [List.mem_singleton, findVar?_bound henv]
      by_cases hx : name = x
      · simp [← hx, hnone]
      · simp [hx, Ne.symm hx]
    · have hresults : resultSlots f k (ls ++ [slotCode f type name pos] ++
          [storeCode f ⟨f, k + ls.length⟩ r pos]) = [] := by
        rw [resultSlots, numbered_append, numbered_append, hload _ rfl, hstore _ rfl]
        rfl
      have hslots : slotsMade f k (ls ++ [slotCode f type name pos] ++
          [storeCode f ⟨f, k + ls.length⟩ r pos]) = [⟨f, k + ls.length⟩] := by
        rw [slotsMade, numbered_append, numbered_append, hload _ rfl, hstore _ rfl]
        rfl
      rw [hresults, hslots, List.append_nil, List.map_singleton, slotIn_eq (by
        rw [findVar?_bound henv, if_pos rfl])]

/-- A call makes a slot for its result, right after the call. -/
theorem makes_call (f k : Nat) (env : Env) (t : Target) (sig : Signature)
    (xs : List (Position × Operand)) (type : Ty) (name : String) (pos : Position) :
    Makes f k env env (invokeCode f k t sig xs pos ++
      keepCode f (k + (invokeCode f k t sig xs pos).length) type name pos) := by
  obtain ⟨ls, v, heq, hls, hv, -⟩ := invokeCode_ends f k t sig xs pos
  have hload : ∀ p : Op → Bool, p .load = false → ∀ j, numbered p j ls = [] := by
    intro p hp j
    exact numbered_eq_nil (fun w hw => by rw [hls w hw, hp]) j
  have hslot : v.op.isSlot = false := by
    revert hv
    cases v.op <;> simp [Op.isCall, Op.isSlot]
  refine .of_same (fun _ h => h) ?_
  rw [heq, slotsMade, resultSlots]
  simp only [numbered_append, hload Op.isSlot rfl, hload Op.isCall rfl, numbered_singleton, hv,
    hslot, List.nil_append, if_true, Bool.false_eq_true, if_false, List.length_append,
    List.length_singleton]
  rfl

/-! ### The run -/

mutual

theorem makes_of_lowers {f k n : Nat} {env env' : Env} {e : Expr} {x : Operand} {vs : List Value}
    {new : List Draft} (henv : env.scopes ≠ []) :
    Lowers f env k n e x env' vs new → Makes f k env env' vs
  | .int .. => .of_same (fun _ h => h) rfl
  | .string .. => .of_same (fun _ h => h) rfl
  | .variable .. => .of_same (fun _ h => h) rfl
  | .function .. => .of_same (fun _ h => h) rfl
  | .define .. => .of_same (fun _ h => h) rfl
  | .assign f k n env env' pos target e x slot vs ws new hnot he hfree hslot => by
    have hvalue := binds_of_lowers henv he
    exact (makes_of_lowers henv he).append
      (makes_assign hvalue.opened (fun _ hw => op_readCode hw) hslot x.sig) hvalue
      (.assign hvalue.opened hfree hslot x.sig)
  | .call f k n env env' pos callee args xs t sig vs ws new hargs _ _ _ hws => by
    have hbinds := binds_of_lowersAll henv hargs
    subst hws
    exact (makes_of_lowersAll henv hargs).append (makes_call ..) hbinds (.refl hbinds.opened)

theorem makes_of_lowersAll {f k n : Nat} {env env' : Env} {es : List Expr}
    {xs : List (Position × Operand)} {vs : List Value} {new : List Draft} (henv : env.scopes ≠ []) :
    LowersAll f env k n es xs env' vs new → Makes f k env env' vs
  | .nil .. => .of_same (fun _ h => h) rfl
  | .cons f k n env env' env'' e es x xs vs ws new new' he hes => by
    have hbinds := binds_of_lowers henv he
    exact (makes_of_lowers henv he).append (makes_of_lowersAll hbinds.opened hes) hbinds
      (binds_of_lowersAll hbinds.opened hes)

end

end Wordlang
