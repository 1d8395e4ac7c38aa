import Wordlang.Lowering.Expr
import Wordlang.Proofs.Draft
import Wordlang.Proofs.Outcome

/-!
# The steps of lowering

What each step of lowering that does not lower an expression itself appends to the function at hand,
and what it does to the environment. Every later fact about lowering rests on these descriptions, and
none looks into the steps again.

The description of a step that may fail has two parts: what it has written when it succeeds, and what
it has written when it fails.
-/

namespace Wordlang

open IR Outcome

namespace IR.Draft

/-- Appends values. -/
def append (d : Draft) (vs : List Value) : Draft := { d with code := d.code ++ vs }

@[simp] theorem append_nil (d : Draft) : d.append [] = d := by simp [append]

@[simp] theorem append_append (d : Draft) (vs ws : List Value) :
    (d.append vs).append ws = d.append (vs ++ ws) := by simp [append]

@[simp] theorem code_append (d : Draft) (vs : List Value) : (d.append vs).code = d.code ++ vs := rfl

@[simp] theorem result_append (d : Draft) (vs : List Value) : (d.append vs).result = d.result := rfl

@[simp] theorem sig_append (d : Draft) (vs : List Value) : (d.append vs).sig = d.sig := rfl

@[simp] theorem name_append (d : Draft) (vs : List Value) : (d.append vs).name = d.name := rfl

end IR.Draft

namespace Builder

/-- New values go to the function `f`, whose draft among `ds` is `d`. -/
structure At (b : Builder) (ds : List Draft) (f : Nat) (d : Draft) : Prop where
  drafted : b.module.Drafted ds
  site : b.site = ⟨f, 0⟩
  here : ds[f]? = some d
  inside : d.external = false

/-- The state `b'` is reached from `b` by appending the values `vs` to the function at hand, and has
the environment `env`. -/
structure Wrote (b : Builder) (ds : List Draft) (f : Nat) (d : Draft) (vs : List Value) (env : Env)
    (b' : Builder) : Prop where
  now : At b' (ds.set f (d.append vs)) f (d.append vs)
  env_eq : b'.env = env
  rest_eq : b'.module.rest = b.module.rest

variable {b b' : Builder} {ds : List Draft} {f : Nat} {d : Draft} {vs ws : List Value}
  {env env' : Env}

theorem At.lt_length (h : At b ds f d) : f < ds.length := (List.getElem?_eq_some_iff.1 h.here).1

theorem At.set_self (h : At b ds f d) : ds.set f d = ds := by
  obtain ⟨hlt, hd⟩ := List.getElem?_eq_some_iff.1 h.here
  rw [← hd, List.set_getElem_self]

theorem At.with_env (h : At b ds f d) (env : Env) : At { b with env } ds f d :=
  ⟨h.drafted, h.site, h.here, h.inside⟩

theorem At.with_events (h : At b ds f d) (events : List Event) : At { b with events } ds f d :=
  ⟨h.drafted, h.site, h.here, h.inside⟩

theorem Wrote.refl (h : At b ds f d) : Wrote b ds f d [] b.env b := by
  refine ⟨?_, rfl, rfl⟩
  rw [Draft.append_nil, h.set_self]
  exact h

theorem Wrote.trans {b'' : Builder} (h : Wrote b ds f d vs env b')
    (h' : Wrote b' (ds.set f (d.append vs)) f (d.append vs) ws env' b'') :
    Wrote b ds f d (vs ++ ws) env' b'' := by
  refine ⟨?_, h'.env_eq, h'.rest_eq.trans h.rest_eq⟩
  have := h'.now
  rwa [List.set_set, Draft.append_append] at this

end Builder

namespace Lowering

open Builder

variable {b : Builder} {ds : List Draft} {f : Nat} {d : Draft}

/-! ## Values that are written -/

/-- The number of the value that is written next. -/
def next (f : Nat) (d : Draft) : ValueRef := ⟨f, d.code.length⟩

/-- Reads a slot. -/
def loadCode (f : Nat) (type : Ty) (slot : ValueRef) (pos : Position) : Value :=
  Draft.placed f { op := .load, type, pos } [slot]

/-- Writes a slot. -/
def storeCode (f : Nat) (slot v : ValueRef) (pos : Position) : Value :=
  Draft.placed f { op := .store, type := .void, pos } [slot, v]

/-- A fresh slot. -/
def slotCode (f : Nat) (elem : Ty) (name : String) (pos : Position) : Value :=
  Draft.placed f { op := .alloca, type := .ptr, elem, aux := .name name, pos } []

/-- What is written to read an operand. -/
def readCode (f : Nat) (pos : Position) (x : Operand) : List Value :=
  if x.isSlot then [loadCode f x.type x.ref pos] else []

/-- The value of an operand once it is read, when `k` values have been written before. -/
def readRef (f k : Nat) (x : Operand) : ValueRef := if x.isSlot then ⟨f, k⟩ else x.ref

/-- What is written to read the arguments of a call. -/
def readsCode (f : Nat) (xs : List (Position × Operand)) : List Value :=
  xs.flatMap fun x => readCode f x.1 x.2

theorem op_readCode {f : Nat} {pos : Position} {x : Operand} {v : Value}
    (h : v ∈ readCode f pos x) : v.op = .load := by
  rw [readCode] at h
  split at h
  · rw [List.mem_singleton.1 h]
    rfl
  · cases h

theorem op_readsCode {f : Nat} {xs : List (Position × Operand)} {v : Value}
    (h : v ∈ readsCode f xs) : v.op = .load := by
  obtain ⟨x, -, hx⟩ := List.mem_flatMap.1 h
  exact op_readCode hx

/-- The values of the arguments of a call once they are read. -/
def readRefs (f k : Nat) : List (Position × Operand) → List ValueRef
  | [] => []
  | (pos, x) :: xs => readRef f k x :: readRefs f (k + (readCode f pos x).length) xs

/-- The arguments have the types of the parameters, as far as there are parameters. -/
def Fit : List Ty → List (Position × Operand) → Prop
  | _, [] => True
  | types, (_, x) :: xs => (∀ t, types.head? = some t → x.type = t) ∧ Fit types.tail xs

/-! ## Writing -/

theorem emit_eq (b : Builder) (v : Value) (args : List ValueRef) :
    emit v args b = .ok (b.module.addValue b.site.func b.site v args).1
      { b with module := (b.module.addValue b.site.func b.site v args).2 } := rfl

theorem emit_spec (h : At b ds f d) (v : Value) (args : List ValueRef) :
    ∃ b', emit v args b = .ok (next f d) b' ∧
      Wrote b ds f d [Draft.placed f v args] b.env b' := by
  obtain ⟨h1, h2⟩ := h.drafted.addValue h.here h.inside v args
  refine ⟨{ b with module := (b.module.addValue f ⟨f, 0⟩ v args).2 }, ?_, ⟨⟨h2, h.site, ?_, h.inside⟩,
    rfl, Module.Drafted.rest_addValue _ _ _ _⟩⟩
  · rw [emit_eq, h.site, h1]
    rfl
  · exact List.getElem?_set_self h.lt_length

theorem emitRead_spec (h : At b ds f d) (x : Operand) (pos : Position) :
    ∃ b', emitRead x pos b = .ok (readRef f d.code.length x) b' ∧
      Wrote b ds f d (readCode f pos x) b.env b' := by
  unfold emitRead readRef readCode
  by_cases hx : x.isSlot = true
  · simp only [hx, if_true]
    exact emit_spec h _ _
  · simp only [hx]
    exact ⟨b, rfl, Wrote.refl h⟩

theorem emitFuncAddr_spec (h : At b ds f d) (g : Nat) (sig : Signature) (pos : Position) :
    ∃ b', emitFuncAddr g sig pos b = .ok { ref := next f d, type := .ptr, sig := some sig } b' ∧
      Wrote b ds f d [Draft.placed f { op := .funcAddr, type := .ptr, aux := .func g, pos } []]
        b.env b' := by
  obtain ⟨b', hb', hw⟩ := emit_spec h { op := .funcAddr, type := .ptr, aux := .func g, pos } []
  refine ⟨b', ?_, hw⟩
  rw [emitFuncAddr, bind_ok hb']
  rfl

theorem stringLiteral_spec (h : At b ds f d) (pos : Position) (content : String) :
    ∃ data g b', stringLiteral pos content b = .ok { ref := next f d, type := .ptr } b' ∧
      Wrote { b with module := (b.module.internString data).2 } ds f d
        [Draft.placed f { op := .globalAddr, type := .ptr, aux := .global g, pos } []] b.env b' := by
  let data := Text.Utf8.ofString (String.ofList (unescape content.toList))
  have hat : At { b with module := (b.module.internString data).2 } ds f d :=
    ⟨h.drafted.internString data, h.site, h.here, h.inside⟩
  let v : Value :=
    { op := .globalAddr, type := .ptr, aux := .global (b.module.internString data).1, pos }
  obtain ⟨b', hb', hw⟩ := emit_spec hat v []
  refine ⟨data, _, b', ?_, hw⟩
  -- interning is the first step, and always succeeds
  have hsplit : stringLiteral pos content b =
      (emit v [] >>= fun r => (pure { ref := r, type := .ptr } : Lowering Operand))
        { b with module := (b.module.internString data).2 } := rfl
  rw [hsplit, bind_ok hb']
  rfl

/-- A name as a value is the variable of that name, or else the address of the function. -/
theorem nameValue_spec (h : At b ds f d) (id : Ident) :
    (∃ v, b.env.findVar? id.name = some v ∧ nameValue id b =
      .ok { ref := v.slot, type := v.elem, isSlot := true, sig := v.sig } b) ∨
    (∃ c b', b.env.findVar? id.name = none ∧ b.env.findFunc? id.name = some c ∧ nameValue id b =
        .ok { ref := next f d, type := .ptr, sig := some c.sig } b' ∧
      Wrote b ds f d
        [Draft.placed f { op := .funcAddr, type := .ptr, aux := .func c.func, pos := id.pos } []]
        b.env b') ∨
    ∃ e, nameValue id b = .error e b := by
  have hget : (get : Lowering Builder) b = .ok b b := rfl
  rw [nameValue, bind_ok hget]
  cases hv : b.env.findVar? id.name with
  | some v => exact .inl ⟨v, rfl, rfl⟩
  | none =>
    cases hc : b.env.findFunc? id.name with
    | some c =>
      obtain ⟨b', hb', hw⟩ := emitFuncAddr_spec h c.func c.sig id.pos
      exact .inr (.inl ⟨c, b', rfl, rfl, hb', hw⟩)
    | none => exact .inr (.inr ⟨_, rfl⟩)

/-! ## Assigning -/

/-- The environment with a variable bound in its innermost scope. -/
def bound (env : Env) (v : Binding) : Env := (env.defineVar? v).getD env

theorem emitSlot_spec (h : At b ds f d) (elem : Ty) (name : String) (pos : Position) :
    ∃ b', emitSlot elem name pos b = .ok (next f d) b' ∧
      Wrote b ds f d [slotCode f elem name pos] b.env b' :=
  emit_spec h _ _

theorem emitStore_spec (h : At b ds f d) (slot v : ValueRef) (pos : Position) :
    ∃ b', emitStore slot v pos b = .ok () b' ∧ Wrote b ds f d [storeCode f slot v pos] b.env b' := by
  obtain ⟨b', hb', hw⟩ := emit_spec h { op := .store, type := .void, pos } [slot, v]
  refine ⟨b', ?_, hw⟩
  rw [emitStore, bind_ok hb']
  rfl

theorem bindVar_spec {b' : Builder} {vs : List Value} {env : Env} (h : Wrote b ds f d vs env b')
    (v : Binding) : ∃ b'', bindVar v b' = .ok () b'' ∧ Wrote b ds f d vs (bound env v) b'' := by
  refine ⟨{ b' with env := bound b'.env v }, rfl, h.now.with_env _, ?_, h.rest_eq⟩
  rw [h.env_eq]

/-- The slot that an assignment to `name` writes, when `k` values have been written, and what is
written to make it. A variable keeps its slot and the type of what it holds. -/
inductive Assigns (env : Env) (f k : Nat) (name : String) (type : Ty) (pos : Position) :
    ValueRef → List Value → Prop
  | old (v : Binding) (hv : env.findVar? name = some v) (ht : v.elem = type) :
    Assigns env f k name type pos v.slot []
  | new (hv : env.findVar? name = none) :
    Assigns env f k name type pos ⟨f, k⟩ [slotCode f type name pos]

/-- An assignment reads the value, and then stores it in the slot of the variable unless the name is
taken by a function or the variable has another type. -/
theorem assignValue_spec (h : At b ds f d) (pos : Position) (name : String) (x : Operand) :
    (∃ slot vs b', assignValue pos name x b =
        .ok { ref := readRef f d.code.length x, type := x.type, sig := x.sig } b' ∧
      b.env.findFunc? name = none ∧
      Assigns b.env f (d.code ++ readCode f pos x).length name x.type pos slot vs ∧
      Wrote b ds f d
        (readCode f pos x ++ vs ++ [storeCode f slot (readRef f d.code.length x) pos])
        (bound b.env { name, slot, elem := x.type, sig := x.sig }) b') ∨
    ∃ e b', assignValue pos name x b = .error e b' ∧
      Wrote b ds f d (readCode f pos x) b.env b' := by
  obtain ⟨b1, hb1, hw1⟩ := emitRead_spec h x pos
  have hget : (get : Lowering Builder) b1 = .ok b1 b1 := rfl
  rw [assignValue, bind_ok hb1, bind_ok hget, hw1.env_eq]
  cases hf : b.env.findFunc? name with
  | some c => exact .inr ⟨_, b1, rfl, hw1⟩
  | none =>
    cases hv : b.env.findVar? name with
    | some old =>
      by_cases ht : old.elem = x.type
      · obtain ⟨b2, hb2, hw2⟩ :=
          emitStore_spec hw1.now old.slot (readRef f d.code.length x) pos
        rw [hw1.env_eq] at hw2
        obtain ⟨b', hb', hw'⟩ := bindVar_spec (hw1.trans hw2)
          { name, slot := old.slot, elem := x.type, sig := x.sig }
        refine .inl ⟨old.slot, [], b', ?_, rfl, .old old hv ht, by simpa using hw'⟩
        simp only [Option.isSome_none, Bool.false_eq_true, if_false, ht, ne_eq, not_true_eq_false,
          pure_bind]
        rw [bind_ok hb2, bind_ok hb']
        rfl
      · refine .inr ⟨⟨pos, .typeMismatch name 0 old.elem x.type⟩, b1, ?_, hw1⟩
        simp only [Option.isSome_none, Bool.false_eq_true, if_false, ne_eq, ht, not_false_eq_true,
          if_true]
        rfl
    | none =>
      obtain ⟨b2, hb2, hw2⟩ := emitSlot_spec hw1.now x.type name pos
      obtain ⟨b3, hb3, hw3⟩ := emitStore_spec (hw1.trans hw2).now
        (next f (d.append (readCode f pos x))) (readRef f d.code.length x) pos
      rw [hw2.env_eq, hw1.env_eq] at hw3
      obtain ⟨b', hb', hw'⟩ := bindVar_spec ((hw1.trans hw2).trans hw3)
        { name, slot := next f (d.append (readCode f pos x)), elem := x.type, sig := x.sig }
      refine .inl ⟨_, _, b', ?_, rfl, .new hv, hw'⟩
      simp only [Option.isSome_none, Bool.false_eq_true, if_false]
      rw [bind_ok hb2, bind_ok hb3, bind_ok hb']
      rfl

/-! ## Calling -/

/-- What the callee `name` stands for, and with which signature. -/
inductive Calls (env : Env) (name : String) : Target → Signature → Prop
  | direct (c : Callable) (hc : env.findFunc? name = some c) : Calls env name (.direct c.func) c.sig
  | indirect (v : Binding) (sig : Signature) (hc : env.findFunc? name = none)
    (hv : env.findVar? name = some v) (hs : v.sig = some sig) : Calls env name (.indirect v.slot) sig

theorem callTarget_spec (b : Builder) (pos : Position) (name : String) :
    (∃ t sig, callTarget pos name b = .ok (t, sig) b ∧ Calls b.env name t sig) ∨
    ∃ e, callTarget pos name b = .error e b := by
  have hget : (get : Lowering Builder) b = .ok b b := rfl
  rw [callTarget, bind_ok hget]
  cases hc : b.env.findFunc? name with
  | some c => exact .inl ⟨_, _, rfl, .direct c hc⟩
  | none =>
    cases hv : b.env.findVar? name with
    | none => exact .inr ⟨_, rfl⟩
    | some v =>
      cases hs : v.sig with
      | some sig =>
        refine .inl ⟨.indirect v.slot, sig, ?_, .indirect v sig hc hv hs⟩
        simp only [hs]
        rfl
      | none =>
        refine .inr ⟨⟨pos, .invalidCallTarget name⟩, ?_⟩
        simp only [hs]
        rfl

/-- Reading arguments fails at the first one of a wrong type, when those before it have been read. -/
theorem readArgs_spec (h : At b ds f d) (name : String) (i : Nat) (types : List Ty)
    (xs : List (Position × Operand)) :
    (∃ b', readArgs name i types xs b = .ok (readRefs f d.code.length xs) b' ∧ Fit types xs ∧
      Wrote b ds f d (readsCode f xs) b.env b') ∨
    ∃ e ys b', readArgs name i types xs b = .error e b' ∧ ys ⊆ xs ∧
      Wrote b ds f d (readsCode f ys) b.env b' := by
  induction xs generalizing b ds d i types with
  | nil => exact .inl ⟨b, rfl, trivial, Wrote.refl h⟩
  | cons a xs ih =>
    obtain ⟨pos, x⟩ := a
    obtain ⟨b1, hb1, hw1⟩ := emitRead_spec h x pos
    -- the step at this argument: a wrong type ends it, else the others are read
    have hstep : readArgs name i types ((pos, x) :: xs) b =
        if ∀ t, types.head? = some t → x.type = t then
          (do return readRef f d.code.length x :: (← readArgs name (i + 1) types.tail xs)) b1
        else .error ⟨pos, .typeMismatch name i (types.head?.getD .i32) x.type⟩ b1 := by
      rw [readArgs, bind_ok hb1]
      cases types.head? with
      | none => simp
      | some t =>
        by_cases ht : x.type = t
        · simp [ht]
        · simp only [ne_eq, ht, not_false_eq_true, if_true, Option.some.injEq, forall_eq', if_false]
          rfl
    rw [hstep]
    by_cases hfit : ∀ t, types.head? = some t → x.type = t
    · rw [if_pos hfit]
      rcases ih hw1.now (i + 1) types.tail with ⟨b', hb', hfits, hw⟩ | ⟨e, ys, b', hb', hys, hw⟩
      · rw [hw1.env_eq] at hw
        refine .inl ⟨b', ?_, ⟨hfit, hfits⟩, hw1.trans hw⟩
        rw [bind_ok hb', Draft.code_append, List.length_append]
        rfl
      · rw [hw1.env_eq] at hw
        refine .inr ⟨e, (pos, x) :: ys, b', bind_error hb', ?_, hw1.trans hw⟩
        exact List.cons_subset_cons _ hys
    · rw [if_neg hfit]
      exact .inr ⟨_, [(pos, x)], b1, rfl, by simp, by simpa [readsCode] using hw1⟩

/-- What is written to call `target` with the values `args`, when `k` values have been written. -/
def callCode (f k : Nat) (target : Target) (sig : Signature) (args : List ValueRef)
    (pos : Position) : List Value :=
  match target with
  | .direct g => [Draft.placed f { op := .call, type := sig.result, aux := .func g, pos } args]
  | .indirect slot =>
    [loadCode f .ptr slot pos,
      Draft.placed f { op := .callIndirect, type := sig.result, aux := .signature sig, pos }
        (⟨f, k⟩ :: args)]

/-- What is written to read arguments and to call `target` with them, when `k` values have been
written. The value written last is the result. -/
def invokeCode (f k : Nat) (target : Target) (sig : Signature) (xs : List (Position × Operand))
    (pos : Position) : List Value :=
  readsCode f xs ++ callCode f (k + (readsCode f xs).length) target sig (readRefs f k xs) pos

/-- What is written to keep the last of `k` values in a slot of its own. -/
def keepCode (f k : Nat) (type : Ty) (name : String) (pos : Position) : List Value :=
  [slotCode f type name pos, storeCode f ⟨f, k⟩ ⟨f, k - 1⟩ pos]

theorem keep_spec (h : At b ds f d) (type : Ty) (name : String) (pos : Position) :
    ∃ b', (do
        let slot ← emitSlot type name pos
        emitStore slot ⟨f, d.code.length - 1⟩ pos
        return { ref := slot, type, isSlot := true } : Lowering Operand) b =
        .ok { ref := next f d, type, isSlot := true } b' ∧
      Wrote b ds f d (keepCode f d.code.length type name pos) b.env b' := by
  obtain ⟨b1, hb1, hw1⟩ := emitSlot_spec h type name pos
  obtain ⟨b2, hb2, hw2⟩ := emitStore_spec hw1.now (next f d) ⟨f, d.code.length - 1⟩ pos
  rw [hw1.env_eq] at hw2
  refine ⟨b2, ?_, hw1.trans hw2⟩
  rw [bind_ok hb1, bind_ok hb2]
  rfl

/-- A call reads its arguments, goes to what its name stands for, and keeps the result. -/
theorem callNamed_spec (h : At b ds f d) (pos : Position) (name : String)
    (xs : List (Position × Operand)) :
    (∃ t sig k b', callNamed pos name xs b =
        .ok { ref := ⟨f, k⟩, type := sig.result, isSlot := true } b' ∧
      Calls b.env name t sig ∧ sig.accepts xs.length ∧ Fit sig.params xs ∧
      k = (d.code ++ invokeCode f d.code.length t sig xs pos).length ∧
      Wrote b ds f d
        (invokeCode f d.code.length t sig xs pos ++ keepCode f k sig.result name pos) b.env b') ∨
    ∃ e ys b', callNamed pos name xs b = .error e b' ∧ ys ⊆ xs ∧
      Wrote b ds f d (readsCode f ys) b.env b' := by
  rcases callTarget_spec b pos name with ⟨t, sig, hb0, hcalls⟩ | ⟨e, hb0⟩
  swap
  · exact .inr ⟨e, [], b, bind_error hb0, by simp, Wrote.refl h⟩
  rw [callNamed, bind_ok hb0]
  by_cases hacc : sig.accepts xs.length = true
  swap
  · refine .inr ⟨⟨pos, .arityMismatch name sig.params.length xs.length⟩, [], b, ?_, by simp,
      Wrote.refl h⟩
    simp only [hacc]
    rfl
  simp only [hacc, Bool.not_true, Bool.false_eq_true, if_false]
  rcases readArgs_spec h name 0 sig.params xs with ⟨b1, hb1, hfit, hw1⟩ | ⟨e, ys, b1, hb1, hys, hw1⟩
  swap
  · exact .inr ⟨e, ys, b1, bind_error hb1, hys, hw1⟩
  rw [bind_ok hb1]
  refine .inl ⟨t, sig, (d.code ++ invokeCode f d.code.length t sig xs pos).length, ?_⟩
  cases t with
  | direct g =>
    obtain ⟨b2, hb2, hw2⟩ := emit_spec hw1.now
      { op := .call, type := sig.result, aux := .func g, pos } (readRefs f d.code.length xs)
    rw [hw1.env_eq] at hw2
    have hw := hw1.trans hw2
    obtain ⟨b3, hb3, hw3⟩ := keep_spec hw.now sig.result name pos
    rw [hw.env_eq] at hw3
    refine ⟨b3, ?_, hcalls, hacc, hfit, rfl, hw.trans hw3⟩
    refine (bind_ok hb2).trans ?_
    simpa [next, invokeCode, callCode] using hb3
  | indirect slot =>
    obtain ⟨b2, hb2, hw2⟩ := emit_spec hw1.now { op := .load, type := .ptr, pos } [slot]
    rw [hw1.env_eq] at hw2
    obtain ⟨b3, hb3, hw3⟩ := emit_spec (hw1.trans hw2).now
      { op := .callIndirect, type := sig.result, aux := .signature sig, pos }
      (next f (d.append (readsCode f xs)) :: readRefs f d.code.length xs)
    rw [hw2.env_eq] at hw3
    have hw := (hw1.trans hw2).trans hw3
    obtain ⟨b4, hb4, hw4⟩ := keep_spec hw.now sig.result name pos
    rw [hw.env_eq] at hw4
    refine ⟨b4, ?_, hcalls, hacc, hfit, rfl, ?_⟩
    · refine (bind_ok hb2).trans ((bind_ok hb3).trans ?_)
      simpa [next, invokeCode, callCode] using hb4
    · simpa [next, invokeCode, callCode, loadCode] using hw.trans hw4

/-! ## Defining functions -/

/-- The draft of a function whose body has not been lowered yet. -/
def header (symbol : String) (names : List Ident) : Draft where
  name := symbol
  sig := userSignature names.length
  paramNames := names.map (·.name)

/-- Parameters that are accepted are names and nothing else. -/
theorem params_eq_of_paramNames {i : Nat} {params : List Expr} {names : List Ident}
    (h : paramNames i params = .ok names) : params = names.map .name := by
  induction params generalizing i names with
  | nil =>
    cases h
    rfl
  | cons p ps ih =>
    cases p with
    | name id =>
      rw [paramNames] at h
      cases hps : paramNames (i + 1) ps with
      | error e =>
        rw [hps] at h
        cases h
      | ok ids =>
        rw [hps] at h
        cases h
        rw [List.map_cons, ← ih hps]
    | _ => cases h

/-- Declaring a function appends its draft and enters it in the table. -/
theorem declareFunc_spec (h : At b ds f d) (target : Ident) (pos : Position)
    (params : List Expr) :
    (∃ names b', declareFunc target pos params b = .ok (ds.length, names) b' ∧
      paramNames 0 params = .ok names ∧ b.env.findVarAnywhere? target.name = none ∧
      At b' (ds ++ [header (b.module.freshSymbol target.name).1 names]) f d ∧
      b'.env = b.env.defineFunc
        { name := target.name, func := ds.length, sig := userSignature names.length } ∧
      b'.module.rest = (b.module.freshSymbol target.name).2.rest) ∨
    ∃ e, declareFunc target pos params b = .error e b := by
  have hget : (get : Lowering Builder) b = .ok b b := rfl
  rw [declareFunc, bind_ok hget]
  cases hv : b.env.findVarAnywhere? target.name with
  | some v => exact .inr ⟨_, rfl⟩
  | none =>
    cases hp : paramNames 0 params with
    | error e => exact .inr ⟨e, rfl⟩
    | ok names =>
      obtain ⟨h1, h2⟩ :=
        h.drafted.addFunc target.name (userSignature names.length) (names.map (·.name))
      rw [← h1]
      refine .inl ⟨names, _, rfl, rfl, rfl, ⟨h2, h.site, ?_, h.inside⟩, rfl, ?_⟩
      · rw [List.getElem?_append_left h.lt_length, h.here]
      · exact Module.Drafted.addFunc_rest _ _ _ _

/-- What is written to give the parameters, the first of which has number `i`, their slots, when `k`
values have been written. -/
def spillCode (f k i : Nat) : List Ident → List Value
  | [] => []
  | p :: ps =>
    [Draft.placed f (argValue i p.name p.pos) [], slotCode f .i32 p.name p.pos,
      storeCode f ⟨f, k + 1⟩ ⟨f, k⟩ p.pos] ++ spillCode f (k + 3) (i + 1) ps

theorem op_spillCode {f k i : Nat} {ps : List Ident} {v : Value} (h : v ∈ spillCode f k i ps) :
    v.op = .arg ∨ v.op = .alloca ∨ v.op = .store := by
  induction ps generalizing k i with
  | nil => cases h
  | cons p ps ih =>
    rcases List.mem_append.1 h with h | h
    · simp only [List.mem_cons, List.not_mem_nil, or_false] at h
      rcases h with rfl | rfl | rfl
      · exact .inl rfl
      · exact .inr (.inl rfl)
      · exact .inr (.inr rfl)
    · exact ih h

/-- The environment in which the parameters have been given their slots. -/
def spillEnv (f k : Nat) (env : Env) : List Ident → Env
  | [] => env
  | p :: ps => spillEnv f (k + 3) (bound env { name := p.name, slot := ⟨f, k + 1⟩, elem := .i32 }) ps

theorem spillParams_spec (h : At b ds f d) (i : Nat) (ps : List Ident) :
    ∃ b', spillParams i ps b = .ok () b' ∧
      Wrote b ds f d (spillCode f d.code.length i ps) (spillEnv f d.code.length b.env ps) b' := by
  induction ps generalizing b ds d i with
  | nil => exact ⟨b, rfl, Wrote.refl h⟩
  | cons p ps ih =>
    obtain ⟨b1, hb1, hw1⟩ := emit_spec h (argValue i p.name p.pos) []
    obtain ⟨b2, hb2, hw2⟩ := emitSlot_spec hw1.now .i32 p.name p.pos
    obtain ⟨b3, hb3, hw3⟩ := emitStore_spec (hw1.trans hw2).now
      (next f (d.append [Draft.placed f (argValue i p.name p.pos) []])) (next f d) p.pos
    rw [hw2.env_eq, hw1.env_eq] at hw3
    obtain ⟨b4, hb4, hw4⟩ := bindVar_spec ((hw1.trans hw2).trans hw3)
      { name := p.name, slot := next f (d.append [Draft.placed f (argValue i p.name p.pos) []]),
        elem := .i32 }
    obtain ⟨b5, hb5, hw5⟩ := ih hw4.now (i + 1)
    refine ⟨b5, ?_, ?_⟩
    · rw [spillParams, bind_ok hb1, bind_ok hb2, bind_ok hb3, bind_ok hb4, hb5]
    · rw [hw4.env_eq] at hw5
      simpa [spillCode, spillEnv, next] using hw4.trans hw5

/-- The end of a body returns its last operand, which has to be an integer. -/
theorem returnTail_spec (h : At b ds f d) (name : String) (pos : Position)
    (tail : Option (Position × Operand)) :
    (∃ last x b', tail = some (last, x) ∧ returnTail name pos tail b = .ok () b' ∧ x.type = .i32 ∧
      At b' (ds.set f ((d.append (readCode f last x)).ret (readRef f d.code.length x))) f
        ((d.append (readCode f last x)).ret (readRef f d.code.length x)) ∧
      b'.env = b.env ∧ b'.module.rest = b.module.rest) ∨
    ∃ e vs b', returnTail name pos tail b = .error e b' ∧
      (vs = [] ∨ ∃ last x, tail = some (last, x) ∧ vs = readCode f last x) ∧
      Wrote b ds f d vs b.env b' := by
  cases tail with
  | none => exact .inr ⟨_, [], b, rfl, .inl rfl, Wrote.refl h⟩
  | some lx =>
    obtain ⟨last, x⟩ := lx
    obtain ⟨b1, hb1, hw1⟩ := emitRead_spec h x last
    simp only [returnTail]
    rw [bind_ok hb1]
    by_cases ht : x.type = .i32
    · have hret := hw1.now.drafted.setReturn hw1.now.here hw1.now.inside
        (readRef f d.code.length x)
      rw [List.set_set] at hret
      refine .inl ⟨last, x, { b1 with module := b1.module.setReturn ⟨f, 0⟩ (some (readRef f
        d.code.length x)) }, rfl, ?_, ht, ⟨hret, hw1.now.site, ?_, hw1.now.inside⟩, hw1.env_eq,
        hw1.rest_eq⟩
      · simp only [ht, ne_eq, not_true_eq_false, if_false]
        rw [← hw1.now.site]
        rfl
      · exact List.getElem?_set_self h.lt_length
    · refine .inr ⟨⟨last, .typeMismatch name 0 .i32 x.type⟩, readCode f last x, b1, ?_,
        .inr ⟨last, x, rfl, rfl⟩, hw1⟩
      simp only [ht, ne_eq, not_false_eq_true, if_true]
      rfl

/-- An expression of a program is reported and then lowered. -/
theorem topLevel_cons (i : Nat) (e : Expr) (es : List Expr) (b : Builder) : topLevel i (e :: es) b =
    (expr e >>= fun _ => topLevel (i + 1) es)
      { b with events := b.events ++ [.expression i e.kind e.pos] } := rfl

end Lowering

end Wordlang
