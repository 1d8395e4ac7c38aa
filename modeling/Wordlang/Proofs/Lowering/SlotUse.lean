import Wordlang.Proofs.Lowering.Slots

/-!
# The code of a body accesses the slots as the text says

The values of a function that read slots, write slots or call are, in their order, those that the text
of its body asks for, and each of them is about the slot of its variable or the slot of its call.
-/

namespace Wordlang

open IR Lowering Builder Meaning

/-- The values `vs` stand in the code from number `k` on. -/
def Sits (code : List Value) (k : Nat) (vs : List Value) : Prop := vs <+: code.drop k

namespace Sits

variable {code vs ws : List Value} {k : Nat}

theorem left (h : Sits code k (vs ++ ws)) : Sits code k vs := (List.prefix_append vs ws).trans h

theorem right (h : Sits code k (vs ++ ws)) : Sits code (k + vs.length) ws := by
  rw [Sits, ← List.drop_drop]
  obtain ⟨rest, hrest⟩ := h
  rw [← hrest, List.append_assoc, List.drop_left]
  exact List.prefix_append _ _

theorem getElem? (h : Sits code k vs) {i : Nat} {v : Value} (hv : vs[i]? = some v) :
    code[k + i]? = some v := by
  obtain ⟨rest, hrest⟩ := h
  rw [← List.getElem?_drop, ← hrest]
  exact getElem?_later (List.prefix_append _ _) hv

end Sits

/-! ## Values that do what the text asks for -/

/-- In the function `f` with the given code, a value does what the text asks for. The variable `x` has
the slot `slot x`. A call is right before the slot for its result and the store into it. -/
inductive Access.DoneBy (f : Nat) (code : List Value) (slot : String → ValueRef) :
    Access → Value × Nat → Prop
  | receive (i : Nat) (id : Ident)
    (harg : code[3 * i]? = some (Draft.placed f (argValue i id.name id.pos) []))
    (hslot : code[3 * i + 1]? = some (slotCode f .i32 id.name id.pos)) :
    DoneBy f code slot (.receive i id) (storeCode f ⟨f, 3 * i + 1⟩ ⟨f, 3 * i⟩ id.pos, 3 * i + 2)
  | read (i : Nat) (pos : Position) (name : String) (type : Ty) :
    DoneBy f code slot (.read pos name) (loadCode f type (slot name) pos, i)
  | fetch (i j : Nat) (pos site : Position) (type : Ty) (v : Value) (hv : code[j]? = some v)
    (hcall : v.op.isCall = true) (hsite : v.pos = site) :
    DoneBy f code slot (.fetch pos site) (loadCode f type ⟨f, j + 1⟩ pos, i)
  | write (i j : Nat) (pos : Position) (name : String) (v : Value) (hv : code[j]? = some v)
    (hnot : v.op.isCall = false) :
    DoneBy f code slot (.write pos name) (storeCode f (slot name) ⟨f, j⟩ pos, i)
  | call (i : Nat) (pos : Position) (callee : String) (place : Nat) (type : Ty)
    (args : List ValueRef)
    (hslot : code[i + 1]? = some (slotCode f type callee pos))
    (hstore : code[i + 2]? = some (storeCode f ⟨f, i + 1⟩ ⟨f, i⟩ pos)) :
    DoneBy f code slot (.call pos callee place args.length)
      (Draft.placed f { op := .call, type, aux := .func place, pos } args, i)
  | callThrough (i : Nat) (pos : Position) (callee : String) (sig : Signature)
    (args : List ValueRef)
    (hslot : code[i + 2]? = some (slotCode f sig.result callee pos))
    (hstore : code[i + 3]? = some (storeCode f ⟨f, i + 2⟩ ⟨f, i + 1⟩ pos)) :
    DoneBy f code slot (.callThrough pos callee args.length)
      (Draft.placed f { op := .callIndirect, type := sig.result, aux := .signature sig, pos }
        (⟨f, i⟩ :: args), i + 1)
  | keep (j : Nat) (pos : Position) (v : Value) (hv : code[j]? = some v)
    (hcall : v.op.isCall = true) (hsite : v.pos = pos) :
    DoneBy f code slot (.keep pos) (storeCode f ⟨f, j + 1⟩ ⟨f, j⟩ pos, j + 2)

/-- Reading the operand `x` does what a use of the expression `e` asks for, and the operand is not
itself the result of a call. -/
structure Fulfils (f : Nat) (code : List Value) (slot : String → ValueRef) (vars : List String)
    (e : Expr) (x : Operand) : Prop where
  done : ∀ pos k,
    List.Forall₂ (Access.DoneBy f code slot) (e.uses vars pos)
      (numbered Op.isAccess k (readCode f pos x))
  value : x.isSlot = false → ∃ j v, x.ref = ⟨f, j⟩ ∧ code[j]? = some v ∧ v.op.isCall = false

section Steps

variable {f k : Nat} {code : List Value} {slot : String → ValueRef} {vars : List String}

/-- An operand that is a value of the code and no result of a call is not read. -/
theorem reads_of_value {e : Expr} {x : Operand} {j : Nat} {v : Value} (hx : x.isSlot = false)
    (huses : ∀ pos, e.uses vars pos = []) (href : x.ref = ⟨f, j⟩) (hv : code[j]? = some v)
    (hnot : v.op.isCall = false) : Fulfils f code slot vars e x := by
  refine ⟨fun pos k => ?_, fun _ => ⟨j, v, href, hv, hnot⟩⟩
  rw [huses, readCode, hx]
  exact .nil

/-- Once it is read, an operand is a value of the code and no result of a call. -/
theorem readRef_value {e : Expr} {x : Operand} (h : Fulfils f code slot vars e x) {pos : Position}
    (hsits : Sits code k (readCode f pos x)) :
    ∃ j v, readRef f k x = ⟨f, j⟩ ∧ code[j]? = some v ∧ v.op.isCall = false := by
  cases hx : x.isSlot with
  | false =>
    obtain ⟨j, v, href, hv, hnot⟩ := h.value hx
    exact ⟨j, v, by rw [readRef, hx, ← href]; rfl, hv, hnot⟩
  | true =>
    rw [readCode, hx] at hsits
    refine ⟨k, loadCode f x.type x.ref pos, by rw [readRef, hx]; rfl, ?_, rfl⟩
    exact hsits.getElem? (i := 0) rfl

theorem readsCode_done {es : List Expr} {xs : List (Position × Operand)}
    (h : List.Forall₂ (fun e x => x.1 = e.pos ∧ Fulfils f code slot vars e x.2) es xs) (k : Nat) :
    List.Forall₂ (Access.DoneBy f code slot) (es.flatMap fun e => e.uses vars e.pos)
      (numbered Op.isAccess k (readsCode f xs)) := by
  induction h generalizing k with
  | nil => exact .nil
  | @cons e x es xs hx hxs ih =>
    rw [List.flatMap_cons, readsCode, List.flatMap_cons, numbered_append, ← hx.1]
    exact List.rel_append (hx.2.done x.1 k) (ih _)

/-- What a call writes does what the text asks for. -/
theorem invokeCode_done {ds : List Definition} {env : Env} {n : Nat} (hlinked : Linked ds env n)
    {t : Target} {sig : Signature} {callee : String} (hcalls : Calls env callee t sig)
    (hslot : ∀ v, env.findVar? callee = some v → v.slot = slot callee)
    {es : List Expr} {xs : List (Position × Operand)} {pos : Position}
    (hreads : List.Forall₂ (fun e x => x.1 = e.pos ∧ Fulfils f code slot vars e x.2) es xs)
    (hsits : Sits code k (invokeCode f k t sig xs pos ++
      keepCode f (k + (invokeCode f k t sig xs pos).length) sig.result callee pos)) :
    List.Forall₂ (Access.DoneBy f code slot)
      ((es.flatMap fun e => e.uses vars e.pos) ++
        (Expr.invocation ds pos callee es.length ++ [.keep pos]))
      (numbered Op.isAccess k (invokeCode f k t sig xs pos ++
        keepCode f (k + (invokeCode f k t sig xs pos).length) sig.result callee pos)) := by
  have hlength : es.length = (readRefs f k xs).length := by
    rw [length_readRefs, hreads.length_eq]
  have hread := readsCode_done hreads k
  cases hcalls with
  | direct c hc =>
    obtain ⟨c', hresolve, hplace, hsig⟩ := hlinked.resolve_eq hc
    -- the call, the slot for its result, and the store
    let call := Draft.placed f { op := .call, type := c.sig.result, aux := .func c.func, pos }
      (readRefs f k xs)
    have heq : invokeCode f k (.direct c.func) c.sig xs pos ++
        keepCode f (k + (invokeCode f k (.direct c.func) c.sig xs pos).length) c.sig.result callee
          pos =
        readsCode f xs ++ [call, slotCode f c.sig.result callee pos,
          storeCode f ⟨f, k + (readsCode f xs).length + 1⟩ ⟨f, k + (readsCode f xs).length⟩ pos] := by
      simp [invokeCode, callCode, keepCode, call, Nat.add_assoc]
    rw [heq] at hsits ⊢
    have hcode := hsits.right
    have hinvoke : Expr.invocation ds pos callee es.length =
        [.call pos callee c.func (readRefs f k xs).length] := by
      rw [Expr.invocation, hresolve, ← hplace, hlength]
    rw [numbered_append, hinvoke]
    refine List.rel_append hread (.cons ?_ (.cons ?_ .nil))
    · exact .call _ pos callee c.func c.sig.result (readRefs f k xs) (hcode.getElem? (i := 1) rfl)
        (hcode.getElem? (i := 2) rfl)
    · exact .keep (k + (readsCode f xs).length) pos call (hcode.getElem? (i := 0) rfl) rfl rfl
  | indirect v sig hc hv hs =>
    have hresolve := hlinked.resolve_none hc
    let call := Draft.placed f { op := .callIndirect, type := sig.result, aux := .signature sig, pos }
      (⟨f, k + (readsCode f xs).length⟩ :: readRefs f k xs)
    have heq : invokeCode f k (.indirect v.slot) sig xs pos ++
        keepCode f (k + (invokeCode f k (.indirect v.slot) sig xs pos).length) sig.result callee
          pos =
        readsCode f xs ++ [loadCode f .ptr v.slot pos, call, slotCode f sig.result callee pos,
          storeCode f ⟨f, k + (readsCode f xs).length + 2⟩ ⟨f, k + (readsCode f xs).length + 1⟩
            pos] := by
      simp [invokeCode, callCode, keepCode, call, Nat.add_assoc]
    rw [heq] at hsits ⊢
    have hcode := hsits.right
    have hinvoke : Expr.invocation ds pos callee es.length =
        [.read pos callee, .callThrough pos callee (readRefs f k xs).length] := by
      rw [Expr.invocation, hresolve, hlength]
    rw [numbered_append, hinvoke, hslot v hv]
    refine List.rel_append hread (.cons ?_ (.cons ?_ (.cons ?_ .nil)))
    · exact .read _ pos callee .ptr
    · exact .callThrough _ pos callee sig (readRefs f k xs) (hcode.getElem? (i := 2) rfl)
        (hcode.getElem? (i := 3) rfl)
    · exact .keep (k + (readsCode f xs).length + 1) pos call (hcode.getElem? (i := 1) rfl) rfl rfl

end Steps

/-! ## The run -/

section Run

variable {code : List Value} {vars : List String} {final : Env}

theorem Binds.slot_eq {env : Env} {ys : List String} (h : Binds env ys final) {name : String}
    {v : Binding} (hv : env.findVar? name = some v) : v.slot = slotIn final name := by
  rw [h.slotIn_eq (by rw [hv]; exact Option.some_ne_none v), Wordlang.slotIn_eq hv]

mutual

/-- The code of an expression does what the text asks for, and so does reading its operand. The slots
are told by the environment at the end of the body. -/
theorem done_of_lowers {f k n : Nat} {env env' : Env} {ds : List Definition} {ys : List String}
    {e : Expr} {x : Operand} {vs : List Value} {new : List Draft}
    (hvars : ∀ x, x ∈ vars ↔ final.findVar? x ≠ none) (henv : env.scopes ≠ [])
    (hlinked : Linked ds env n) (hfinal : Binds env' ys final) (hsits : Sits code k vs) :
    Lowers f env k n e x env' vs new →
      List.Forall₂ (Access.DoneBy f code (slotIn final)) (e.accesses vars ds)
        (numbered Op.isAccess k vs) ∧
      Fulfils f code (slotIn final) vars e x
  | .int .. => ⟨.nil, reads_of_value rfl (fun _ => rfl) rfl (hsits.getElem? (i := 0) rfl) rfl⟩
  | .string .. => ⟨.nil, reads_of_value rfl (fun _ => rfl) rfl (hsits.getElem? (i := 0) rfl) rfl⟩
  | .variable f k n env id v hv => by
    have hmem : id.name ∈ vars := by
      obtain ⟨w, hw, -⟩ := hfinal.slots id.name v hv
      rw [hvars, hw]
      exact Option.some_ne_none w
    refine ⟨.nil, fun pos k => ?_, fun hx => absurd hx (by simp)⟩
    rw [Expr.uses, if_pos hmem, hfinal.slot_eq hv]
    exact .cons (.read k pos id.name v.elem) .nil
  | .function f k n env id c hv hc => by
    have hnot : id.name ∉ vars := by
      intro hmem
      have hnone := hfinal.fresh id.name hv ((hvars id.name).1 hmem)
      rw [hc] at hnone
      cases hnone
    refine ⟨.nil, reads_of_value rfl (fun pos => ?_) rfl (hsits.getElem? (i := 0) rfl) rfl⟩
    rw [Expr.uses, if_neg hnot]
  | .define .. => ⟨.nil, reads_of_value rfl (fun _ => rfl) rfl (hsits.getElem? (i := 0) rfl) rfl⟩
  | .assign f k n env env' pos target e x slot vs ws new hnot he hfree hslot => by
    have hopened := (binds_of_lowers henv he).opened
    have hassign := Binds.assign hopened hfree hslot x.sig
    obtain ⟨hdone, hreads⟩ := done_of_lowers hvars henv hlinked (hassign.trans hfinal) hsits.left he
    have hread : Sits code (k + vs.length) (readCode f pos x) := by
      have hright := hsits.right
      rw [List.append_assoc] at hright
      exact hright.left
    obtain ⟨j, v, href, hv, hcall⟩ := readRef_value hreads hread
    have hslots : slot = slotIn final target.name :=
      hfinal.slot_eq (by rw [findVar?_bound hopened, if_pos rfl])
    have hws : ∀ k, numbered Op.isAccess k ws = [] := by
      intro k
      cases hslot <;> rfl
    refine ⟨?_, reads_of_value rfl (fun _ => rfl) href hv hcall⟩
    rw [Expr.accesses_assign hnot, numbered_append, numbered_append, numbered_append, hws,
      List.append_nil, href, hslots]
    exact List.rel_append hdone
      (List.rel_append (hreads.done pos _) (.cons (.write _ j pos target.name v hv hcall) .nil))
  | .call f k n env env' pos callee args xs t sig vs ws new hargs hcalls _ _ hws => by
    subst hws
    obtain ⟨hdone, hreads⟩ := done_of_lowersAll hvars henv hlinked hfinal hsits.left hargs
    refine ⟨?_, fun p j => ?_, fun hx => absurd hx (by simp)⟩
    · rw [Expr.accesses, numbered_append]
      exact List.rel_append hdone (invokeCode_done (linked_afterAll hlinked hargs) hcalls
        (fun v hv => hfinal.slot_eq hv) hreads hsits.right)
    · -- the operand is the slot right after the call
      obtain ⟨ls, v, heq, -, hcall, hpos⟩ :=
        invokeCode_ends f (k + vs.length) t sig xs pos
      rw [heq, List.length_append, List.length_singleton, ← Nat.add_assoc] at hsits ⊢
      have hv : code[k + vs.length + ls.length]? = some v := by
        have hright := hsits.right
        rw [List.append_assoc] at hright
        exact hright.right.getElem? (i := 0) rfl
      exact .cons (.fetch j _ p pos sig.result v hv hcall hpos) .nil

theorem done_of_lowersAll {f k n : Nat} {env env' : Env} {ds : List Definition} {ys : List String}
    {es : List Expr} {xs : List (Position × Operand)} {vs : List Value} {new : List Draft}
    (hvars : ∀ x, x ∈ vars ↔ final.findVar? x ≠ none) (henv : env.scopes ≠ [])
    (hlinked : Linked ds env n) (hfinal : Binds env' ys final) (hsits : Sits code k vs) :
    LowersAll f env k n es xs env' vs new →
      List.Forall₂ (Access.DoneBy f code (slotIn final)) (Expr.accessesAll vars ds es)
        (numbered Op.isAccess k vs) ∧
      List.Forall₂ (fun e x => x.1 = e.pos ∧ Fulfils f code (slotIn final) vars e x.2) es xs
  | .nil .. => ⟨.nil, .nil⟩
  | .cons f k n env env' env'' e es x xs vs ws new new' he hes => by
    have hopened := (binds_of_lowers henv he).opened
    obtain ⟨hdone, hreads⟩ := done_of_lowers hvars henv hlinked
      ((binds_of_lowersAll hopened hes).trans hfinal) hsits.left he
    obtain ⟨hdone', hreads'⟩ := done_of_lowersAll hvars hopened (linked_after hlinked he) hfinal
      hsits.right hes
    rw [Expr.accessesAll, numbered_append]
    exact ⟨List.rel_append hdone hdone', .cons ⟨rfl, hreads⟩ hreads'⟩

end

end Run

end Wordlang
