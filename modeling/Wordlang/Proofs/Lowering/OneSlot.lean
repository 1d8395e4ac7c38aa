import Mathlib.Data.List.Dedup
import Wordlang.Proofs.Lowering.SlotUse

/-!
# One slot for every variable

For every function of a program that is lowered without a failure: how many slots it has, which slot a
variable has, what is stored there and what is read from there, and where the results of calls go.
-/

namespace Wordlang

open IR Lowering Builder Meaning

/-! ## Slots and calls by their numbers -/

section Numbers

variable {f i : Nat} {vs : List Value} {r : ValueRef}

theorem mem_numbered_zero {p : Op → Bool} {v : Value} :
    (v, i) ∈ numbered p 0 vs ↔ vs[i]? = some v ∧ p v.op = true := by
  have hmem : (v, 0 + i) ∈ numbered p 0 vs ↔ vs[i]? = some v ∧ p v.op = true := mem_numbered
  rwa [Nat.zero_add] at hmem

theorem mem_slotsMade :
    r ∈ slotsMade f 0 vs ↔ ∃ i v, r = ⟨f, i⟩ ∧ vs[i]? = some v ∧ v.op.isSlot = true := by
  rw [slotsMade, List.mem_map]
  constructor
  · rintro ⟨⟨v, i⟩, hv, rfl⟩
    exact ⟨i, v, rfl, mem_numbered_zero.1 hv⟩
  · rintro ⟨i, v, rfl, hv⟩
    exact ⟨(v, i), mem_numbered_zero.2 hv, rfl⟩

theorem mem_resultSlots {v : Value} (hv : vs[i]? = some v) (hcall : v.op.isCall = true) :
    ⟨f, i + 1⟩ ∈ resultSlots f 0 vs :=
  List.mem_map.2 ⟨(v, i), mem_numbered_zero.2 ⟨hv, hcall⟩, rfl⟩

theorem nodup_slotsMade (f k : Nat) (vs : List Value) : (slotsMade f k vs).Nodup := by
  have hnumbers : ((numbered Op.isSlot k vs).map Prod.snd).Nodup := by
    refine List.Nodup.sublist (List.filter_sublist.map _) ?_
    rw [List.zipIdx_map_snd]
    exact List.nodup_range'
  have heq : slotsMade f k vs = ((numbered Op.isSlot k vs).map Prod.snd).map (ValueRef.mk f) := by
    rw [slotsMade, List.map_map]
    rfl
  rw [heq]
  exact hnumbers.map fun i j h => (ValueRef.mk.inj h).2

theorem length_numbered (p : Op → Bool) (k : Nat) (vs : List Value) :
    (numbered p k vs).length = vs.countP fun v => p v.op := by
  induction vs generalizing k with
  | nil => rfl
  | cons v vs ih =>
    rw [numbered_cons, List.length_append, ih, List.countP_cons]
    split <;> simp [Nat.add_comm]

end Numbers

/-! ## Parameters -/

section Parameters

variable {f k i : Nat} {ids : List Ident}

/-- Every parameter has an argument, a slot, and a store. -/
theorem spillCode_cons (f k i : Nat) (id : Ident) (ids : List Ident) : spillCode f k i (id :: ids) =
    [Draft.placed f (argValue i id.name id.pos) [], slotCode f .i32 id.name id.pos,
      storeCode f ⟨f, k + 1⟩ ⟨f, k⟩ id.pos] ++ spillCode f (k + 3) (i + 1) ids := rfl

/-- Every parameter gets its argument, in order. -/
def received (i : Nat) : List Ident → List Access
  | [] => []
  | id :: ids => .receive i id :: received (i + 1) ids

theorem action_received (i : Nat) (ids : List Ident) :
    (received i ids).filterMap Access.action? = [] := by
  induction ids generalizing i with
  | nil => rfl
  | cons id ids ih => exact ih (i + 1)

theorem spillCode_done {code : List Value} {slot : String → ValueRef}
    (h : Sits code (3 * i) (spillCode f (3 * i) i ids)) :
    List.Forall₂ (Access.DoneBy f code slot) (received i ids)
      (numbered Op.isAccess (3 * i) (spillCode f (3 * i) i ids)) := by
  induction ids generalizing i with
  | nil => exact .nil
  | cons id ids ih =>
    rw [spillCode_cons] at h ⊢
    rw [numbered_append]
    exact List.rel_append
      (.cons (.receive i id (h.left.getElem? (i := 0) rfl) (h.left.getElem? (i := 1) rfl)) .nil)
      (ih (i := i + 1) h.right)

theorem slotsMade_spillCode (f i : Nat) (ids : List Ident) :
    slotsMade f (3 * i) (spillCode f (3 * i) i ids) =
      (List.range' i ids.length).map fun j => ⟨f, 3 * j + 1⟩ := by
  induction ids generalizing i with
  | nil => rfl
  | cons id ids ih =>
    have hlater := ih (i + 1)
    rw [spillCode_cons, slotsMade_append, List.length_cons (a := id), List.range'_succ,
      List.map_cons, ← hlater]
    rfl

theorem resultSlots_spillCode (f k i : Nat) (ids : List Ident) :
    resultSlots f k (spillCode f k i ids) = [] := by
  induction ids generalizing k i with
  | nil => rfl
  | cons id ids ih =>
    rw [spillCode_cons, resultSlots_append]
    exact ih _ _

variable {env : Env}

theorem findVar?_spillEnv_ne (henv : env.scopes ≠ []) (name : String) :
    (spillEnv f k env ids).findVar? name ≠ none ↔
      env.findVar? name ≠ none ∨ name ∈ ids.map (·.name) := by
  induction ids generalizing k env with
  | nil => simp [spillEnv]
  | cons id ids ih =>
    rw [spillEnv, ih (scopes_bound_ne henv _), findVar?_bound henv, List.map_cons, List.mem_cons]
    by_cases hname : id.name = name
    · simp [hname]
    · simp [hname, Ne.symm hname]

/-- A name that comes later in the list keeps its slot. -/
theorem findVar?_spillEnv_of_not_mem (henv : env.scopes ≠ []) {name : String}
    (hname : name ∉ ids.map (·.name)) :
    (spillEnv f k env ids).findVar? name = env.findVar? name := by
  induction ids generalizing k env with
  | nil => rfl
  | cons id ids ih =>
    rw [List.map_cons, List.mem_cons, not_or] at hname
    rw [spillEnv, ih (scopes_bound_ne henv _) hname.2, findVar?_bound henv,
      if_neg (Ne.symm hname.1)]

/-- Of parameters with one name the last one gives the variable its slot. -/
theorem slotIn_spillEnv (henv : env.scopes ≠ []) {j : Nat} {id : Ident} (hid : ids[j]? = some id)
    (hlast : id.name ∉ (ids.drop (j + 1)).map (·.name)) :
    slotIn (spillEnv f k env ids) id.name = ⟨f, k + 3 * j + 1⟩ := by
  induction ids generalizing k j env with
  | nil => cases hid
  | cons a ids ih =>
    cases j with
    | zero =>
      cases hid
      refine slotIn_eq (v := { name := id.name, slot := ⟨f, k + 1⟩, elem := .i32 }) ?_
      change id.name ∉ ids.map (·.name) at hlast
      rw [spillEnv, findVar?_spillEnv_of_not_mem (scopes_bound_ne henv _) hlast,
        findVar?_bound henv, if_pos rfl]
    | succ j =>
      rw [spillEnv, ih (scopes_bound_ne henv _) hid hlast]
      congr 1
      omega

/-- Every name of a parameter is the name of a last one. -/
theorem exists_last {name : String} (h : name ∈ ids.map (·.name)) :
    ∃ (j : Nat) (id : Ident), ids[j]? = some id ∧ id.name = name ∧
      id.name ∉ (ids.drop (j + 1)).map (·.name) := by
  induction ids with
  | nil => cases h
  | cons a ids ih =>
    by_cases hlater : name ∈ ids.map (·.name)
    · obtain ⟨j, id, hid, hname, hlast⟩ := ih hlater
      exact ⟨j + 1, id, hid, hname, hlast⟩
    · rw [List.map_cons, List.mem_cons] at h
      have hname : a.name = name := (h.resolve_right hlater).symm
      exact ⟨0, a, rfl, hname, hname.symm ▸ hlater⟩

end Parameters

/-! ## Whole functions -/

/-- The names of the variables of a function. -/
def varNames (ids : List Ident) (body : List Expr) : List String :=
  ids.map (·.name) ++ Expr.assignedAll body

/-- What the text of a function asks for, where the definitions `ds` precede its body and the value of
`returned` is used last. -/
def asked (ids : List Ident) (ds : List Definition) (body : List Expr) (returned : Option Expr) :
    List Access :=
  received 0 ids ++ (Expr.accessesAll (varNames ids body) ds body ++
    returned.toList.flatMap fun e => e.uses (varNames ids body) e.pos)

/-- A value makes the call that the text asks for. -/
inductive CallSite.MadeBy (f : Nat) : CallSite → Value → Prop
  | direct (pos : Position) (callee : String) (place : Nat) (type : Ty) (args : List ValueRef) :
    MadeBy f ⟨pos, callee, args.length⟩
      (Draft.placed f { op := .call, type, aux := .func place, pos } args)
  | indirect (pos : Position) (callee : String) (sig : Signature) (r : ValueRef)
    (args : List ValueRef) :
    MadeBy f ⟨pos, callee, args.length⟩
      (Draft.placed f { op := .callIndirect, type := sig.result, aux := .signature sig, pos }
        (r :: args))

/-- The function `f` with the given code has one slot for each of its variables and one for each of
its calls. -/
structure OneSlot (f : Nat) (ids : List Ident) (ds : List Definition) (body : List Expr)
    (returned : Option Expr) (code : List Value) (slot : String → ValueRef) : Prop where
  /-- There is a slot for each parameter, for each other name that is assigned to, and for each
  call. -/
  count : (code.countP fun v => v.op.isSlot) = ids.length +
    ((Expr.assignedAll body).dedup.filter fun x => x ∉ ids.map (·.name)).length +
    (Expr.callsAll body).length
  /-- A variable has a slot. -/
  made : ∀ x ∈ varNames ids body, slot x ∈ slotsMade f 0 code
  /-- No other variable has the same one. -/
  apart : ∀ x ∈ varNames ids body, ∀ y ∈ varNames ids body, slot x = slot y → x = y
  /-- Of parameters with one name the last one gives the variable its slot. -/
  params : ∀ (i : Nat) (id : Ident), ids[i]? = some id →
    id.name ∉ (ids.drop (i + 1)).map (·.name) → slot id.name = ⟨f, 3 * i + 1⟩
  /-- The slots are accessed as the text asks for. -/
  accesses : List.Forall₂ (Access.DoneBy f code slot) (asked ids ds body returned)
    (numbered Op.isAccess 0 code)
  /-- The calls are made as the text asks for. -/
  calls : List.Forall₂ (CallSite.MadeBy f) (Expr.callsAll body) (code.filter fun v => v.op.isCall)
  /-- A call has a slot that is no variable's, and its result is stored there and nowhere else. -/
  results : ∀ (j : Nat) (v : Value), code[j]? = some v → v.op.isCall = true →
    ⟨f, j + 1⟩ ∈ slotsMade f 0 code ∧ (∀ x ∈ varNames ids body, slot x ≠ ⟨f, j + 1⟩) ∧
    code[j + 2]? = some (storeCode f ⟨f, j + 1⟩ ⟨f, j⟩ v.pos) ∧
    ∀ (i : Nat) (w : Value) (s r : ValueRef), code[i]? = some w → w.op = .store →
      w.args = [some s, some r] → s = ⟨f, j + 1⟩ ∨ r = ⟨f, j⟩ → i = j + 2

section Whole

variable {f : Nat} {code : List Value} {slot : String → ValueRef} {ids : List Ident}
  {ds : List Definition} {body : List Expr} {returned : Option Expr}

/-- What is done once parts are evaluated does not depend on the slots. -/
theorem action_asked (ids : List Ident) (ds : List Definition) (body : List Expr)
    (returned : Option Expr) :
    (asked ids ds body returned).filterMap Access.action? = Expr.actionsAll body := by
  rw [asked, List.filterMap_append, List.filterMap_append, action_received,
    Expr.action_accessesAll, Expr.action_flatMap_uses, List.append_nil, List.nil_append]

theorem filterMap_numbered_isCall (k : Nat) (vs : List Value) :
    (numbered Op.isAccess k vs).filterMap (fun v => if v.1.op.isCall then some v.1 else none) =
      vs.filter fun v => v.op.isCall := by
  induction vs generalizing k with
  | nil => rfl
  | cons v vs ih =>
    have haccess : v.op.isCall = true → v.op.isAccess = true := by
      cases v.op <;> simp [Op.isCall, Op.isAccess]
    rw [numbered_cons, List.filterMap_append, ih, List.filter_cons]
    cases hcall : v.op.isCall with
    | true => simp [haccess hcall, hcall]
    | false => cases v.op.isAccess <;> simp [hcall]

/-- Of what the text asks for, the calls are done by the calls of the code. -/
theorem calls_of_done (h : List.Forall₂ (Access.DoneBy f code slot) (asked ids ds body returned)
    (numbered Op.isAccess 0 code)) :
    List.Forall₂ (CallSite.MadeBy f) (Expr.callsAll body) (code.filter fun v => v.op.isCall) := by
  have hsites : (asked ids ds body returned).filterMap
      (fun a => a.action?.bind Action.site?) = Expr.callsAll body := by
    rw [← List.filterMap_filterMap, action_asked]
    rfl
  rw [← hsites, ← filterMap_numbered_isCall 0]
  refine List.rel_filterMap ?_ h
  intro a v hv
  cases hv with
  | receive => exact .none
  | read => exact .none
  | fetch => exact .none
  | write => exact .none
  | keep => exact .none
  | call i pos callee place type args => exact .some (.direct pos callee place type args)
  | callThrough i pos callee sig args => exact .some (.indirect pos callee sig ⟨f, i⟩ args)

/-- Every value that accesses a slot or calls does something that the text asks for. -/
theorem exists_done (h : List.Forall₂ (Access.DoneBy f code slot) (asked ids ds body returned)
    (numbered Op.isAccess 0 code)) {i : Nat} {v : Value} (hv : code[i]? = some v)
    (haccess : v.op.isAccess = true) :
    ∃ a ∈ asked ids ds body returned, Access.DoneBy f code slot a (v, i) := by
  have hmem : (v, i) ∈ numbered Op.isAccess 0 code := mem_numbered_zero.2 ⟨hv, haccess⟩
  obtain ⟨j, hj⟩ := List.mem_iff_getElem?.1 hmem
  obtain ⟨hlt, hget⟩ := List.getElem?_eq_some_iff.1 hj
  have hlt' := h.length_eq ▸ hlt
  have hdone := h.get hlt' hlt
  rw [List.get_eq_getElem, List.get_eq_getElem, hget] at hdone
  exact ⟨_, List.getElem_mem hlt', hdone⟩

/-- After a call come the slot for its result and the store into it. -/
theorem after_call {a : Access} {v : Value} {j : Nat} (h : Access.DoneBy f code slot a (v, j))
    (hcall : v.op.isCall = true) :
    (∃ type name, code[j + 1]? = some (slotCode f type name v.pos)) ∧
      code[j + 2]? = some (storeCode f ⟨f, j + 1⟩ ⟨f, j⟩ v.pos) := by
  cases h with
  | call i pos callee place type args hslot hstore => exact ⟨⟨type, callee, hslot⟩, hstore⟩
  | callThrough i pos callee sig args hslot hstore => exact ⟨⟨sig.result, callee, hslot⟩, hstore⟩
  | receive => cases hcall
  | read => cases hcall
  | fetch => cases hcall
  | write => cases hcall
  | keep => cases hcall

/-- A store into the slot of a call that is no variable's, or of the result of a call, is the one that
the call is followed by. -/
theorem store_of_call {a : Access} {v w : Value} {i j : Nat} {s r : ValueRef}
    (hv : code[j]? = some v) (hcall : v.op.isCall = true)
    (hnot : ∀ name, a.action? = some (.assign name) → slot name ≠ ⟨f, j + 1⟩)
    (h : Access.DoneBy f code slot a (w, i)) (hstore : w.op = .store)
    (hargs : w.args = [some s, some r]) (hat : s = ⟨f, j + 1⟩ ∨ r = ⟨f, j⟩) : i = j + 2 := by
  have hne : ∀ (m : Nat) (u : Value), code[m]? = some u → u.op.isCall = false → m ≠ j := by
    rintro m u hu hnotcall rfl
    obtain rfl := Option.some.inj (hu.symm.trans hv)
    rw [hcall] at hnotcall
    cases hnotcall
  cases h with
  | receive m id harg hslot =>
    have hm := hne _ _ harg rfl
    cases hargs
    rcases hat with hat | hat
    · exact absurd (Nat.succ.inj (ValueRef.mk.inj hat).2) hm
    · exact absurd (ValueRef.mk.inj hat).2 hm
  | write i m pos name u hu hnotcall =>
    have hm := hne _ _ hu hnotcall
    cases hargs
    rcases hat with hat | hat
    · exact absurd hat (hnot name rfl)
    · exact absurd (ValueRef.mk.inj hat).2 hm
  | keep m pos u hu hucall hpos =>
    cases hargs
    rcases hat with hat | hat
    · rw [Nat.succ.inj (ValueRef.mk.inj hat).2]
    · rw [(ValueRef.mk.inj hat).2]
  | read => cases hstore
  | fetch => cases hstore
  | call => cases hstore
  | callThrough => cases hstore

/-- The names that are assigned to are variables. -/
theorem mem_assigned_of_asked {a : Access} {name : String} (ha : a ∈ asked ids ds body returned)
    (hname : a.action? = some (.assign name)) : name ∈ varNames ids body := by
  have hmem : Action.assign name ∈ (asked ids ds body returned).filterMap Access.action? :=
    List.mem_filterMap.2 ⟨a, ha, hname⟩
  rw [action_asked] at hmem
  exact List.mem_append_right _ (List.mem_filterMap.2 ⟨_, hmem, rfl⟩)

/-- The slots of a function are those of its parameters, those of the variables `names`, which are not
parameters, and those for the results of its calls. -/
structure Laid (f : Nat) (ids : List Ident) (body : List Expr) (code : List Value)
    (slot : String → ValueRef) (names : List String) : Prop where
  perm : (slotsMade f 0 code).Perm (((List.range ids.length).map fun j => ⟨f, 3 * j + 1⟩) ++
    (names.map slot ++ resultSlots f 0 code))
  nodup : names.Nodup
  mem : ∀ x, x ∈ names ↔ x ∉ ids.map (·.name) ∧ x ∈ Expr.assignedAll body
  params : ∀ (j : Nat) (id : Ident), ids[j]? = some id →
    id.name ∉ (ids.drop (j + 1)).map (·.name) → slot id.name = ⟨f, 3 * j + 1⟩

theorem mem_paramSlots {j : Nat} {id : Ident} (hid : ids[j]? = some id) :
    (⟨f, 3 * j + 1⟩ : ValueRef) ∈ (List.range ids.length).map fun j => ⟨f, 3 * j + 1⟩ :=
  List.mem_map.2 ⟨j, List.mem_range.2 (List.getElem?_eq_some_iff.1 hid).1, rfl⟩

namespace Laid

variable {names : List String} (h : Laid f ids body code slot names)
include h

/-- A variable has the slot of a parameter or is one of the others. -/
theorem cases_var {x : String} (hx : x ∈ varNames ids body) :
    (∃ (j : Nat) (id : Ident), ids[j]? = some id ∧ id.name = x ∧ slot x = ⟨f, 3 * j + 1⟩) ∨
      x ∈ names := by
  by_cases hparam : x ∈ ids.map (·.name)
  · obtain ⟨j, id, hid, hname, hlast⟩ := exists_last hparam
    exact .inl ⟨j, id, hid, hname, hname ▸ h.params j id hid hlast⟩
  · exact .inr ((h.mem x).2 ⟨hparam, (List.mem_append.1 hx).resolve_left hparam⟩)

theorem nodup_slots : (((List.range ids.length).map fun j => (⟨f, 3 * j + 1⟩ : ValueRef)) ++
    (names.map slot ++ resultSlots f 0 code)).Nodup :=
  h.perm.nodup_iff.1 (nodup_slotsMade f 0 code)

theorem made {x : String} (hx : x ∈ varNames ids body) : slot x ∈ slotsMade f 0 code := by
  rw [h.perm.mem_iff]
  rcases h.cases_var hx with ⟨j, id, hid, -, hslot⟩ | hx
  · rw [hslot]
    exact List.mem_append_left _ (mem_paramSlots hid)
  · exact List.mem_append_right _ (List.mem_append_left _ (List.mem_map_of_mem hx))

theorem apart {x y : String} (hx : x ∈ varNames ids body) (hy : y ∈ varNames ids body)
    (heq : slot x = slot y) : x = y := by
  obtain ⟨-, hrest, hdisjoint⟩ := List.nodup_append'.1 h.nodup_slots
  have hnot : ∀ {j : Nat} {id : Ident} {z : String}, ids[j]? = some id → z ∈ names →
      slot z ≠ ⟨f, 3 * j + 1⟩ := by
    intro j id z hid hz hslot
    exact hdisjoint (mem_paramSlots hid)
      (hslot ▸ List.mem_append_left _ (List.mem_map_of_mem hz))
  rcases h.cases_var hx with ⟨i, id, hid, hname, hslot⟩ | hx'
  · rcases h.cases_var hy with ⟨j, id', hid', hname', hslot'⟩ | hy'
    · rw [hslot, hslot'] at heq
      have hij : i = j := by
        have := (ValueRef.mk.inj heq).2
        omega
      subst hij
      obtain rfl := Option.some.inj (hid.symm.trans hid')
      exact hname.symm.trans hname'
    · exact absurd (heq.symm.trans hslot) (hnot hid hy')
  · rcases h.cases_var hy with ⟨j, id', hid', -, hslot'⟩ | hy'
    · exact absurd (heq.trans hslot') (hnot hid' hx')
    · exact List.inj_on_of_nodup_map (List.nodup_append'.1 hrest).1 hx' hy' heq

theorem not_result {j : Nat} {v : Value} (hv : code[j]? = some v) (hcall : v.op.isCall = true)
    {x : String} (hx : x ∈ varNames ids body) : slot x ≠ ⟨f, j + 1⟩ := by
  intro heq
  have hresult := mem_resultSlots (f := f) hv hcall
  obtain ⟨-, hrest, hdisjoint⟩ := List.nodup_append'.1 h.nodup_slots
  rcases h.cases_var hx with ⟨i, id, hid, -, hslot⟩ | hx'
  · rw [← heq, hslot] at hresult
    exact hdisjoint (mem_paramSlots hid) (List.mem_append_right _ hresult)
  · rw [← heq] at hresult
    exact (List.nodup_append'.1 hrest).2.2 (List.mem_map_of_mem hx') hresult

theorem length_names : names.length =
    ((Expr.assignedAll body).dedup.filter fun x => x ∉ ids.map (·.name)).length := by
  refine ((List.perm_ext_iff_of_nodup h.nodup ((List.nodup_dedup _).filter _)).2 ?_).length_eq
  intro x
  rw [h.mem, List.mem_filter, List.mem_dedup, decide_eq_true_iff]
  exact And.comm

/-- Such a function has one slot for each variable, if its slots are accessed as the text asks
for. -/
theorem oneSlot (hdone : List.Forall₂ (Access.DoneBy f code slot) (asked ids ds body returned)
    (numbered Op.isAccess 0 code)) : OneSlot f ids ds body returned code slot := by
  have hcalls := calls_of_done hdone
  refine ⟨?_, fun x hx => h.made hx, fun x hx y hy heq => h.apart hx hy heq, h.params, hdone, hcalls,
    ?_⟩
  · have hcount := h.perm.length_eq
    rw [slotsMade, List.length_map, length_numbered, List.length_append, List.length_append,
      List.length_map, List.length_map, List.length_range, resultSlots, List.length_map,
      length_numbered, h.length_names] at hcount
    rw [hcount, hcalls.length_eq, List.countP_eq_length_filter, Nat.add_assoc]
  · intro j v hv hcall
    have haccess : v.op.isAccess = true := by
      revert hcall
      cases v.op <;> simp [Op.isCall, Op.isAccess]
    obtain ⟨a, -, ha⟩ := exists_done hdone hv haccess
    obtain ⟨⟨type, name, hslot⟩, hstore⟩ := after_call ha hcall
    refine ⟨mem_slotsMade.2 ⟨j + 1, _, rfl, hslot, rfl⟩, fun x hx => h.not_result hv hcall hx,
      hstore, ?_⟩
    intro i w s r hw hop hargs hat
    obtain ⟨b, hb, hdoneb⟩ := exists_done hdone hw (by rw [hop]; rfl)
    refine store_of_call hv hcall (fun x hx => ?_) hdoneb hop hargs hat
    exact h.not_result hv hcall (mem_assigned_of_asked hb hx)

end Laid

/-- Where the parameters get their slots and the body is lowered after them, the slots are as they
should be. The values `tail` at the end read what is returned. -/
theorem oneSlot_of_lowersAll {n : Nat} {env env' : Env} {xs : List (Position × Operand)}
    {vs tail : List Value} {new : List Draft} (hopened : env.scopes ≠ [])
    (hempty : ∀ x, env.findVar? x = none) (hlinked : Linked ds (spillEnv f 0 env ids) n)
    (hlow : LowersAll f (spillEnv f 0 env ids) (spillCode f 0 0 ids).length n body xs env' vs new)
    (hslots : ∀ k, slotsMade f k tail = []) (hresults : ∀ k, resultSlots f k tail = [])
    (htail : ∀ code slot k, List.Forall₂
        (fun e x => x.1 = e.pos ∧ Fulfils f code slot (varNames ids body) e x.2) body xs →
      List.Forall₂ (Access.DoneBy f code slot)
        (returned.toList.flatMap fun e => e.uses (varNames ids body) e.pos)
        (numbered Op.isAccess k tail)) :
    OneSlot f ids ds body returned (spillCode f 0 0 ids ++ (vs ++ tail)) (slotIn env') := by
  have henv := scopes_spillEnv f 0 env ids hopened
  have hbinds := binds_of_lowersAll henv hlow
  have hparams : ∀ x, (spillEnv f 0 env ids).findVar? x ≠ none ↔ x ∈ ids.map (·.name) := by
    intro x
    rw [findVar?_spillEnv_ne hopened]
    simp [hempty]
  have hvars : ∀ x, x ∈ varNames ids body ↔ env'.findVar? x ≠ none := by
    intro x
    rw [hbinds.names, hparams, varNames, List.mem_append]
  have hsits : Sits (spillCode f 0 0 ids ++ (vs ++ tail)) 0 (spillCode f 0 0 ids ++ (vs ++ tail)) :=
    List.prefix_rfl
  obtain ⟨names, hnodup, hmem, hperm⟩ := makes_of_lowersAll henv hlow
  have hlaid : Laid f ids body (spillCode f 0 0 ids ++ (vs ++ tail)) (slotIn env') names := by
    refine ⟨?_, hnodup, fun x => ?_, fun j id hid hlast => ?_⟩
    · have hspill := slotsMade_spillCode f 0 ids
      rw [Nat.mul_zero, ← List.range_eq_range'] at hspill
      rw [slotsMade_append, slotsMade_append, hslots, hspill, List.append_nil, resultSlots_append,
        resultSlots_append, resultSlots_spillCode, hresults, List.nil_append, List.append_nil,
        Nat.zero_add]
      exact hperm.append_left _
    · have hx := hbinds.names x
      rw [hmem]
      have hp := hparams x
      tauto
    · have hbound : (spillEnv f 0 env ids).findVar? id.name ≠ none :=
        (hparams _).2 (List.mem_map_of_mem (List.mem_of_getElem? hid))
      rw [hbinds.slotIn_eq hbound, slotIn_spillEnv hopened hid hlast, Nat.zero_add]
  obtain ⟨hdone, hreads⟩ := done_of_lowersAll hvars henv hlinked (.refl hbinds.opened)
    (by simpa using hsits.right.left) hlow
  refine hlaid.oneSlot ?_
  rw [asked, numbered_append, numbered_append, Nat.zero_add]
  exact List.rel_append (spillCode_done (i := 0) hsits.left)
    (List.rel_append hdone (htail _ _ _ hreads))

end Whole

/-! ## Whole programs -/

/-- The function at place `f` of the module has one block, which lists its values in order, and these
give each of its variables and each of its calls one slot. -/
def OneSlotAt (m : Module) (f : Nat) (ids : List Ident) (ds : List Definition) (body : List Expr)
    (returned : Option Expr) : Prop :=
  ∃ g b slot, m.funcs[f]? = some g ∧ g.blocks = [b] ∧ b.values = Draft.refs f g.values.length ∧
    OneSlot f ids ds body returned g.core.values slot

theorem oneSlotAt_of_drafted {m : Module} {drafts : List Draft} {f : Nat} {d : Draft}
    {ids : List Ident} {ds : List Definition} {body : List Expr} {returned : Option Expr}
    {slot : String → ValueRef} (hm : m.Drafted drafts) (hd : drafts[f]? = some d)
    (hinside : d.external = false) (h : OneSlot f ids ds body returned d.code slot) :
    OneSlotAt m f ids ds body returned := by
  obtain ⟨g, hg, hcore⟩ := hm.getElem?_funcs hd
  have hfunc : d.func f =
      { name := d.name, sig := some d.sig, paramNames := d.paramNames, values := d.code,
        blocks := [d.block f], body := [0], entry := some ⟨f, 0⟩ } := by
    rw [Draft.func, hinside]
    rfl
  have hvalues : g.core.values = d.code := by rw [hcore, hfunc]
  have hlength : g.values.length = d.code.length := by
    rw [← hvalues, Func.core, List.length_map]
  have hblocks : g.blocks = [d.block f] := by
    have hsame : g.core.blocks = g.blocks := rfl
    rw [← hsame, hcore, hfunc]
  refine ⟨g, d.block f, slot, hg, hblocks, ?_, ?_⟩
  · rw [hlength]
    rfl
  · rw [hvalues]
    exact h

theorem forall₂_getLast? {α β : Type} {R : α → β → Prop} {as : List α} {bs : List β}
    (h : List.Forall₂ R as bs) {b : β} (hb : bs.getLast? = some b) :
    ∃ a, as.getLast? = some a ∧ R a b := by
  induction h with
  | nil => cases hb
  | @cons x y xs ys hx hxs ih =>
    cases hxs with
    | nil =>
      cases hb
      exact ⟨x, rfl, hx⟩
    | cons =>
      rw [List.getLast?_cons_cons] at hb
      obtain ⟨a, ha, hab⟩ := ih hb
      exact ⟨a, by rw [List.getLast?_cons_cons, ha], hab⟩

/-- The code of a definition gives each variable one slot. -/
theorem oneSlotAt_of_compiled {m : Module} {drafts : List Draft} {defs : List Definition}
    {d : Definition} {before : List Definition} (hm : m.Drafted drafts)
    (h : Meaning.Compiled drafts defs d before) :
    ∃ ids : List Ident, d.params = ids.map .name ∧
      OneSlotAt m (startDrafts.length + before.length) ids (d :: before) d.body d.body.getLast? := by
  obtain ⟨n, env, env', names, symbol, xs, last, vs, new, hlinked, hnames, hbody, hlast, -, hdraft,
    -⟩ := h
  have hload : ∀ p : Op → Bool, p .load = false → ∀ k,
      numbered p k (readCode n last.1 last.2) = [] := by
    intro p hp k
    exact numbered_eq_nil (fun w hw => by rw [op_readCode hw, hp]) k
  refine ⟨names, params_eq_of_paramNames hnames, ?_⟩
  rw [← hlinked.count]
  have hcode : (completed symbol names n vs last).code =
      spillCode n 0 0 names ++ (vs ++ readCode n last.1 last.2) := by
    simp [completed, header, Draft.ret]
  have hone : OneSlot n names (d :: before) d.body d.body.getLast?
      (completed symbol names n vs last).code (slotIn env') := by
    rw [hcode]
    refine oneSlot_of_lowersAll (List.cons_ne_nil _ _) (fun x => rfl)
      (hlinked.body (d := d) hnames) hbody (fun k => by rw [slotsMade, hload _ rfl]; rfl)
      (fun k => by rw [resultSlots, hload _ rfl]; rfl) ?_
    intro code slot k hreads
    obtain ⟨e, he, hpos, hread⟩ := forall₂_getLast? hreads hlast
    rw [he, Option.toList_some, List.flatMap_singleton, ← hpos]
    exact hread.done _ _
  exact oneSlotAt_of_drafted hm hdraft rfl hone

/-- When a program is lowered without a failure, every variable of the entry function and of every
function of the program has one slot for the whole life of the function, and so has every call. -/
theorem lower_oneSlot {o : CompileOptions} {es : List Expr} (h : (lower o es).failure = none) :
    (lower o es).module.funcs.length = startDrafts.length + (afterAll [] es).length ∧
    OneSlotAt (lower o es).module entryPlace [] [] es none ∧
    ∀ d before, d :: before <:+ afterAll [] es → ∃ ids : List Ident, d.params = ids.map .name ∧
      OneSlotAt (lower o es).module (startDrafts.length + before.length) ids (d :: before) d.body
        d.body.getLast? := by
  obtain ⟨xs, env, vs, new, hlow, hm, -⟩ := lower_derived h
  have hnew : ∀ (i : Nat) d, new[i]? = some d →
      (programDrafts vs new)[startDrafts.length + i]? = some d := by
    intro i d hd
    rw [programDrafts, List.getElem?_append_right (by simp [startDrafts])]
    simpa [startDrafts] using hd
  have hcompiled : CompiledAll (programDrafts vs new) (afterAll [] es) (afterAll [] es) :=
    compiled_afterAll linked_start (by intro d before hd; simp at hd) List.suffix_rfl hlow hnew
  refine ⟨?_, ?_, fun d before hd => oneSlotAt_of_compiled hm (hcompiled d before hd)⟩
  · rw [hm.length_funcs, ← (linked_afterAll linked_start hlow).count, programDrafts,
      List.length_append, List.length_set]
  · have hdraft : (programDrafts vs new)[entryPlace]? = some (programDraft vs) := rfl
    have hcode : (programDraft vs).code = vs ++ [statusCode entryPlace] := rfl
    have hstart : Linked [] (spillEnv entryPlace 0 startEnv []) startDrafts.length := linked_start
    have hone : OneSlot entryPlace [] [] es none (programDraft vs).code (slotIn env) := by
      rw [hcode]
      exact oneSlot_of_lowersAll (List.cons_ne_nil _ _) (fun x => rfl) hstart hlow
        (fun k => rfl) (fun k => rfl) (fun code slot k _ => .nil)
    exact oneSlotAt_of_drafted hm hdraft rfl hone

/-- A function with two parameters of one name, one of which is assigned to, and a variable that is
assigned to twice. -/
def reassigning : List Expr :=
  [.assign {} { name := "twice" } (.function {} [.name { name := "x" }, .name { name := "x" }]
    [.assign {} { name := "y" } (.call {} { name := "+" }
        [.name { name := "x" }, .assign {} { name := "x" } (.int {} 2)]),
      .assign {} { name := "y" } (.name { name := "x" })]),
    .assign {} { name := "n" } (.call {} { name := "twice" } [.int {} 1, .int {} 1]),
    .assign {} { name := "n" } (.call {} { name := "twice" } [.name { name := "n" }, .int {} 1])]

/-- In it there are four slots, and three in the entry function. -/
theorem reassigning_oneSlot : (lower {} reassigning).failure = none ∧
    OneSlotAt (lower {} reassigning).module entryPlace [] [] reassigning none ∧
    (lower {} reassigning).module.funcs.map (fun g => g.values.countP fun v => v.op.isSlot) =
      [0, 0, 0, 3, 4] := by
  have hnone : (lower {} reassigning).failure = none := by decide +kernel
  exact ⟨hnone, (lower_oneSlot hnone).2.1, by decide +kernel⟩

end Wordlang
