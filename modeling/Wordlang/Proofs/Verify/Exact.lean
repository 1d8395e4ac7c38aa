import Wordlang.IR.Verify
import Wordlang.Proofs.Verify.Rules

/-!
# The verifier accepts the well-formed modules

Each part of the verifier finds nothing exactly if the rule that it checks is obeyed. What is computed
so far grows along a body, so that a walk without a violation is a rule about every value and every
block and those before it.
-/

namespace Wordlang.IR

variable {p : Place} {flaw : Flaw} {wrong : Bool}

theorem report_eq_nil : report p wrong flaw = [] ↔ wrong = false := by
  cases wrong <;> simp [report]

theorem ite_cons_eq_nil {α : Type} {c : Prop} [Decidable c] {x : α} {l : List α} :
    (if c then [x] else l) = [] ↔ ¬ c ∧ l = [] := by
  by_cases hc : c <;> simp [hc]

/-- Whether something is reported for the elements of a list does not depend on their numbers. -/
theorem flatMap_zipIdx_eq_nil {α β : Type} {g : α × Nat → List β} {q : α → Prop} {l : List α}
    (h : ∀ a ∈ l, ∀ i, g (a, i) = [] ↔ q a) : l.zipIdx.flatMap g = [] ↔ ∀ a ∈ l, q a := by
  rw [List.flatMap_eq_nil_iff]
  conv_rhs => rw [← List.zipIdx_map_fst 0 l, List.forall_mem_map]
  refine forall₂_congr fun x hx => h x.1 ?_ x.2
  rw [← List.zipIdx_map_fst 0 l]
  exact List.mem_map_of_mem hx

theorem forall_mem_zip {α β : Type} {q : α → β → Prop} {as : List α} {bs : List β} :
    (∀ x ∈ as.zip bs, q x.1 x.2) ↔ ∀ (i : Nat) a b, as[i]? = some a → bs[i]? = some b → q a b := by
  constructor
  · intro h i a b ha hb
    exact h (a, b) (List.mem_iff_getElem?.2 ⟨i, List.getElem?_zip_eq_some.2 ⟨ha, hb⟩⟩)
  · rintro h ⟨a, b⟩ hx
    obtain ⟨i, hi⟩ := List.mem_iff_getElem?.1 hx
    obtain ⟨ha, hb⟩ := List.getElem?_zip_eq_some.1 hi
    exact h i a b ha hb

theorem accepts_iff {sig : Signature} {n : Nat} : sig.accepts n = true ↔
    sig.params.length ≤ n ∧ (sig.variadic = false → n = sig.params.length) := by
  unfold Signature.accepts
  cases sig.variadic with
  | true => simp
  | false =>
    simp only [Bool.false_eq_true, if_false, decide_eq_true_eq, forall_const]
    omega

namespace Module

variable {m : Module} {f : Func} {sig called : Signature} {v : Value} {n b : Nat} {t : Ty}
  {defined : List ValueRef} {args : List (Option ValueRef)}

/-! ## Values -/

/-- The arguments are there. -/
def Found (m : Module) (args : List (Option ValueRef)) : Prop :=
  ∀ a ∈ args, ∃ r x, a = some r ∧ m.value? r = some x

theorem verifyArgs_eq_nil :
    verifyArgs f b n defined v = [] ↔ ∀ a ∈ v.args, ∃ x ∈ defined, a = some x := by
  refine flatMap_zipIdx_eq_nil fun a _ i => ?_
  cases a with
  | none => simp
  | some r => simp [report_eq_nil]

/-- A call refers to a function exactly if it has a callee. -/
theorem refersTo_iff {s : Option Signature} (hop : v.op = .call ∨ v.op = .funcAddr) :
    m.RefersTo v.aux s ↔ ∃ g, m.callee? v = some g ∧ g.sig = s := by
  constructor
  · intro h
    generalize haux : v.aux = a at h
    cases h with
    | @listed i g hg =>
      refine ⟨g, ?_, rfl⟩
      rcases hop with hop | hop <;> simp [callee?, hop, haux, hg]
    | outer name sig =>
      refine ⟨{ name, sig := s, foreign := true }, ?_, rfl⟩
      rcases hop with hop | hop <;> simp [callee?, hop, haux]
  · rintro ⟨g, hg, rfl⟩
    unfold callee? at hg
    split at hg
    case h_1 i _ haux | h_2 i _ haux =>
      rw [haux]
      exact .listed hg
    case h_3 name sig _ haux | h_4 name sig _ haux =>
      rw [haux]
      obtain rfl := Option.some.inj hg
      exact .outer name sig
    case h_5 => cases hg

theorem HasType.value {r : ValueRef} (h : m.HasType (some r) t) :
    ∃ x, m.value? r = some x ∧ x.type = t := by
  obtain ⟨r', x, hr, hx, ht⟩ := h
  obtain rfl := Option.some.inj hr
  exact ⟨x, hx, ht⟩

theorem hasType_some {r : ValueRef} {x : Value} (hx : m.value? r = some x) :
    m.HasType (some r) t ↔ x.type = t := by
  constructor
  · intro h
    obtain ⟨x', hx', ht⟩ := h.value
    obtain rfl := Option.some.inj (hx.symm.trans hx')
    exact ht
  · exact fun ht => ⟨r, x, rfl, hx, ht⟩

theorem holds_iff {r : ValueRef} {x : Value} (hx : m.value? r = some x) :
    m.Holds r t ↔ (x.op == .alloca && x.elem != t) = false := by
  simp [Holds, hx]

/-- Arguments may be passed exactly if the verifier accepts their number and their types. -/
theorem passes_iff (hargs : m.Found args) (here : Place) :
    m.Passes called args ↔ called.accepts args.length = true ∧
      ((called.params.zip args).zipIdx.flatMap fun ((want, a), i) =>
        match a.bind m.value? with
        | some x => report here (x.type != want) (.callArg i x.type want)
        | none => []) = [] := by
  have htypes : ((called.params.zip args).zipIdx.flatMap fun ((want, a), i) =>
        match a.bind m.value? with
        | some x => report here (x.type != want) (.callArg i x.type want)
        | none => []) = [] ↔ ∀ x ∈ called.params.zip args, m.HasType x.2 x.1 := by
    refine flatMap_zipIdx_eq_nil fun y hy i => ?_
    obtain ⟨want, a⟩ := y
    obtain ⟨r, x, rfl, hx⟩ := hargs a (List.of_mem_zip hy).2
    simp [hx, report_eq_nil, hasType_some hx]
  have hzip : (∀ x ∈ called.params.zip args, m.HasType x.2 x.1) ↔ _ :=
    forall_mem_zip (q := fun t a => m.HasType a t)
  rw [htypes, hzip, accepts_iff, and_assoc]
  exact ⟨fun h => ⟨h.enough, h.limited, h.typed⟩, fun ⟨h, h', h''⟩ => ⟨h, h', h''⟩⟩

theorem Found.callArgs (hargs : m.Found v.args) : m.Found v.callArgs := by
  unfold Value.callArgs
  split
  · exact fun a ha => hargs a (List.mem_of_mem_drop ha)
  · exact hargs

/-- The rule for calls, as far as it does not depend on what is called. -/
theorem verifyCall_eq_nil (hop : v.op = .call ∨ v.op = .callIndirect)
    (hsig : m.callSignature? v = some called) (hargs : m.Found v.args) :
    m.verifyValue f sig n v = [] ↔ v.type = called.result ∧
      (v.op = .callIndirect → ((v.args.head?.join.bind m.value?).map (·.type)) = some .ptr) ∧
      m.Passes called v.callArgs := by
  rw [passes_iff hargs.callArgs (.value f.name n)]
  rcases hop with hop | hop
  all_goals
    simp only [verifyValue, hop, hsig, List.append_eq_nil_iff, report_eq_nil, bne_eq_false_iff_eq,
      ite_cons_eq_nil]
    refine and_congr_right fun _ => and_congr not_and_not_right (and_congr ?_ Iff.rfl)
    rw [Bool.not_eq_true', Bool.not_eq_false]

/-- The verifier finds nothing wrong with a value that obeys its typing rule. -/
theorem ValueRule.verifyValue_eq_nil (h : m.ValueRule f sig v) (hargs : m.Found v.args) :
    m.verifyValue f sig n v = [] := by
  cases h with
  | const32 op args type => simp [verifyValue, op, args, type, report_eq_nil]
  | globalAddr op args type aux =>
    rcases aux with ⟨g, aux⟩ | ⟨name, aux⟩ <;>
      simp [verifyValue, op, args, type, aux, report_eq_nil]
  | funcAddr op args type aux =>
    obtain ⟨s, aux⟩ := aux
    obtain ⟨g, hg, -⟩ := (refersTo_iff (.inr op)).1 aux
    simp [verifyValue, op, args, type, hg, report_eq_nil]
  | arg i op args number type =>
    have hnat : ¬ (i : Int) < 0 := by omega
    simp [verifyValue, op, args, number, hnat, type, report_eq_nil]
  | alloca op args type elem entry =>
    rcases elem with elem | elem <;> simp [verifyValue, op, args, type, elem, entry, report_eq_nil]
  | load p op args address slot =>
    obtain ⟨x, hx, htype⟩ := address.value
    rw [holds_iff hx] at slot
    simp [verifyValue, op, args, operands?, hx, htype, slot, report_eq_nil]
  | store p x t op type args address value slot =>
    obtain ⟨y, hy, htype⟩ := address.value
    obtain ⟨z, hz, rfl⟩ := value.value
    rw [holds_iff hy] at slot
    simp [verifyValue, op, type, args, operands?, hy, hz, htype, slot, report_eq_nil]
  | add32 x y op type args left right =>
    obtain ⟨x, hx, hleft⟩ := left.value
    obtain ⟨y, hy, hright⟩ := right.value
    simp [verifyValue, op, type, args, operands?, hx, hy, hleft, hright, report_eq_nil]
  | call called op aux type passes =>
    obtain ⟨g, hg, hsig⟩ := (refersTo_iff (.inl op)).1 aux
    have hsig : m.callSignature? v = some called := by simp [callSignature?, op, hg, hsig]
    rw [verifyCall_eq_nil (.inl op) hsig hargs]
    refine ⟨type, ?_, ?_⟩
    · rw [op]
      exact fun h => nomatch h
    · rw [Value.callArgs, op]
      exact passes
  | callIndirect called p args op aux type args_eq address passes =>
    obtain ⟨r, x, rfl, hx, htype⟩ := address
    have hsig : m.callSignature? v = some called := by simp [callSignature?, op, aux]
    rw [verifyCall_eq_nil (.inr op) hsig hargs]
    refine ⟨type, ?_, ?_⟩
    · simp [args_eq, hx, htype]
    · rw [Value.callArgs, op, args_eq]
      exact passes

theorem Found.one (h : m.Found v.args) (hlength : v.args.length = 1) :
    ∃ r x, v.args = [some r] ∧ m.value? r = some x ∧ m.operands? v = some [x] := by
  obtain ⟨a, hargs⟩ := List.length_eq_one_iff.1 hlength
  obtain ⟨r, x, rfl, hx⟩ := h a (by simp [hargs])
  exact ⟨r, x, hargs, hx, by simp [operands?, hargs, hx]⟩

theorem Found.two (h : m.Found v.args) (hlength : v.args.length = 2) :
    ∃ r x r' y, v.args = [some r, some r'] ∧ m.value? r = some x ∧ m.value? r' = some y ∧
      m.operands? v = some [x, y] := by
  obtain ⟨a, b, hargs⟩ := List.length_eq_two.1 hlength
  obtain ⟨r, x, rfl, hx⟩ := h a (by simp [hargs])
  obtain ⟨r', y, rfl, hy⟩ := h b (by simp [hargs])
  exact ⟨r, x, r', y, hargs, hx, hy, by simp [operands?, hargs, hx, hy]⟩

theorem exists_head (h : (args.head?.join.bind m.value?).map (·.type) = some t) :
    ∃ r rest, args = some r :: rest ∧ m.HasType (some r) t := by
  obtain ⟨x, hx, htype⟩ := Option.map_eq_some_iff.1 h
  obtain ⟨r, hr, hx⟩ := Option.bind_eq_some_iff.1 hx
  obtain ⟨rest, hargs⟩ := List.head?_eq_some_iff.1 (Option.join_eq_some_iff.1 hr)
  exact ⟨r, rest, hargs, r, x, rfl, hx, htype⟩

theorem aux_of_callSignature (hop : v.op = .callIndirect) (h : m.callSignature? v = some called) :
    v.aux = .signature called := by
  unfold callSignature? at h
  rw [hop] at h
  split at h
  · next hcall => cases hcall
  · next haux => rw [haux, Option.some.inj h]
  · cases h

/-- A value about which the verifier finds nothing obeys its typing rule. -/
theorem valueRule_of_verifyValue (h : m.verifyValue f sig n v = []) (hargs : m.Found v.args) :
    m.ValueRule f sig v := by
  have hcall {called : Signature} (hop : v.op = .call ∨ v.op = .callIndirect)
      (hsig : m.callSignature? v = some called) := (verifyCall_eq_nil hop hsig hargs).1 h
  cases hop : v.op with
  | const32 =>
    simp only [verifyValue, hop, List.append_eq_nil_iff, report_eq_nil, bne_eq_false_iff_eq] at h
    exact .const32 hop (List.length_eq_zero_iff.1 h.1) h.2
  | globalAddr =>
    simp only [verifyValue, hop, List.append_eq_nil_iff, report_eq_nil, bne_eq_false_iff_eq] at h
    obtain ⟨⟨hcount, htype⟩, haux⟩ := h
    refine .globalAddr hop (List.length_eq_zero_iff.1 hcount) htype ?_
    split at haux
    · next g hg => exact .inl ⟨g, hg⟩
    · next name hname => exact .inr ⟨name, hname⟩
    · cases haux
  | funcAddr =>
    simp only [verifyValue, hop, List.append_eq_nil_iff, report_eq_nil, bne_eq_false_iff_eq] at h
    obtain ⟨⟨hcount, htype⟩, hcallee⟩ := h
    obtain ⟨g, hg⟩ := Option.isSome_iff_exists.1 (Option.isNone_eq_false_iff.1 hcallee)
    exact .funcAddr hop (List.length_eq_zero_iff.1 hcount) htype
      ⟨g.sig, (refersTo_iff (.inr hop)).2 ⟨g, hg, rfl⟩⟩
  | arg =>
    simp only [verifyValue, hop, List.append_eq_nil_iff, report_eq_nil, bne_eq_false_iff_eq] at h
    obtain ⟨hcount, h⟩ := h
    by_cases hneg : v.number < 0
    · simp [hneg] at h
    · rw [if_neg hneg] at h
      split at h
      · next t ht =>
        rw [report_eq_nil, bne_eq_false_iff_eq] at h
        refine .arg v.number.toNat hop (List.length_eq_zero_iff.1 hcount) ?_ (h ▸ ht)
        omega
      · cases h
  | alloca =>
    simp only [verifyValue, hop, List.append_eq_nil_iff, report_eq_nil, bne_eq_false_iff_eq] at h
    obtain ⟨⟨⟨hcount, htype⟩, helem⟩, hentry⟩ := h
    refine .alloca hop (List.length_eq_zero_iff.1 hcount) htype ?_ hentry
    simpa [or_iff_not_imp_left] using helem
  | load =>
    simp only [verifyValue, hop, List.append_eq_nil_iff, report_eq_nil, bne_eq_false_iff_eq] at h
    obtain ⟨hcount, h⟩ := h
    obtain ⟨p, x, hargs, hx, hoperands⟩ := hargs.one hcount
    simp only [hoperands, List.append_eq_nil_iff, report_eq_nil, bne_eq_false_iff_eq] at h
    exact .load p hop hargs ((hasType_some hx).2 h.1) ((holds_iff hx).2 h.2)
  | store =>
    simp only [verifyValue, hop, List.append_eq_nil_iff, report_eq_nil, bne_eq_false_iff_eq] at h
    obtain ⟨⟨htype, hcount⟩, h⟩ := h
    obtain ⟨p, x, r, y, hargs, hx, hy, hoperands⟩ := hargs.two hcount
    simp only [hoperands, List.append_eq_nil_iff, report_eq_nil, bne_eq_false_iff_eq] at h
    exact .store p r y.type hop htype hargs ((hasType_some hx).2 h.1) ((hasType_some hy).2 rfl)
      ((holds_iff hx).2 h.2)
  | add32 =>
    simp only [verifyValue, hop, List.append_eq_nil_iff, report_eq_nil, bne_eq_false_iff_eq] at h
    obtain ⟨⟨htype, hcount⟩, h⟩ := h
    obtain ⟨p, x, r, y, hargs, hx, hy, hoperands⟩ := hargs.two hcount
    simp only [hoperands, List.append_eq_nil_iff, report_eq_nil, bne_eq_false_iff_eq] at h
    exact .add32 p r hop htype hargs ((hasType_some hx).2 h.1) ((hasType_some hy).2 h.2)
  | call =>
    cases hsig : m.callSignature? v with
    | none => simp [verifyValue, hop, hsig] at h
    | some called =>
      obtain ⟨htype, -, hpasses⟩ := hcall (.inl hop) hsig
      rw [Value.callArgs, hop] at hpasses
      rw [callSignature?, hop] at hsig
      exact .call called hop ((refersTo_iff (.inl hop)).2 (Option.bind_eq_some_iff.1 hsig)) htype
        hpasses
  | callIndirect =>
    cases hsig : m.callSignature? v with
    | none => simp [verifyValue, hop, hsig] at h
    | some called =>
      obtain ⟨htype, hptr, hpasses⟩ := hcall (.inr hop) hsig
      obtain ⟨r, args, hcons, hr⟩ := exists_head (hptr hop)
      rw [Value.callArgs, hop, if_pos rfl, hcons] at hpasses
      exact .callIndirect called (some r) args hop (aux_of_callSignature hop hsig) htype hcons hr
        hpasses
  | _ => simp [verifyValue, hop] at h

/-! ## Blocks -/

/-- What is checked of a value that the block lists, when those before it have been computed. -/
structure Fits (m : Module) (f : Func) (sig : Signature) (b : BlockRef) (before : List ValueRef)
    (r : ValueRef) : Prop where
  block : ∀ v, m.value? r = some v → v.block = some b
  computed : m.Computed before r
  rule : ∀ v, m.value? r = some v → m.ValueRule f sig v

variable {before rs : List ValueRef} {r : ValueRef} {block : BlockRef}

/-- The checks of one value in a block. -/
theorem verifyListed_eq_nil (hdefined : ∀ x, x ∈ defined ↔ x ∈ before) (hbefore : m.Reached before)
    (hv : m.value? r = some v) :
    report p (v.block != some block) flaw ++ verifyArgs f b n defined v ++
      m.verifyValue f sig r.index v = [] ↔ m.Fits f sig block before r := by
  rw [List.append_eq_nil_iff, List.append_eq_nil_iff, report_eq_nil, bne_eq_false_iff_eq,
    verifyArgs_eq_nil]
  simp only [hdefined]
  have hfound : (∀ a ∈ v.args, ∃ x ∈ before, a = some x) → m.Found v.args := by
    intro hargs a ha
    obtain ⟨x, hx, rfl⟩ := hargs a ha
    obtain ⟨w, hw⟩ := Option.isSome_iff_exists.1 (hbefore x hx)
    exact ⟨x, w, rfl, hw⟩
  have heach {q : Value → Prop} (h : q v) : ∀ w, m.value? r = some w → q w := by
    intro w hw
    obtain rfl := Option.some.inj (hv.symm.trans hw)
    exact h
  constructor
  · rintro ⟨⟨hblock, hargs⟩, hvalue⟩
    exact ⟨heach hblock, heach hargs, heach (valueRule_of_verifyValue hvalue (hfound hargs))⟩
  · rintro ⟨hblock, hargs, hrule⟩
    exact ⟨⟨hblock v hv, hargs v hv⟩, (hrule v hv).verifyValue_eq_nil (hfound (hargs v hv))⟩

theorem verifyValues_eq_nil (hdefined : ∀ x, x ∈ defined ↔ x ∈ before)
    (hreached : m.Reached (before ++ rs)) :
    m.verifyValues f sig block defined rs = [] ↔
      InOrder (fun earlier => m.Fits f sig block (before ++ earlier)) rs := by
  induction rs generalizing defined before with
  | nil => exact ⟨fun _ => .nil, fun _ => rfl⟩
  | cons r rs ih =>
    obtain ⟨v, hv⟩ := Option.isSome_iff_exists.1 (hreached r (by simp))
    have hbefore : m.Reached before := fun x hx => hreached x (List.mem_append_left _ hx)
    have hdefined' : ∀ x, x ∈ r :: defined ↔ x ∈ before ++ [r] := by
      intro x
      simp [hdefined, or_comm]
    rw [← List.singleton_append, ← List.append_assoc] at hreached
    rw [inOrder_cons, List.append_nil, verifyValues, List.append_eq_nil_iff]
    simp only [hv]
    rw [verifyListed_eq_nil hdefined hbefore hv, ih hdefined' hreached]
    simp only [List.append_assoc, List.singleton_append]

theorem verifyEnd_eq_nil {c : Block} (hdefined : ∀ x, x ∈ defined ↔ x ∈ before)
    (hbefore : m.Reached before) :
    m.verifyEnd f sig n defined c = [] ↔ m.Returns sig.result before c := by
  unfold verifyEnd Returns
  split
  · next r hkind hcontrols =>
    rw [List.append_eq_nil_iff, report_eq_nil, Bool.not_eq_false', List.contains_iff_mem, hdefined]
    have htype : r ∈ before →
        ((match m.value? r with
          | some v => report (.block f.name n) (v.type != sig.result) (.returnType v.type sig.result)
          | none => []) = [] ↔ m.HasType (some r) sig.result) := by
      intro hr
      obtain ⟨v, hv⟩ := Option.isSome_iff_exists.1 (hbefore r hr)
      simp only [hv, report_eq_nil, bne_eq_false_iff_eq, hasType_some hv]
    constructor
    · rintro ⟨hr, h⟩
      exact ⟨hkind, r, hcontrols, hr, (htype hr).1 h⟩
    · rintro ⟨-, r', hr', hr, h⟩
      obtain rfl : r = r' := by simpa [hcontrols] using hr'
      exact ⟨hr, (htype hr).2 h⟩
  · next hkind hone =>
    refine iff_of_false (List.cons_ne_nil _ _) ?_
    rintro ⟨-, r, hr, -⟩
    exact hone r hr
  · next hkind _ =>
    refine iff_of_false (List.cons_ne_nil _ _) ?_
    rintro ⟨hret, -⟩
    exact hkind hret

theorem verifyBlocks_eq_nil {place : Nat} {blocks : List (Nat × Block)}
    (hdefined : ∀ x, x ∈ defined ↔ x ∈ before)
    (hreached : m.Reached (before ++ blocks.flatMap (·.2.values))) :
    m.verifyBlocks place f sig defined blocks = [] ↔ InOrder (fun earlier x =>
      x.2.owner = place ∧
        InOrder (fun above => m.Fits f sig ⟨place, x.1⟩
          (before ++ earlier.flatMap (·.2.values) ++ above)) x.2.values ∧
        m.Returns sig.result (before ++ earlier.flatMap (·.2.values) ++ x.2.values) x.2) blocks := by
  induction blocks generalizing defined before with
  | nil => exact ⟨fun _ => .nil, fun _ => rfl⟩
  | cons x blocks ih =>
    obtain ⟨n, c⟩ := x
    have hdefined' : ∀ x, x ∈ c.values.reverse ++ defined ↔ x ∈ before ++ c.values := by
      intro x
      simp [hdefined, or_comm]
    rw [List.flatMap_cons, ← List.append_assoc] at hreached
    have hvalues : m.Reached (before ++ c.values) := fun x hx =>
      hreached x (List.mem_append_left _ hx)
    rw [inOrder_cons, verifyBlocks, List.append_eq_nil_iff, List.append_eq_nil_iff,
      List.append_eq_nil_iff, report_eq_nil, bne_eq_false_iff_eq, ih hdefined' hreached,
      verifyValues_eq_nil hdefined hvalues, verifyEnd_eq_nil hdefined' hvalues]
    simp only [List.flatMap_nil, List.append_nil, List.flatMap_cons, List.append_assoc, and_assoc]

/-! ## Functions -/

/-- What is checked of the values in a block, one thing after the other. -/
theorem inOrder_fits : InOrder (fun above => m.Fits f sig block (before ++ above)) rs ↔
    (∀ r ∈ rs, ∀ v, m.value? r = some v → v.block = some block) ∧
      InOrder (fun above => m.Computed (before ++ above)) rs ∧
      ∀ r ∈ rs, ∀ v, m.value? r = some v → m.ValueRule f sig v := by
  have hfits : (fun above => m.Fits f sig block (before ++ above)) = fun above r =>
      (∀ v, m.value? r = some v → v.block = some block) ∧ m.Computed (before ++ above) r ∧
        ∀ v, m.value? r = some v → m.ValueRule f sig v := by
    funext above r
    exact propext ⟨fun h => ⟨h.block, h.computed, h.rule⟩, fun ⟨h, h', h''⟩ => ⟨h, h', h''⟩⟩
  rw [hfits, inOrder_and, inOrder_and, inOrder_forall, inOrder_forall]

/-- A body obeys the rules exactly if it starts with the entry and the walk finds nothing. -/
theorem bodyRule_iff {place : Nat} (hreached : m.Reached f.sequence) :
    m.BodyRule place f sig ↔
      (∃ first rest, f.body = first :: rest ∧ f.entry = some ⟨place, first⟩) ∧
        m.verifyBlocks place f sig [] f.bodyBlocks = [] := by
  have hvalues : (∀ r ∈ f.sequence, ∀ v, m.value? r = some v → m.ValueRule f sig v) ↔
      ∀ x ∈ f.bodyBlocks, ∀ r ∈ x.2.values, ∀ v, m.value? r = some v → m.ValueRule f sig v :=
    List.forall_mem_flatMap
  have hnone : ∀ x : ValueRef, x ∈ ([] : List ValueRef) ↔ x ∈ ([] : List ValueRef) :=
    fun _ => Iff.rfl
  rw [verifyBlocks_eq_nil hnone hreached]
  simp only [List.nil_append, inOrder_and, inOrder_fits, inOrder_forall, ← hvalues,
    ← inOrder_flatMap (g := fun x : Nat × Block => x.2.values)]
  constructor
  · rintro ⟨hentry, howners, hblocks, harguments, hrules, hreturns⟩
    exact ⟨hentry, howners, ⟨hblocks, harguments, hrules⟩, hreturns⟩
  · rintro ⟨hentry, howners, ⟨hblocks, harguments, hrules⟩, hreturns⟩
    exact ⟨hentry, howners, hblocks, harguments, hrules, hreturns⟩

theorem verifyFunc_eq_nil {place : Nat} (hreached : m.Reached f.sequence) :
    m.verifyFunc place f = [] ↔ m.FuncRule place f := by
  unfold verifyFunc
  constructor
  · intro h
    split at h
    · cases h
    · next sig hsig =>
      split at h
      · next hexternal =>
        rw [report_eq_nil] at h
        exact .external sig hsig hexternal (List.length_eq_zero_iff.1 (by simpa using h))
      · next hdefined =>
        split at h
        · cases h
        · cases h
        · next entry first rest hentry hbody =>
          rw [List.append_eq_nil_iff, report_eq_nil, bne_eq_false_iff_eq] at h
          obtain ⟨rfl, hwalk⟩ := h
          exact .defined sig hsig (by simpa using hdefined)
            ((bodyRule_iff hreached).2 ⟨⟨first, rest, hbody, hentry⟩, hwalk⟩)
  · intro h
    cases h with
    | external sig hsig hexternal hbody => simp [hsig, hexternal, hbody, report_eq_nil]
    | defined sig hsig hdefined hbody =>
      obtain ⟨⟨first, rest, hfirst, hentry⟩, hwalk⟩ := (bodyRule_iff hreached).1 hbody
      simp [hsig, hdefined, hfirst, hentry, hwalk, report_eq_nil]

/-! ## Modules -/

/-- The symbols are distinct and none of them is in use. -/
def Fresh (seen symbols : List String) : Prop := symbols.Nodup ∧ ∀ s ∈ symbols, s ∉ seen

theorem fresh_cons {seen symbols : List String} {s : String} :
    Fresh seen (s :: symbols) ↔ s ∉ seen ∧ Fresh (s :: seen) symbols := by
  unfold Fresh
  rw [List.nodup_cons, List.forall_mem_cons]
  constructor
  · rintro ⟨⟨hs, hnodup⟩, hseen, hall⟩
    refine ⟨hseen, hnodup, fun x hx => ?_⟩
    rw [List.mem_cons, not_or]
    exact ⟨fun heq => hs (heq ▸ hx), hall x hx⟩
  · rintro ⟨hseen, hnodup, hall⟩
    refine ⟨⟨fun hs => hall s hs (by simp), hnodup⟩, hseen, fun x hx => ?_⟩
    exact fun hmem => hall x hx (List.mem_cons_of_mem s hmem)

theorem verifyGlobals_eq_nil {seen : List String} {gs : List Global} :
    m.verifyGlobals seen gs = [] ↔ Fresh seen (gs.map (·.name)) := by
  induction gs generalizing seen with
  | nil => simp [verifyGlobals, Fresh]
  | cons g gs ih =>
    rw [verifyGlobals, List.append_eq_nil_iff, report_eq_nil, ih, List.map_cons, fresh_cons]
    simp

theorem verifyFuncs_eq_nil {place : Nat} {seen : List String} {fs : List Func}
    (hreached : ∀ f ∈ fs, m.Reached f.sequence) :
    m.verifyFuncs place seen fs = [] ↔ Fresh seen (fs.map (·.name)) ∧
      (∀ f ∈ fs, f.foreign = false) ∧ ∀ i f, fs[i]? = some f → m.FuncRule (place + i) f := by
  induction fs generalizing place seen with
  | nil => simp [verifyFuncs, Fresh]
  | cons f fs ih =>
    have hfuncs : (∀ i g, (f :: fs)[i]? = some g → m.FuncRule (place + i) g) ↔
        m.FuncRule place f ∧ ∀ i g, fs[i]? = some g → m.FuncRule (place + 1 + i) g := by
      constructor
      · intro h
        refine ⟨h 0 f rfl, fun i g hg => ?_⟩
        rw [Nat.add_assoc, Nat.add_comm 1 i]
        exact h (i + 1) g hg
      · rintro ⟨hf, h⟩ i g hg
        cases i with
        | zero => exact Option.some.inj hg ▸ hf
        | succ i =>
          rw [Nat.add_comm i 1, ← Nat.add_assoc]
          exact h i g hg
    rw [verifyFuncs, List.append_eq_nil_iff, List.append_eq_nil_iff, List.append_eq_nil_iff,
      report_eq_nil, report_eq_nil, ih (fun g hg => hreached g (List.mem_cons_of_mem _ hg)),
      verifyFunc_eq_nil (hreached f (by simp)), hfuncs, List.map_cons, fresh_cons,
      List.forall_mem_cons]
    simp only [List.contains_eq_mem, decide_eq_false_iff_not]
    constructor
    · rintro ⟨⟨⟨hname, hmember⟩, hfunc⟩, hfresh, hmembers, hrest⟩
      exact ⟨⟨hname, hfresh⟩, ⟨hmember, hmembers⟩, hfunc, hrest⟩
    · rintro ⟨⟨hname, hfresh⟩, ⟨hmember, hmembers⟩, hfunc, hrest⟩
      exact ⟨⟨⟨hname, hmember⟩, hfunc⟩, hfresh, hmembers, hrest⟩

/-- The verifier accepts exactly the well-formed modules: when every value that a block lists is there,
it finds nothing in a module if and only if the module obeys the rules. -/
theorem verify_exact (m : Module) (hlisted : m.Listed) : m.verify = [] ↔ m.WellFormed := by
  have hsymbols : (m.globals.map (·.name) ++ m.funcs.map (·.name)).Nodup ↔
      Fresh [] (m.globals.map (·.name)) ∧
        Fresh (m.globals.map (·.name)).reverse (m.funcs.map (·.name)) := by
    rw [List.nodup_append, Fresh, Fresh]
    constructor
    · rintro ⟨hglobals, hfuncs, hne⟩
      exact ⟨⟨hglobals, by simp⟩, hfuncs, fun s hs hmem => hne s (List.mem_reverse.1 hmem) s hs rfl⟩
    · rintro ⟨⟨hglobals, -⟩, hfuncs, hfresh⟩
      refine ⟨hglobals, hfuncs, ?_⟩
      rintro a ha b hb rfl
      exact hfresh a hb (List.mem_reverse.2 ha)
  rw [verify, List.append_eq_nil_iff, verifyGlobals_eq_nil, verifyFuncs_eq_nil hlisted]
  simp only [Nat.zero_add]
  constructor
  · rintro ⟨hglobals, hfuncs, hmembers, hrules⟩
    exact ⟨hsymbols.2 ⟨hglobals, hfuncs⟩, hmembers, hrules⟩
  · rintro ⟨hnames, hmembers, hrules⟩
    obtain ⟨hglobals, hfuncs⟩ := hsymbols.1 hnames
    exact ⟨hglobals, hfuncs, hmembers, hrules⟩

/-- The code of a function that prints its argument, kept in a slot, and goes on to call itself
through its address. Each operation occurs. -/
def samplerCode : List Value :=
  [{ op := .arg, type := .i32, number := 0 },
    { op := .alloca, type := .ptr, elem := .i32 },
    { op := .store, type := .void, args := [some ⟨1, 1⟩, some ⟨1, 0⟩] },
    { op := .load, type := .i32, args := [some ⟨1, 1⟩] },
    { op := .globalAddr, type := .ptr, aux := .global 0 },
    { op := .call, type := .i32, aux := .func 0, args := [some ⟨1, 4⟩, some ⟨1, 3⟩] },
    { op := .funcAddr, type := .ptr, aux := .func 1 },
    { op := .const32, type := .i32, number := -1 },
    { op := .add32, type := .i32, args := [some ⟨1, 3⟩, some ⟨1, 7⟩] },
    { op := .callIndirect, type := .i32, aux := .signature { params := [.i32], result := .i32 },
      args := [some ⟨1, 6⟩, some ⟨1, 8⟩] }]

def sampler : Module where
  name := "sampler"
  triple := ""
  globals := [⟨".str.0", [37, 100]⟩]
  funcs := [
    { name := "printf", sig := some { params := [.ptr], result := .i32, variadic := true },
      external := true },
    { name := "again", sig := some { params := [.i32], result := .i32 }, entry := some ⟨1, 0⟩,
      body := [0], values := samplerCode.map fun v => { v with block := some ⟨1, 0⟩ },
      blocks := [
        { kind := .ret, controls := [some ⟨1, 9⟩], owner := 1,
          values := (List.range 10).map (ValueRef.mk 1) }] }]

/-- The same module with the last two values in the other order. -/
def shuffled : Module :=
  sampler.modifyBlock ⟨1, 0⟩ fun b =>
    { b with values := b.values.take 8 ++ [⟨1, 9⟩, ⟨1, 8⟩] }

theorem sampler_exact :
    sampler.Listed ∧ shuffled.Listed ∧ sampler.WellFormed ∧ ¬ shuffled.WellFormed := by
  have hsampler : sampler.Listed := by decide
  have hshuffled : shuffled.Listed := by decide
  refine ⟨hsampler, hshuffled, (verify_exact sampler hsampler).1 (by decide), ?_⟩
  exact mt (verify_exact shuffled hshuffled).2 (by decide)

end Module

end Wordlang.IR
