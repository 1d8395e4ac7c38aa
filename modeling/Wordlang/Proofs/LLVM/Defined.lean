import Wordlang.Proofs.LLVM.Compile
import Wordlang.Proofs.LLVM.Delivery
import Wordlang.Proofs.Verify.Exact

/-!
# What verified functions use

In a module in which the verifier finds nothing, a line of a function uses values that lines above
it define, but for one kind of value. The verifier takes for defined what stands in the list of
values, and a write stands there without defining anything. Nothing but its type `void` keeps it
from being used, and that type is looked at only where another one is asked for: a write can be
stored, returned and passed.

The verifier looks up what a block lists, so it is asked of the module that this is there. Every
module that is built by the operations of the intermediate representation is such a module.
-/

namespace Wordlang.IR

variable {α β : Type} {q : List β → β → Prop}

theorem inOrder_map {g : α → β} {l : List α} :
    InOrder q (l.map g) ↔ InOrder (fun before x => q (before.map g) (g x)) l := by
  constructor
  · intro h before x after heq
    exact h (before.map g) (g x) (after.map g) (by simp [heq])
  · intro h before y after heq
    obtain ⟨before, rest, rfl, rfl, hrest⟩ := List.map_eq_append_iff.1 heq
    obtain ⟨x, after, rfl, rfl, rfl⟩ := List.map_eq_cons_iff.1 hrest
    exact h before x after rfl

end Wordlang.IR

namespace Wordlang.LLVM

open IR Reader

/-! ## Instructions -/

/-- The operands that an instruction writes without their own type. -/
def Inst.bare : Inst → List Operand
  | .load _ _ slot | .store _ _ slot => [slot]
  | .add _ a b => [a, b]
  | .call _ _ callee _ => [callee]
  | _ => []

/-- The operands that an instruction writes with their type. -/
def Inst.typed : Inst → List (Ty × Operand)
  | .store type value _ | .ret type value => [(type, value)]
  | .call _ _ _ args => args
  | _ => []

theorem Inst.mem_operands {i : Inst} {o : Operand} (h : o ∈ i.operands) :
    o ∈ i.bare ∨ ∃ t, (t, o) ∈ i.typed := by
  cases i with
  | store type value slot =>
    simp only [Inst.operands, List.mem_cons, List.not_mem_nil, or_false] at h
    rcases h with rfl | rfl
    · exact .inr ⟨type, by simp [Inst.typed]⟩
    · exact .inl (by simp [Inst.bare])
  | call dst sig callee args =>
    rcases List.mem_cons.1 h with rfl | h
    · exact .inl (by simp [Inst.bare])
    · obtain ⟨a, ha, rfl⟩ := List.mem_map.1 h
      exact .inr ⟨a.1, ha⟩
  | ret type value =>
    obtain rfl := List.mem_singleton.1 h
    exact .inr ⟨type, by simp [Inst.typed]⟩
  | _ => exact .inl h

theorem infix_intercalate {sep l : List String} {ls : List (List String)} (h : l ∈ ls) :
    l <:+: sep.intercalate ls := by
  induction ls with
  | nil => cases h
  | cons a ls ih =>
    cases ls with
    | nil =>
      obtain rfl := List.mem_singleton.1 h
      simp
    | cons b ls =>
      rw [List.intercalate_cons_cons]
      rcases List.mem_cons.1 h with rfl | h
      · rw [List.append_assoc]
        exact (List.prefix_append _ _).isInfix
      · exact (ih h).trans (List.suffix_append _ _).isInfix

/-- A typed operand is written right after its type. -/
theorem Inst.infix_of_typed {i : Inst} {t : Ty} {o : Operand} (h : (t, o) ∈ i.typed) :
    [typeText t, o.text] <:+: instTokens i := by
  cases i with
  | store type value slot =>
    obtain ⟨rfl, rfl⟩ := Prod.mk.inj (List.mem_singleton.1 h)
    exact ⟨["store"], [",", "ptr", slot.text], rfl⟩
  | call dst sig callee args =>
    have hargs : [typeText t, o.text] <:+:
        [","].intercalate (args.map fun a => [typeText a.1, a.2.text]) :=
      infix_intercalate (List.mem_map_of_mem (f := fun a => [typeText a.1, a.2.text]) h)
    have hline : instTokens (.call dst sig callee args) =
        (valueText dst :: "=" :: "call" :: calledTokens sig ++ [callee.text, "("]) ++
          [","].intercalate (args.map fun a => [typeText a.1, a.2.text]) ++ [")"] := by
      simp [instTokens, useTokens, Inst.dst?]
    rw [hline]
    exact hargs.trans ⟨_, _, rfl⟩
  | ret type value =>
    obtain ⟨rfl, rfl⟩ := Prod.mk.inj (List.mem_singleton.1 h)
    exact ⟨["ret"], [], rfl⟩
  | _ => cases h

/-- Of the operands, only a value is written like one. -/
theorem Operand.eq_value {o : Operand} {k : Nat} (h : valueText k = o.text) : o = .value k := by
  have hlocal : IsLocal o.text := h ▸ isLocal_value k
  cases o with
  | const n => exact absurd (.inl hlocal) (not_isName_const n)
  | symbol name => exact absurd (isGlobal_symbol name) (not_isGlobal_of_isLocal hlocal)
  | arg n =>
    have hchars := congrArg String.toList h
    simp [valueText, argText, Operand.text] at hchars
  | value n => rw [valueText_injective h]

variable {m : Module} {f : Func} {sig : Signature} {v : Value} {refs : List ValueRef}
  {r : Rendering} {n place : Nat}

/-! ## Where operands come from -/

/-- One of the references leads to a value of the type that is written as the operand. -/
def StandsFor (m : Module) (refs : List ValueRef) (t : Ty) (o : Operand) : Prop :=
  ∃ x ∈ refs, ∃ vx, m.value? x = some vx ∧ vx.type = t ∧ operand? m x.index vx = some o

/-- The operands of an instruction stand for some of the references; those that are written without
a type stand for values of another type than `void`. -/
structure Inst.From (m : Module) (refs : List ValueRef) (i : Inst) : Prop where
  bare : ∀ o ∈ i.bare, (∃ name, o = .symbol name) ∨ ∃ t ≠ .void, StandsFor m refs t o
  typed : ∀ t o, (t, o) ∈ i.typed → StandsFor m refs t o

theorem source_of_typed {x : ValueRef} {a : Ty × Operand}
    (h : typedOperand? m (some x) = some a) (hx : x ∈ refs) : StandsFor m refs a.1 a.2 := by
  simp only [typedOperand?, Option.bind_eq_bind, Option.bind_eq_some_iff] at h
  obtain ⟨_, hsome, vx, hvx, o, ho, ha⟩ := h
  cases hsome
  cases ha
  exact ⟨x, hx, vx, hvx, rfl, ho⟩

/-- The type that is written is that of the value. -/
theorem type_of_typed {x : ValueRef} {t : Ty} {a : Ty × Operand}
    (h : typedOperand? m (some x) = some a) (htype : m.HasType (some x) t) : a.1 = t := by
  obtain ⟨y, vy, hy, hvy, hty⟩ := htype
  cases hy
  simp only [typedOperand?, hvy, Option.bind_eq_bind, Option.bind_some,
    Option.bind_eq_some_iff] at h
  obtain ⟨o, -, ha⟩ := h
  cases ha
  exact hty

/-- A value is written as an operand under its own number. -/
theorem eq_of_operand {k : Nat} (h : operand? m n v = some (.value k)) : k = n := by
  unfold operand? at h
  split at h
  all_goals simp_all

/-! ## The lines of values -/

/-- The instruction of value number `n`: what it works on, and what it defines. -/
structure Inst.Is (m : Module) (refs : List ValueRef) (n : Nat) (v : Value) (i : Inst) : Prop
    extends i.From m refs where
  dst : v.op ≠ .store → i.dst? = some n

/-- The arguments of a call are written with their types. -/
theorem line_of_call {called : Signature} {callee : Operand} {args : List (Option ValueRef)}
    (hcallee : (∃ name, callee = .symbol name) ∨ ∃ t ≠ .void, StandsFor m refs t callee)
    (hargs : ∀ a ∈ args, ∃ x ∈ refs, a = some x)
    (h : renderCall? m n called callee args = some r) :
    ∃ i : Inst, r.lines = [.inst i] ∧ i.Is m refs n v := by
  obtain ⟨xs, hxs, hr⟩ := Option.bind_eq_some_iff.1 h
  cases hr
  refine ⟨_, rfl, ⟨?_, ?_⟩, fun _ => rfl⟩
  · intro o ho
    obtain rfl := List.mem_singleton.1 ho
    exact hcallee
  · intro t o ho
    obtain ⟨k, hk⟩ := List.getElem?_of_mem ho
    have hk : xs[k]? = some (t, o) := hk
    have hget := (getElem?_of_mapM hxs).2 k
    rw [hk] at hget
    obtain ⟨a, ha, htyped⟩ := Option.bind_eq_some_iff.1 hget.symm
    obtain ⟨x, hx, rfl⟩ := hargs a (List.mem_of_getElem? ha)
    exact source_of_typed htyped hx

/-- A value that obeys its typing rule is written where it is used, or has one line. -/
theorem line_of_rule (hrule : m.ValueRule f sig v) (hargs : ∀ a ∈ v.args, ∃ x ∈ refs, a = some x)
    (h : renderValue? m f n v = some r) :
    (r.lines = [] ∧ ∀ k, operand? m n v ≠ some (.value k)) ∨
      ∃ i : Inst, r.lines = [.inst i] ∧ i.Is m refs n v := by
  have harg : ∀ x, some x ∈ v.args → x ∈ refs := by
    intro x hx
    obtain ⟨y, hy, heq⟩ := hargs _ hx
    exact Option.some.inj heq ▸ hy
  -- an operand of a type that is asked for
  have hbare : ∀ x a t, some x ∈ v.args → typedOperand? m (some x) = some a → t ≠ .void →
      m.HasType (some x) t →
        (∃ name, a.2 = .symbol name) ∨ ∃ t ≠ .void, StandsFor m refs t a.2 := by
    intro x a t hx ha ht htype
    have hsource := source_of_typed ha (harg x hx)
    rw [type_of_typed ha htype] at hsource
    exact .inr ⟨t, ht, hsource⟩
  unfold renderValue? at h
  cases hrule with
  | const32 op | arg i op =>
    rw [op] at h
    cases h
    exact .inl ⟨rfl, by simp [operand?, op]⟩
  | globalAddr op _ _ aux =>
    rw [op] at h
    cases h
    rcases aux with ⟨g, aux⟩ | ⟨name, aux⟩
    · exact .inl ⟨rfl, by simp [operand?, op, aux]⟩
    · exact .inl ⟨rfl, by simp [operand?, op, aux]⟩
  | funcAddr op _ _ aux =>
    rw [op] at h
    cases h
    obtain ⟨called, aux⟩ := aux
    generalize hv : v.aux = a at aux
    cases aux with
    | listed hg => exact .inl ⟨rfl, by simp [operand?, op, hv]⟩
    | outer name s => exact .inl ⟨rfl, by simp [operand?, op, hv]⟩
  | alloca op =>
    rw [op] at h
    cases h
    exact .inr ⟨_, rfl, ⟨by simp [Inst.bare], by simp [Inst.typed]⟩, fun _ => rfl⟩
  | load p op args address =>
    simp only [op, argument?, args, List.getElem?_cons_zero, Option.bind_eq_bind,
      Option.bind_some, Option.bind_eq_some_iff] at h
    obtain ⟨a, ha, hr⟩ := h
    cases hr
    refine .inr ⟨_, rfl, ⟨?_, by simp [Inst.typed]⟩, fun _ => rfl⟩
    intro o ho
    obtain rfl := List.mem_singleton.1 ho
    exact hbare p a .ptr (by simp [args]) ha (by decide) address
  | store p x t op type args address value =>
    simp only [op, argument?, args, List.getElem?_cons_zero, List.getElem?_cons_succ,
      Option.bind_eq_bind, Option.bind_some, Option.bind_eq_some_iff] at h
    obtain ⟨b, hb, a, ha, hr⟩ := h
    cases hr
    refine .inr ⟨_, rfl, ⟨?_, ?_⟩, fun hstore => absurd op hstore⟩
    · intro o ho
      obtain rfl := List.mem_singleton.1 ho
      exact hbare p a .ptr (by simp [args]) ha (by decide) address
    · intro t o ho
      obtain ⟨rfl, rfl⟩ := Prod.mk.inj (List.mem_singleton.1 ho)
      exact source_of_typed hb (harg x (by simp [args]))
  | add32 x y op type args left right =>
    simp only [op, argument?, args, List.getElem?_cons_zero, List.getElem?_cons_succ,
      Option.bind_eq_bind, Option.bind_some, Option.bind_eq_some_iff] at h
    obtain ⟨a, ha, b, hb, hr⟩ := h
    cases hr
    refine .inr ⟨_, rfl, ⟨?_, by simp [Inst.typed]⟩, fun _ => rfl⟩
    intro o ho
    rcases List.mem_cons.1 ho with rfl | ho
    · exact hbare x a .i32 (by simp [args]) ha (by decide) left
    · obtain rfl := List.mem_singleton.1 ho
      exact hbare y b .i32 (by simp [args]) hb (by decide) right
  | call called op aux =>
    obtain ⟨g, hg, -⟩ := (Module.refersTo_iff (.inl op)).1 aux
    simp only [op, hg, Option.bind_eq_bind, Option.bind_eq_some_iff] at h
    obtain ⟨sig', -, hcall⟩ := h
    exact .inr (line_of_call (.inl ⟨g.name, rfl⟩) hargs hcall)
  | callIndirect called p args op aux type args_eq address =>
    simp only [op, args_eq, Module.callSignature?, aux, Option.bind_eq_bind,
      Option.bind_eq_some_iff] at h
    obtain ⟨a, ha, hcall⟩ := h
    obtain ⟨x, hx, rfl⟩ := hargs p (by simp [args_eq])
    have hcallee := hbare x a .ptr (by simp [args_eq]) ha (by decide) address
    have hpassed : ∀ b ∈ args, ∃ x ∈ refs, b = some x := by
      intro b hb
      exact hargs b (args_eq ▸ List.mem_cons_of_mem _ hb)
    exact .inr (line_of_call hcallee hpassed hcall)

/-- A block that returns ends with a typed operand. -/
theorem end_of_returns {t : Ty} {b : Block} {l : Line} (h : m.Returns t refs b)
    (hl : renderEnd? m b = some l) : ∃ i : Inst, l = .inst i ∧ i.From m refs := by
  obtain ⟨hkind, x, hcontrols, hx, -⟩ := h
  simp only [renderEnd?, hkind, hcontrols, Option.map_eq_some_iff] at hl
  obtain ⟨a, ha, rfl⟩ := hl
  refine ⟨_, rfl, by simp [Inst.bare], ?_⟩
  intro t o ho
  obtain ⟨rfl, rfl⟩ := Prod.mk.inj (List.mem_singleton.1 ho)
  exact source_of_typed ha hx

/-! ## What lines define -/

/-- The names that lines define. -/
def definedBy (ls : List Line) : List String := ls.filterMap fun l => defined? (lineTokens l)

/-- Each of the references that is written as a value leads to a write, or to what the lines
define. -/
def Settled (m : Module) (refs : List ValueRef) (ls : List Line) : Prop :=
  ∀ x ∈ refs, ∀ vx k, m.value? x = some vx → operand? m x.index vx = some (.value k) →
    (vx.op = .store ∧ vx.type = .void) ∨ valueText k ∈ definedBy ls

namespace Settled

variable {ls ls' : List Line}

theorem mono (h : Settled m refs ls) (hls : ls ⊆ ls') : Settled m refs ls' := by
  intro x hx vx k hvx hoperand
  rcases h x hx vx k hvx hoperand with hstore | hdefined
  · exact .inl hstore
  · obtain ⟨l, hl, hname⟩ := List.mem_filterMap.1 hdefined
    exact .inr (List.mem_filterMap.2 ⟨l, hls hl, hname⟩)

theorem append {refs' : List ValueRef} (h : Settled m refs ls) (h' : Settled m refs' ls') :
    Settled m (refs ++ refs') (ls ++ ls') := by
  intro x hx
  rcases List.mem_append.1 hx with hx | hx
  · exact h.mono (List.subset_append_left _ _) x hx
  · exact h'.mono (List.subset_append_right _ _) x hx

theorem flatMap {α : Type} {as : List α} {refs : α → List ValueRef} {lines : α → List Line}
    (h : ∀ a ∈ as, Settled m (refs a) (lines a)) :
    Settled m (as.flatMap refs) (as.flatMap lines) := by
  intro x hx
  obtain ⟨a, ha, hx⟩ := List.mem_flatMap.1 hx
  have hlines : lines a ⊆ as.flatMap lines := fun l hl => List.mem_flatMap.2 ⟨a, ha, hl⟩
  exact (h a ha).mono hlines x hx

theorem value {x : ValueRef} (hrule : m.ValueRule f sig v) (hv : m.value? x = some v)
    (hargs : ∀ a ∈ v.args, ∃ x ∈ refs, a = some x)
    (h : renderValue? m f x.index v = some r) : Settled m [x] (valueLines m f x) := by
  intro y hy vy k hvy hoperand
  obtain rfl := List.mem_singleton.1 hy
  obtain rfl : v = vy := Option.some.inj (hv.symm.trans hvy)
  have hlines : valueLines m f y = r.lines := by simp [valueLines, hv, h]
  by_cases hstore : v.op = .store
  · cases hrule with
    | store p x t op type => exact .inl ⟨hstore, type⟩
    | _ => simp_all
  · rcases line_of_rule hrule hargs h with ⟨-, hnone⟩ | ⟨i, hi, his⟩
    · exact absurd hoperand (hnone k)
    · have hdefined : defined? (instTokens i) = some (valueText k) := by
        rw [defined?_inst, his.dst hstore, eq_of_operand hoperand]
        rfl
      rw [hlines, hi]
      exact .inr (List.mem_filterMap.2 ⟨_, List.mem_singleton_self _, hdefined⟩)

end Settled

/-! ## What lines use -/

/-- The line uses a write of the function like a result, and gives it the type `void`. -/
def VoidUse (m : Module) (f : Func) (k : Nat) (line : List String) : Prop :=
  ["void", valueText k] <:+: line ∧
    ∃ x ∈ f.sequence, ∃ vx, m.value? x = some vx ∧ x.index = k ∧ vx.op = .store

/-- Every value that a line uses is defined by a line above, but for writes. -/
def DefinedAbove (m : Module) (f : Func) (above : List (List String)) (line : List String) :
    Prop :=
  ∀ k, valueText k ∈ uses line → valueText k ∈ above.filterMap defined? ∨ VoidUse m f k line

theorem definedAbove_inst {i : Inst} {ls : List Line} (hrefs : refs ⊆ f.sequence)
    (hfrom : i.From m refs) (hsettled : Settled m refs ls) :
    DefinedAbove m f (ls.map lineTokens) (instTokens i) := by
  intro k hk
  have hnames : (ls.map lineTokens).filterMap defined? = definedBy ls := List.filterMap_map ..
  obtain ⟨o, ho, htext⟩ := mem_operands_of_uses hk (.inl (isLocal_value k))
  obtain rfl := Operand.eq_value htext
  rw [hnames]
  rcases Inst.mem_operands ho with ho | ⟨t, ho⟩
  · rcases hfrom.bare _ ho with ⟨name, hname⟩ | ⟨t, ht, x, hx, vx, hvx, htype, hoperand⟩
    · cases hname
    · rcases hsettled x hx vx k hvx hoperand with ⟨-, hvoid⟩ | hdefined
      · exact absurd (htype.symm.trans hvoid) ht
      · exact .inl hdefined
  · obtain ⟨x, hx, vx, hvx, htype, hoperand⟩ := hfrom.typed t _ ho
    rcases hsettled x hx vx k hvx hoperand with ⟨hstore, hvoid⟩ | hdefined
    · have hwithin := Inst.infix_of_typed ho
      rw [← htype, hvoid] at hwithin
      exact .inr ⟨hwithin, x, hrefs hx, vx, hvx, (eq_of_operand hoperand).symm, hstore⟩
    · exact .inl hdefined

theorem definedAbove_label (above : List (List String)) (n : Nat) :
    DefinedAbove m f above (lineTokens (.label n)) := by
  intro k hk
  have hname := isLocal_value k
  cases n with
  | zero =>
    have hnone : ∀ x ∈ uses ["entry", ":"], ¬ IsLocal x := by decide
    exact absurd hname (hnone _ hk)
  | succ n =>
    have hb : ¬ IsLocal ("b" ++ toString (n + 1)) := by simp [IsLocal]
    have hcolon : ¬ IsLocal ":" := by decide
    rcases List.mem_pair.1 (show valueText k ∈ ["b" ++ toString (n + 1), ":"] from hk) with h | h
    · exact absurd (h ▸ hname) hb
    · exact absurd (h ▸ hname) hcolon

/-! ## Bodies -/

theorem values_subset {bs : List (Nat × Block)} (hbs : bs ⊆ f.bodyBlocks) :
    bs.flatMap (·.2.values) ⊆ f.sequence := by
  intro r hr
  obtain ⟨x, hx, hr⟩ := List.mem_flatMap.1 hr
  exact List.mem_flatMap.2 ⟨x, hbs hx, hr⟩

section

variable (hbody : m.BodyRule place f sig)
  (hrendered : ∀ x ∈ f.sequence, ∃ v r, m.value? x = some v ∧ renderValue? m f x.index v = some r)
include hbody hrendered

theorem settled_values {rs : List ValueRef} (hrs : rs ⊆ f.sequence) :
    Settled m rs (rs.flatMap (valueLines m f)) := by
  have hone : ∀ x ∈ rs, Settled m [x] (valueLines m f x) := by
    intro x hx
    obtain ⟨v, r, hv, hr⟩ := hrendered x (hrs hx)
    obtain ⟨before, after, hsplit⟩ := List.append_of_mem (hrs hx)
    have hargs := hbody.arguments before x after hsplit v hv
    exact .value (hbody.values x (hrs hx) v hv) hv hargs hr
  have hall := Settled.flatMap hone
  rwa [List.flatMap_singleton'] at hall

theorem settled_blocks {bs : List (Nat × Block)} (hbs : bs ⊆ f.bodyBlocks) :
    Settled m (bs.flatMap (·.2.values)) (bs.flatMap (blockLines m f)) := by
  refine .flatMap fun x hx => ?_
  have hvalues : x.2.values ⊆ f.sequence := fun r hr => List.mem_flatMap.2 ⟨x, hbs hx, hr⟩
  refine (settled_values hbody hrendered hvalues).mono fun l hl => ?_
  exact List.mem_cons_of_mem _ (List.mem_append_left _ hl)

/-- What a line of a body uses is settled by the lines above it. -/
theorem definedAbove_body : InOrder (DefinedAbove m f) ((bodyLines m f).map lineTokens) := by
  have hsequence := inOrder_flatMap.1 hbody.arguments
  rw [inOrder_map, bodyLines, inOrder_flatMap]
  intro before x after hblocks
  have hbefore : before ⊆ f.bodyBlocks := hblocks ▸ List.subset_append_left _ _
  have hx : x ∈ f.bodyBlocks := by simp [hblocks]
  have habove := settled_blocks hbody hrendered hbefore
  have hearlier := values_subset hbefore
  have hvalues : x.2.values ⊆ f.sequence := fun r hr => List.mem_flatMap.2 ⟨x, hx, hr⟩
  rw [blockLines, inOrder_cons, inOrder_append, inOrder_flatMap]
  refine ⟨definedAbove_label _ _, ?_, ?_⟩
  · intro earlier y later hy above l rest hl
    have hmem : y ∈ f.sequence := hvalues (by simp [hy])
    have hbeside : earlier ⊆ f.sequence := fun r hr => hvalues (by simp [hy, hr])
    obtain ⟨v, r, hv, hr⟩ := hrendered y hmem
    have hargs := hsequence before x after hblocks earlier y later hy v hv
    have hlines : l ∈ r.lines := by
      have hvalue : valueLines m f y = r.lines := by simp [valueLines, hv, hr]
      rw [← hvalue, hl]
      simp
    rcases line_of_rule (hbody.values y hmem v hv) hargs hr with ⟨hnone, -⟩ | ⟨i, hi, his⟩
    · simp [hnone] at hlines
    · rw [hi] at hlines
      obtain rfl := List.mem_singleton.1 hlines
      refine definedAbove_inst (List.append_subset.2 ⟨hearlier, hbeside⟩) his.toFrom
        (habove.append ?_)
      refine (settled_values hbody hrendered hbeside).mono fun l hl => ?_
      exact List.mem_cons_of_mem _ (List.mem_append_left _ hl)
  · intro above l rest hl
    have hreturns := hbody.returns before x after hblocks
    have hend : renderEnd? m x.2 = some l := by
      rw [← Option.mem_toList, hl]
      simp
    obtain ⟨i, rfl, hfrom⟩ := end_of_returns hreturns hend
    refine definedAbove_inst (List.append_subset.2 ⟨hearlier, hvalues⟩) hfrom (habove.append ?_)
    refine (settled_values hbody hrendered hvalues).mono fun l hl => ?_
    exact List.mem_cons_of_mem _ (List.mem_append_left _ hl)

end

/-! ## Functions -/

theorem definitions_func (rest : List (List String)) :
    definitions ((funcLines m f sig).map lineTokens ++ rest) =
      ⟨lineTokens (.define f.name sig.params sig.result), (bodyLines m f).map lineTokens⟩ ::
        definitions rest := by
  have hinside : ∀ ts ∈ (bodyLines m f).map lineTokens,
      ts ≠ ["\x7d"] ∧ ts.head? ≠ some "define" := by
    intro ts hts
    obtain ⟨l, hl, rfl⟩ := List.mem_map.1 hts
    rcases bodyLines_cases l hl with ⟨n, rfl⟩ | ⟨i, rfl⟩
    · cases n with
      | zero => decide
      | succ n =>
        have hne : "b" ++ toString (n + 1) ≠ "define" := by
          intro h
          have hchars := congrArg String.toList h
          simp at hchars
        simpa [lineTokens] using hne
    · exact inst_inside i
  have hlines : (funcLines m f sig).map lineTokens ++ rest =
      [] :: lineTokens (.define f.name sig.params sig.result) ::
        ((bodyLines m f).map lineTokens ++ ["\x7d"] :: rest) := by
    simp [funcLines, lineTokens]
  rw [hlines, definitions, if_neg (by simp), definitions_define rfl hinside]

/-- Every value of a function that is rendered is rendered. -/
theorem rendered_values (h : renderFunc? m f = some r) : ∀ x ∈ f.sequence,
    ∃ v r, m.value? x = some v ∧ renderValue? m f x.index v = some r := by
  obtain ⟨sig, -, h⟩ := Option.bind_eq_some_iff.1 h
  obtain ⟨blocks, hblocks, -⟩ := Option.bind_eq_some_iff.1 h
  intro x hx
  obtain ⟨b, hb, hx⟩ := List.mem_flatMap.1 hx
  obtain ⟨piece, hpiece⟩ := exists_of_mapM hblocks b hb
  obtain ⟨values, hvalues, -⟩ := Option.bind_eq_some_iff.1 hpiece
  obtain ⟨r, hr⟩ := exists_of_mapM hvalues x hx
  obtain ⟨v, hv, hr⟩ := Option.bind_eq_some_iff.1 hr
  exact ⟨v, r, hv, hr⟩

/-! ## Modules -/

theorem declare_cases {fs : List Func} {declared : List Line}
    (h : fs.mapM declare? = some declared) : ∀ l ∈ declared, ∃ name sig, l = .declare name sig := by
  intro l hl
  obtain ⟨k, hk⟩ := List.getElem?_of_mem hl
  have hget := (getElem?_of_mapM h).2 k
  rw [hk] at hget
  obtain ⟨f, -, hdeclare⟩ := Option.bind_eq_some_iff.1 hget.symm
  obtain ⟨sig, -, hline⟩ := Option.map_eq_some_iff.1 hdeclare
  exact ⟨f.name, sig, hline.symm⟩

theorem isFront_of_declare {fs : List Func} {declared : List Line}
    (h : fs.mapM declare? = some declared) : ∀ l ∈ declared, l.IsFront m := by
  intro l hl
  obtain ⟨name, sig, rfl⟩ := declare_cases h l hl
  trivial

/-- The text defines a function of the module, and what its lines use is defined above. -/
def Grounded (m : Module) (d : Definition) : Prop :=
  ∃ f ∈ m.funcs, ∃ sig, f.sig = some sig ∧
    d.head = lineTokens (.define f.name sig.params sig.result) ∧
    InOrder (DefinedAbove m f) d.body

/-- Functions that obey their rules, one after the other. -/
theorem grounded_funcs {fs : List Func} (hfs : ∀ f ∈ fs, f ∈ m.funcs ∧ f.external = false)
    (hrules : ∀ place f, m.funcs[place]? = some f → m.FuncRule place f)
    (hrendered : ∀ f ∈ m.funcs, f.external = false → ∃ r, renderFunc? m f = some r) :
    ∀ d ∈ definitions ((fs.flatMap fun f => f.sig.elim [] (funcLines m f)).map lineTokens),
      Grounded m d := by
  induction fs with
  | nil => simp [definitions]
  | cons f fs ih =>
    obtain ⟨⟨hf, hinside⟩, hrest⟩ := List.forall_mem_cons.1 hfs
    obtain ⟨place, hplace⟩ := List.mem_iff_getElem?.1 hf
    obtain ⟨r, hr⟩ := hrendered f hf hinside
    have hvalues := rendered_values hr
    cases hrules place f hplace with
    | external sig hsig hexternal => simp [hexternal] at hinside
    | defined sig hsig _ hbody =>
      rw [List.flatMap_cons, hsig, List.map_append, Option.elim_some, definitions_func]
      have hgrounded : Grounded m ⟨_, (bodyLines m f).map lineTokens⟩ :=
        ⟨f, hf, sig, hsig, rfl, definedAbove_body hbody hvalues⟩
      exact List.forall_mem_cons.2 ⟨hgrounded, ih hrest⟩

/-- In a module in which the verifier finds nothing, every value that a line of a function uses is
defined by a line of this function above it, except that a write of the function may be stored,
returned and passed with the type `void`, although it defines nothing. -/
theorem verified_uses {ε : Type} (m : Module) (hlisted : m.Listed) (hverified : m.verify = [])
    {ls : List Line} {error : Option (GenerateError ε)}
    (hwritten : generate (.unfailing ε) m = some (ls, error)) :
    ∀ d ∈ definitions (ls.map fun l => tokens l.text), Grounded m d := by
  obtain ⟨-, hfuncs⟩ := List.append_eq_nil_iff.1 hverified
  obtain ⟨-, -, hrules⟩ := (Module.verifyFuncs_eq_nil hlisted).1 hfuncs
  simp only [Nat.zero_add] at hrules
  rw [generate_unfailing, Option.map_eq_some_iff] at hwritten
  obtain ⟨r, hr, hwritten⟩ := hwritten
  obtain ⟨declared, hpieces⟩ := render_pieces hr
  obtain rfl : r.lines = ls := congrArg Prod.fst hwritten
  have hfront : ∀ ts ∈ (frontLines m declared).map lineTokens, ts.head? ≠ some "define" := by
    intro ts hts
    obtain ⟨l, hl, rfl⟩ := List.mem_map.1 hts
    exact not_define_of_isFront (isFront_frontLines (isFront_of_declare hpieces.declarations) l hl)
  simp only [tokens_line]
  rw [hpieces.lines, List.map_append, definitions_append_of_forall hfront]
  refine grounded_funcs (fun f hf => ?_) hrules hpieces.defined
  obtain ⟨hmem, hinside⟩ := List.mem_filter.1 hf
  exact ⟨hmem, by simpa using hinside⟩

/-- A program that passes a write to a variadic function. -/
def hollow : Module :=
  let (printf, m) := (Module.empty "hollow" "").addExternal "printf"
    { params := [.ptr], result := .i32, variadic := true }
  let (main, m) := m.addFunc "main" { params := [], result := .i32 }
  let (text, m) := m.internString [37, 100]
  let entry : BlockRef := ⟨main, 0⟩
  let (format, m) := m.addValue main entry
    { op := .globalAddr, type := .ptr, aux := .global text } []
  let (slot, m) := m.addValue main entry { op := .alloca, type := .ptr, elem := .i32 } []
  let (zero, m) := m.addValue main entry { op := .const32, type := .i32 } []
  let (written, m) := m.addValue main entry { op := .store, type := .void } [slot, zero]
  let (_, m) := m.addValue main entry { op := .call, type := .i32, aux := .func printf }
    [format, written]
  m.setReturn entry (some zero)

theorem hollow_uses : hollow.Listed ∧ hollow.verify = [] ∧
    ∃ ls error, generate (.unfailing String) hollow = some (ls, error) ∧
      ∀ d ∈ definitions (ls.map fun l => tokens l.text), Grounded hollow d := by
  have hlisted : hollow.Listed := by decide
  have hverified : hollow.verify = [] := by decide
  have hsome : (generate (.unfailing String) hollow).isSome := by decide +kernel
  obtain ⟨⟨ls, error⟩, hwritten⟩ := Option.isSome_iff_exists.1 hsome
  exact ⟨hlisted, hverified, ls, error, hwritten,
    verified_uses hollow hlisted hverified hwritten⟩

/-- The verifier does not keep everything that is used from being undefined. -/
theorem hollow_undefined : ¬ ∀ (m : Module) ls error, m.Listed → m.verify = [] →
    generate (.unfailing String) m = some (ls, error) →
      ∀ d ∈ definitions (ls.map fun l => tokens l.text), InOrder (fun above line =>
        ∀ k, valueText k ∈ uses line → valueText k ∈ above.filterMap defined?) d.body := by
  intro hall
  have hsome : (generate (.unfailing String) hollow).isSome := by decide +kernel
  obtain ⟨⟨ls, error⟩, hwritten⟩ := Option.isSome_iff_exists.1 hsome
  have hdefined := hall hollow ls error (by decide) (by decide) hwritten
  simp only [tokens_line] at hdefined
  have hread : (generate (.unfailing String) hollow).map
      (fun x => (definitions (x.1.map lineTokens)).map (·.body)) = some [
        [["entry", ":"], ["%v1", "=", "alloca", "i32"], ["store", "i32", "0", ",", "ptr", "%v1"]] ++
          ["%v4", "=", "call", "i32", "(", "ptr", ",", "...", ")", "@printf", "(", "ptr",
            "@.str.0", ",", "void", "%v3", ")"] ::
          [["ret", "i32", "0"]]] := by decide +kernel
  rw [hwritten] at hread
  obtain ⟨d, hd, hbody⟩ := List.map_eq_singleton_iff.1 (Option.some.inj hread)
  have hused := hdefined d (by simp [hd]) _ _ _ hbody 3 (by decide)
  exact absurd hused (by decide)

end Wordlang.LLVM
