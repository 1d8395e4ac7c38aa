import Wordlang.Proofs.Draft

/-!
# Modules that extend others

A module extends another one if nothing of it was lost: names, constants, functions, values and
blocks are where they were, and only one function was written to. In that function values were
appended, and values that were there may have been used more often. Every operation by which a
module is built extends it.
-/

namespace Wordlang.IR

/-- Every element of `l` is at its place in `l'` still, up to `R`. -/
def Stays {α : Type} (R : α → α → Prop) (l l' : List α) : Prop :=
  ∀ (i : Nat) a, l[i]? = some a → ∃ a', l'[i]? = some a' ∧ R a a'

/-- The value is the same, and was used at least as often. -/
structure Value.Extends (v v' : Value) : Prop where
  core : v'.core = v.core
  uses : v.uses ≤ v'.uses

/-- The block lists further values after those it listed, and may end in another way. -/
structure Block.Extends (k k' : Block) : Prop where
  owner : k'.owner = k.owner
  values : k.values <+: k'.values

/-- The function has the same head, and its values and blocks were kept. -/
structure Func.Extends (g g' : Func) : Prop where
  head : { g' with values := g.values, blocks := g.blocks } = g
  values : Stays Value.Extends g.values g'.values
  blocks : Stays Block.Extends g.blocks g'.blocks

/-- Nothing was lost of the module, and of its functions only `f` was changed. -/
structure Module.Extends (f : Nat) (m m' : Module) : Prop where
  name : m'.name = m.name
  triple : m'.triple = m.triple
  globals : m.globals <+: m'.globals
  others : ∀ (i : Nat) g, i ≠ f → m.funcs[i]? = some g → m'.funcs[i]? = some g
  here : ∀ g, m.funcs[f]? = some g → ∃ g', m'.funcs[f]? = some g' ∧ g.Extends g'

/-- The way a block ends. -/
def Block.ending (k : Block) : BlockKind × List (Option ValueRef) := (k.kind, k.controls)

/-- The way the block that a reference leads to ends. -/
def Module.ending? (m : Module) (r : BlockRef) : Option (BlockKind × List (Option ValueRef)) :=
  (m.block? r).map Block.ending

/-! ## Order -/

section Order

variable {α : Type} {R : α → α → Prop} {l l' l'' : List α}

theorem Stays.refl (h : ∀ a, R a a) (l : List α) : Stays R l l := fun _ a ha => ⟨a, ha, h a⟩

theorem Stays.trans (hR : ∀ a b c, R a b → R b c → R a c) (h : Stays R l l')
    (h' : Stays R l' l'') : Stays R l l'' := by
  intro i a ha
  obtain ⟨b, hb, hab⟩ := h i a ha
  obtain ⟨c, hc, hbc⟩ := h' i b hb
  exact ⟨c, hc, hR a b c hab hbc⟩

theorem Stays.append (h : ∀ a, R a a) (l r : List α) : Stays R l (l ++ r) := by
  intro i a ha
  rw [List.getElem?_append_left (List.getElem?_eq_some_iff.1 ha).1]
  exact ⟨a, ha, h a⟩

theorem Stays.modify (h : ∀ a, R a a) {g : α → α} (hg : ∀ a, R a (g a)) (l : List α) (i : Nat) :
    Stays R l (l.modify i g) := by
  intro j a ha
  rw [List.getElem?_modify, ha]
  by_cases hij : i = j
  · exact ⟨g a, by simp [hij], hg a⟩
  · exact ⟨a, by simp [hij], h a⟩

end Order

theorem Value.Extends.refl (v : Value) : v.Extends v := ⟨rfl, Nat.le_refl _⟩

theorem Value.Extends.trans (u v w : Value) (h : u.Extends v) (h' : v.Extends w) : u.Extends w :=
  ⟨h'.core.trans h.core, Nat.le_trans h.uses h'.uses⟩

theorem Block.Extends.refl (k : Block) : k.Extends k := ⟨rfl, List.prefix_rfl⟩

theorem Block.Extends.trans (j k l : Block) (h : j.Extends k) (h' : k.Extends l) : j.Extends l :=
  ⟨h'.owner.trans h.owner, h.values.trans h'.values⟩

namespace Func.Extends

theorem refl (g : Func) : g.Extends g :=
  ⟨rfl, .refl Value.Extends.refl _, .refl Block.Extends.refl _⟩

theorem trans {g h k : Func} (hgh : g.Extends h) (hhk : h.Extends k) : g.Extends k := by
  refine ⟨?_, hgh.values.trans Value.Extends.trans hhk.values,
    hgh.blocks.trans Block.Extends.trans hhk.blocks⟩
  obtain ⟨hgh, -, -⟩ := hgh
  obtain ⟨hhk, -, -⟩ := hhk
  cases g
  cases h
  cases k
  simp only [Func.mk.injEq, true_and] at hgh hhk ⊢
  simp only [hgh, hhk, and_self]

end Func.Extends

namespace Module

variable {m m' m'' : Module} {f : Nat}

namespace Extends

theorem refl (f : Nat) (m : Module) : m.Extends f m :=
  ⟨rfl, rfl, List.prefix_rfl, fun _ _ _ h => h, fun g h => ⟨g, h, .refl g⟩⟩

theorem trans (h : m.Extends f m') (h' : m'.Extends f m'') : m.Extends f m'' := by
  refine ⟨h'.name.trans h.name, h'.triple.trans h.triple, h.globals.trans h'.globals, ?_, ?_⟩
  · intro i g hi hg
    exact h'.others i g hi (h.others i g hi hg)
  · intro g hg
    obtain ⟨g', hg', hext⟩ := h.here g hg
    obtain ⟨g'', hg'', hext'⟩ := h'.here g' hg'
    exact ⟨g'', hg'', hext.trans hext'⟩

/-- A function may be changed to one that extends it. -/
theorem of_modifyFunc {k : Func → Func} (hk : ∀ g, m.funcs[f]? = some g → g.Extends (k g)) :
    m.Extends f (m.modifyFunc f k) := by
  refine ⟨rfl, rfl, List.prefix_rfl, ?_, ?_⟩
  · intro i g hi hg
    show (m.funcs.modify f k)[i]? = some g
    rw [List.getElem?_modify, hg]
    simp [hi.symm]
  · intro g hg
    refine ⟨k g, ?_, hk g hg⟩
    show (m.funcs.modify f k)[f]? = some (k g)
    rw [List.getElem?_modify, hg]
    simp

/-- Functions may be added. -/
theorem of_append {new : List Func} (hname : m'.name = m.name) (htriple : m'.triple = m.triple)
    (hglobals : m.globals <+: m'.globals) (hfuncs : m'.funcs = m.funcs ++ new) :
    m.Extends f m' := by
  have hlater : ∀ (i : Nat) g, m.funcs[i]? = some g → m'.funcs[i]? = some g := by
    intro i g hg
    rw [hfuncs, List.getElem?_append_left (List.getElem?_eq_some_iff.1 hg).1, hg]
  exact ⟨hname, htriple, hglobals, fun i g _ hg => hlater i g hg,
    fun g hg => ⟨g, hlater f g hg, .refl g⟩⟩

/-- What was done to a function that was not there before leaves all that were there as they were.
-/
theorem of_new {n : Nat} (h : m.Extends n m') (hn : m.funcs.length ≤ n) : m.Extends f m' := by
  have hlater : ∀ (i : Nat) g, m.funcs[i]? = some g → m'.funcs[i]? = some g := by
    intro i g hg
    have hi := (List.getElem?_eq_some_iff.1 hg).1
    exact h.others i g (by omega) hg
  exact ⟨h.name, h.triple, h.globals, fun i g _ hg => hlater i g hg,
    fun g hg => ⟨g, hlater f g hg, .refl g⟩⟩

theorem length_le (h : m.Extends f m') : m.funcs.length ≤ m'.funcs.length := by
  by_contra hnot
  have hlt : m'.funcs.length < m.funcs.length := by omega
  obtain ⟨g, hlast⟩ : ∃ g, m.funcs[m'.funcs.length]? = some g := ⟨_, List.getElem?_eq_getElem hlt⟩
  by_cases hf : m'.funcs.length = f
  · rw [hf] at hlast
    obtain ⟨g', hg', -⟩ := h.here g hlast
    have := (List.getElem?_eq_some_iff.1 hg').1
    omega
  · have := (List.getElem?_eq_some_iff.1 (h.others _ g hf hlast)).1
    omega

/-- Each value is at its place still, and was used at least as often. -/
theorem value? {r : ValueRef} {v : Value} (h : m.Extends f m') (hv : m.value? r = some v) :
    ∃ v', m'.value? r = some v' ∧ v.Extends v' := by
  obtain ⟨g, hg, hgv⟩ := Option.bind_eq_some_iff.1 hv
  by_cases hr : r.func = f
  · rw [hr] at hg
    obtain ⟨g', hg', hext⟩ := h.here g hg
    obtain ⟨v', hv', hvv'⟩ := hext.values _ _ hgv
    exact ⟨v', Option.bind_eq_some_iff.2 ⟨g', hr ▸ hg', hv'⟩, hvv'⟩
  · exact ⟨v, Option.bind_eq_some_iff.2 ⟨g, h.others _ _ hr hg, hgv⟩, .refl v⟩

/-- A value calls the function that it called, unless that is the one that was written to. -/
theorem callee? {v v' : Value} {g : Func} (h : m.Extends f m') (hv : v.Extends v')
    (hne : v.aux ≠ .func f) (hg : m.callee? v = some g) : m'.callee? v' = some g := by
  obtain ⟨hop, haux⟩ : v'.op = v.op ∧ v'.aux = v.aux :=
    ⟨congrArg (·.op) hv.core, congrArg (·.aux) hv.core⟩
  unfold Module.callee? at hg ⊢
  rw [hop, haux]
  have hlisted : ∀ i, v.aux = .func i → m.funcs[i]? = some g → m'.funcs[i]? = some g := by
    intro i hi hget
    refine h.others i g ?_ hget
    rintro rfl
    exact hne hi
  split at hg
  case h_1 i _ hi => exact hlisted i hi hg
  case h_2 i _ hi => exact hlisted i hi hg
  case h_3 => exact hg
  case h_4 => exact hg
  case h_5 => cases hg

end Extends

/-! ## The operations that build a module -/

theorem ending?_congr {r : BlockRef} (h : m'.funcs[r.func]? = m.funcs[r.func]?) :
    m'.ending? r = m.ending? r := by
  rw [ending?, ending?, block?, block?, h]

/-- Blocks of the functions that were not written to end as before. -/
theorem Extends.ending?_eq {r : BlockRef} (h : m.Extends f m') (hr : r.func ≠ f)
    (hlt : r.func < m.funcs.length) : m'.ending? r = m.ending? r := by
  apply ending?_congr
  rw [h.others _ _ hr (List.getElem?_eq_getElem hlt), List.getElem?_eq_getElem hlt]

theorem ending?_modifyFunc {k : Func → Func} (r : BlockRef)
    (hk : ∀ g, (k g).blocks[r.index]?.map Block.ending = g.blocks[r.index]?.map Block.ending) :
    (m.modifyFunc f k).ending? r = m.ending? r := by
  unfold ending? block? modifyFunc
  rw [List.getElem?_modify]
  cases m.funcs[r.func]? with
  | none => rfl
  | some g =>
    by_cases hr : f = r.func
    · simpa [hr] using hk g
    · simp [hr]

end Module

/-! ## Creating values -/

/-- The functions differ at most in the value `k` and in how often values were used. -/
structure Func.Patched (k : Nat) (g g' : Func) : Prop where
  rest : { g' with values := g.values } = g
  values : ∀ (i : Nat) v, i ≠ k → g.values[i]? = some v →
    ∃ v', g'.values[i]? = some v' ∧ v.Extends v'

namespace Func.Patched

variable {k : Nat} {f g h : Func}

theorem refl (k : Nat) (g : Func) : g.Patched k g := ⟨rfl, fun _ v _ hv => ⟨v, hv, .refl v⟩⟩

theorem trans (hfg : f.Patched k g) (hgh : g.Patched k h) : f.Patched k h := by
  refine ⟨?_, ?_⟩
  · obtain ⟨hfg, -⟩ := hfg
    obtain ⟨hgh, -⟩ := hgh
    cases f
    cases g
    cases h
    simp only [Func.mk.injEq, true_and] at hfg hgh ⊢
    simp only [hfg, hgh, and_self]
  · intro i v hi hv
    obtain ⟨v', hv', hext⟩ := hfg.values i v hi hv
    obtain ⟨v'', hv'', hext'⟩ := hgh.values i v' hi hv'
    exact ⟨v'', hv'', hext.trans _ _ _ hext'⟩

/-- The patched value itself may be changed in any way, others may be used more often. -/
theorem modify {i : Nat} {k' : Value → Value} (hk : i ≠ k → ∀ v : Value, v.Extends (k' v))
    (g : Func) :
    g.Patched k { g with values := g.values.modify i k' } := by
  refine ⟨rfl, ?_⟩
  intro j v hj hv
  show ∃ v', (g.values.modify i k')[j]? = some v' ∧ v.Extends v'
  rw [List.getElem?_modify, hv]
  by_cases hij : i = j
  · exact ⟨k' v, by simp [hij], hk (hij ▸ hj) v⟩
  · exact ⟨v, by simp [hij], .refl v⟩

end Func.Patched

namespace Module

variable {m : Module} {f : Nat}

theorem modifyFunc_modifyFunc (f : Nat) (k k' : Func → Func) :
    (m.modifyFunc f k).modifyFunc f k' = m.modifyFunc f (k' ∘ k) := by
  simp only [modifyFunc, List.modify_modify_eq]

/-- Passing arguments patches the value that they are passed to. -/
theorem foldl_addArg_eq (r : ValueRef) (args : List ValueRef) (hr : r.func = f)
    (hargs : ∀ a ∈ args, a.func = f) :
    ∃ k, args.foldl (fun m a => m.addArg r a) m = m.modifyFunc f k ∧
      ∀ g : Func, g.Patched r.index (k g) := by
  induction args generalizing m with
  | nil => exact ⟨id, (modifyFunc_id f).symm, .refl r.index⟩
  | cons a args ih =>
    obtain ⟨ha, hargs⟩ := List.forall_mem_cons.1 hargs
    obtain ⟨k, hk, hpatched⟩ := ih hargs (m := m.addArg r a)
    let pass : Func → Func := fun g => { g with
      values := g.values.modify r.index fun v => { v with args := v.args ++ [some a] } }
    let more : Value → Value := fun v => { v with uses := v.uses + 1 }
    let count : Func → Func := fun g => { g with values := g.values.modify a.index more }
    have harg : m.addArg r a = m.modifyFunc f (count ∘ pass) := by
      rw [← modifyFunc_modifyFunc, addArg, countUse, modifyValue, modifyValue, ha, hr]
    refine ⟨k ∘ count ∘ pass, ?_, ?_⟩
    · rw [List.foldl_cons, hk, harg, modifyFunc_modifyFunc]
    · intro g
      have hpass : g.Patched r.index (pass g) := .modify (fun hne => absurd rfl hne) g
      have hmore : ∀ v : Value, v.Extends (more v) := fun v => ⟨rfl, Nat.le_succ v.uses⟩
      have hcount : (pass g).Patched r.index (count (pass g)) := .modify (fun _ => hmore) _
      exact (hpass.trans hcount).trans (hpatched _)

/-- Creating a value in a function extends the function, and ends none of its blocks. -/
theorem addValue_eq {block : BlockRef} {args : List ValueRef} (hblock : block.func = f)
    (hargs : ∀ a ∈ args, a.func = f) (v : Value) :
    ∃ k, (m.addValue f block v args).2 = m.modifyFunc f k ∧
      (∀ g, m.funcs[f]? = some g → g.Extends (k g)) ∧
      ∀ (g : Func) (i : Nat),
        ((k g).blocks[i]?).map Block.ending = (g.blocks[i]?).map Block.ending := by
  let r : ValueRef := ⟨f, ((m.funcs[f]?).map (·.values.length)).getD 0⟩
  let start : Func → Func := fun g =>
    { g with values := g.values ++ [{ v with block := some block, uses := 0, args := [] }] }
  let listed : Block → Block := fun b => { b with values := b.values ++ [r] }
  let list : Func → Func := fun g => { g with blocks := g.blocks.modify block.index listed }
  obtain ⟨k, hk, hpatched⟩ := foldl_addArg_eq (m := m.modifyFunc f start) r args rfl hargs
  refine ⟨list ∘ k ∘ start, ?_, ?_, ?_⟩
  · rw [← modifyFunc_modifyFunc, ← modifyFunc_modifyFunc, ← hk]
    subst hblock
    rfl
  · intro g hg
    obtain ⟨hrest, hvalues⟩ := hpatched (start g)
    have hblocks : (k (start g)).blocks = g.blocks := congrArg (·.blocks) hrest
    refine ⟨?_, ?_, ?_⟩
    · exact congrArg (fun h : Func => { h with values := g.values, blocks := g.blocks }) hrest
    · intro i w hw
      have hi := (List.getElem?_eq_some_iff.1 hw).1
      refine hvalues i w ?_ ?_
      · have hr : r.index = g.values.length := by simp [r, hg]
        omega
      · show (g.values ++ _)[i]? = some w
        rw [List.getElem?_append_left hi, hw]
    · show Stays Block.Extends g.blocks ((k (start g)).blocks.modify block.index listed)
      have hlisted : ∀ b : Block, b.Extends (listed b) := fun b => ⟨rfl, List.prefix_append _ _⟩
      rw [hblocks]
      exact .modify Block.Extends.refl hlisted _ _
  · intro g i
    have hblocks : (k (start g)).blocks = g.blocks := congrArg (·.blocks) (hpatched (start g)).rest
    show (((k (start g)).blocks.modify block.index listed)[i]?).map Block.ending = _
    rw [hblocks, List.getElem?_modify]
    cases g.blocks[i]? with
    | none => rfl
    | some b => by_cases hi : block.index = i <;> simp [hi, listed, Block.ending]

/-- Creating a value extends the module, and ends no block. -/
theorem extends_addValue (block : BlockRef) {args : List ValueRef} (hblock : block.func = f)
    (hargs : ∀ a ∈ args, a.func = f) (v : Value) :
    m.Extends f (m.addValue f block v args).2 ∧
      ∀ r, (m.addValue f block v args).2.ending? r = m.ending? r := by
  obtain ⟨k, hk, hext, hends⟩ := addValue_eq (m := m) hblock hargs v
  rw [hk]
  exact ⟨.of_modifyFunc hext, fun r => ending?_modifyFunc r fun g => hends g r.index⟩

/-- Ending a block extends the module. -/
theorem extends_setReturn {block : BlockRef} {r : ValueRef} (hblock : block.func = f)
    (hr : r.func = f) : m.Extends f (m.setReturn block (some r)) := by
  subst hblock
  have hend : ∀ (m : Module) (k : Block → Block), (∀ b : Block, b.Extends (k b)) →
      m.Extends block.func (m.modifyBlock block k) := by
    intro m k hk
    refine .of_modifyFunc fun g _ => ⟨rfl, .refl Value.Extends.refl _, ?_⟩
    exact .modify Block.Extends.refl hk _ _
  have hmore : ∀ v : Value, v.Extends { v with uses := v.uses + 1 } := fun v => ⟨rfl, Nat.le_succ _⟩
  have huse : ∀ m : Module, m.Extends block.func (m.countUse r) := by
    intro m
    rw [countUse, modifyValue, hr]
    refine .of_modifyFunc fun g _ => ⟨rfl, ?_, .refl Block.Extends.refl _⟩
    exact .modify Value.Extends.refl hmore _ _
  have hkind := hend m (fun b => { b with kind := .ret }) fun b => ⟨rfl, List.prefix_rfl⟩
  have hcontrol := hend (m.modifyBlock block fun b => { b with kind := .ret })
    (fun b => { b with controls := [some r] }) fun b => ⟨rfl, List.prefix_rfl⟩
  exact (hkind.trans hcontrol).trans (huse _)

theorem extends_internString (f : Nat) (data : List UInt8) :
    m.Extends f (m.internString data).2 := by
  unfold internString
  split
  · exact .refl f m
  · exact .of_append rfl rfl (List.prefix_append _ _) (List.append_nil _).symm

/-- A function is added behind the others, under a fresh symbol. -/
theorem funcs_addFunc (m : Module) (name : String) (sig : Signature) (params : List String) :
    (m.addFunc name sig params).1 = m.funcs.length ∧
      ∃ g, (m.addFunc name sig params).2.funcs = m.funcs ++ [g] ∧
        g.name = (m.freshSymbol name).1 ∧ g.paramNames = params := by
  obtain ⟨hfuncs, -⟩ := Drafted.funcs_freshSymbol m name
  refine ⟨?_, ?_⟩
  · simp only [addFunc, addDeclaration, hfuncs]
  · simp only [addFunc, addDeclaration, addBlock, modifyFunc, hfuncs, Drafted.modify_concat]
    exact ⟨_, rfl, rfl, rfl⟩

theorem extends_addFunc (f : Nat) (name : String) (sig : Signature) (params : List String) :
    m.Extends f (m.addFunc name sig params).2 := by
  obtain ⟨-, g, hadded, -⟩ := funcs_addFunc m name sig params
  obtain ⟨-, hglobals⟩ := Drafted.funcs_freshSymbol m name
  have hrest : (m.freshSymbol name).2.name = m.name ∧ (m.freshSymbol name).2.triple = m.triple := by
    unfold freshSymbol
    split <;> exact ⟨rfl, rfl⟩
  refine .of_append hrest.1 hrest.2 ?_ hadded
  exact ⟨[], (List.append_nil _).trans hglobals.symm⟩

end Module

end Wordlang.IR
