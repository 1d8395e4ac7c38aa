import Wordlang.Proofs.LLVM.Render
import Wordlang.Proofs.Verify.Rules

/-!
# What a rendering is made of

Where a module is rendered, its lines are those of its header, constants and declarations, followed
by those of its functions, which are in turn those of their blocks and values. The malformed value
that a rendering reports is the first one, in the order of the module, that has no line.
-/

namespace Wordlang.LLVM

open IR

/-! ## Malformed values -/

/-- What keeps a value from having a line. -/
def gap? (m : Module) (v : Value) : Option Gap :=
  match v.op with
  | .const32 | .globalAddr | .funcAddr | .arg | .alloca | .load | .store | .add32 => none
  | .call => if (m.callee? v).isNone then some .noCallee else none
  | .callIndirect =>
    if (m.callSignature? v).isNone ∨ v.args = [] then some .noSignature else none
  | .invalid => some (.unhandled .invalid)
  | .unknown code => some (.unhandled (.unknown code))

/-- The malformed value that a reference leads to. -/
def malformed? (m : Module) (f : Func) (r : ValueRef) : Option Malformed :=
  (m.value? r).bind fun v => (gap? m v).map (⟨f.name, r.index, ·⟩)

/-- The malformed values of a module, in the order of the module. -/
def malformedValues (m : Module) : List Malformed :=
  (m.funcs.filter (!·.external)).flatMap fun f => f.sequence.filterMap (malformed? m f)

/-! ## Lines -/

/-- The lines of a value. -/
def valueLines (m : Module) (f : Func) (r : ValueRef) : List Line :=
  match (m.value? r).bind (renderValue? m f r.index) with
  | some piece => piece.lines
  | none => []

/-- The lines of a block. -/
def blockLines (m : Module) (f : Func) (x : Nat × Block) : List Line :=
  .label x.1 :: (x.2.values.flatMap (valueLines m f) ++ (renderEnd? m x.2).toList)

/-- The lines between the braces of a function. -/
def bodyLines (m : Module) (f : Func) : List Line := f.bodyBlocks.flatMap (blockLines m f)

/-- The lines of a function of the given signature, after a blank one. -/
def funcLines (m : Module) (f : Func) (sig : Signature) : List Line :=
  [.blank, .define f.name sig.params sig.result] ++ bodyLines m f ++ [.close]

variable {m : Module} {f : Func} {r : Rendering}

theorem append_eq (a b : Rendering) :
    a ++ b = ⟨a.lines ++ b.lines, a.malformed <|> b.malformed⟩ := rfl

/-- Where the pieces of a list are known by their elements, so is what they are put together to. -/
theorem concat_of_mapM {α : Type} {g : α → Option Rendering} {lines : α → List Line}
    {bad : α → List Malformed} {as : List α} {rs : List Rendering} (h : as.mapM g = some rs)
    (hg : ∀ a ∈ as, ∀ r, g a = some r → r = ⟨lines a, (bad a).head?⟩) :
    Rendering.concat rs = ⟨as.flatMap lines, (as.flatMap bad).head?⟩ := by
  induction as generalizing rs with
  | nil =>
    cases h
    rfl
  | cons a as ih =>
    obtain ⟨r, rest, hr, hrest, rfl⟩ := mapM_cons_eq_some.1 h
    obtain ⟨ha, has⟩ := List.forall_mem_cons.1 hg
    show r ++ Rendering.concat rest = _
    rw [ih hrest has, ha r hr, append_eq, List.flatMap_cons, List.flatMap_cons, List.head?_append,
      Option.orElse_eq_orElse, Option.orElse_eq_or]

/-! ## Values -/

theorem malformed_renderCall {n : Nat} {sig : Signature} {callee : Operand}
    {args : List (Option ValueRef)} (h : renderCall? m n sig callee args = some r) :
    r.malformed = none := by
  obtain ⟨xs, -, hr⟩ := Option.bind_eq_some_iff.1 h
  cases hr
  rfl

/-- A value is reported exactly if something keeps it from having a line. -/
theorem malformed_renderValue {n : Nat} {v : Value} (h : renderValue? m f n v = some r) :
    r.malformed = (gap? m v).map (⟨f.name, n, ·⟩) := by
  unfold renderValue? at h
  cases hop : v.op with
  | const32 | globalAddr | funcAddr | arg | alloca | invalid | unknown =>
    rw [hop] at h
    cases h
    simp [gap?, hop, Rendering.ofLines]
  | load =>
    simp only [hop, Option.bind_eq_bind, Option.bind_eq_some_iff] at h
    obtain ⟨x, -, hr⟩ := h
    cases hr
    simp [gap?, hop, Rendering.ofLines]
  | store | add32 =>
    simp only [hop, Option.bind_eq_bind, Option.bind_eq_some_iff] at h
    obtain ⟨x, -, y, -, hr⟩ := h
    cases hr
    simp [gap?, hop, Rendering.ofLines]
  | call =>
    simp only [hop] at h
    cases hcallee : m.callee? v with
    | none =>
      rw [hcallee] at h
      cases h
      simp [gap?, hop, hcallee]
    | some g =>
      simp only [hcallee, Option.bind_eq_bind, Option.bind_eq_some_iff] at h
      obtain ⟨sig, -, hcall⟩ := h
      rw [malformed_renderCall hcall]
      simp [gap?, hop, hcallee]
  | callIndirect =>
    simp only [hop] at h
    split at h
    · next sig a args hsig hargs =>
      simp only [Option.bind_eq_bind, Option.bind_eq_some_iff] at h
      obtain ⟨x, -, hcall⟩ := h
      rw [malformed_renderCall hcall]
      simp [gap?, hop, hsig, hargs]
    · next hnone =>
      cases h
      have hgap : (m.callSignature? v).isNone ∨ v.args = [] := by
        cases hsig : m.callSignature? v with
        | none => exact .inl rfl
        | some sig =>
          cases hargs : v.args with
          | nil => exact .inr rfl
          | cons a args => exact absurd hargs (hnone sig a args hsig)
      simp only [gap?, hop, if_pos hgap, Option.map_some]

/-- The piece of a value. -/
theorem value_pieces {ref : ValueRef}
    (h : (do renderValue? m f ref.index (← m.value? ref)) = some r) :
    r = ⟨valueLines m f ref, (malformed? m f ref).toList.head?⟩ := by
  obtain ⟨v, hv, hr⟩ := Option.bind_eq_some_iff.1 h
  have hlines : valueLines m f ref = r.lines := by
    simp [valueLines, hv, hr]
  have hbad : malformed? m f ref = r.malformed := by
    rw [malformed_renderValue hr]
    simp [malformed?, hv]
  rw [hlines, hbad]
  cases r with
  | mk lines malformed => cases malformed <;> rfl

/-! ## Instructions -/

theorem insts_of_renderCall {n : Nat} {sig : Signature} {callee : Operand}
    {args : List (Option ValueRef)} (h : renderCall? m n sig callee args = some r) :
    ∀ l ∈ r.lines, ∃ i, l = .inst i := by
  obtain ⟨xs, -, hr⟩ := Option.bind_eq_some_iff.1 h
  cases hr
  simp [Rendering.ofLines]

theorem insts_of_renderValue {n : Nat} {v : Value} (h : renderValue? m f n v = some r) :
    ∀ l ∈ r.lines, ∃ i, l = .inst i := by
  unfold renderValue? at h
  cases hop : v.op with
  | const32 | globalAddr | funcAddr | arg | alloca | invalid | unknown =>
    rw [hop] at h
    cases h
    simp [Rendering.ofLines]
  | load =>
    simp only [hop, Option.bind_eq_bind, Option.bind_eq_some_iff] at h
    obtain ⟨x, -, hr⟩ := h
    cases hr
    simp [Rendering.ofLines]
  | store | add32 =>
    simp only [hop, Option.bind_eq_bind, Option.bind_eq_some_iff] at h
    obtain ⟨x, -, y, -, hr⟩ := h
    cases hr
    simp [Rendering.ofLines]
  | call =>
    simp only [hop] at h
    split at h
    · cases h
      simp
    · simp only [Option.bind_eq_bind, Option.bind_eq_some_iff] at h
      obtain ⟨sig, -, hcall⟩ := h
      exact insts_of_renderCall hcall
  | callIndirect =>
    simp only [hop] at h
    split at h
    · simp only [Option.bind_eq_bind, Option.bind_eq_some_iff] at h
      obtain ⟨x, -, hcall⟩ := h
      exact insts_of_renderCall hcall
    · cases h
      simp

theorem inst_of_renderEnd {b : Block} {l : Line} (h : renderEnd? m b = some l) :
    ∃ i, l = .inst i := by
  unfold renderEnd? at h
  split at h
  · obtain ⟨x, -, rfl⟩ := Option.map_eq_some_iff.1 h
    exact ⟨_, rfl⟩
  · exact ⟨_, (Option.some.inj h).symm⟩
  · exact ⟨_, (Option.some.inj h).symm⟩

/-- Between its braces, a function has labels and instructions. -/
theorem bodyLines_cases : ∀ l ∈ bodyLines m f, (∃ n, l = .label n) ∨ ∃ i, l = .inst i := by
  intro l hl
  obtain ⟨x, -, hl⟩ := List.mem_flatMap.1 hl
  rcases List.mem_cons.1 hl with rfl | hl
  · exact .inl ⟨x.1, rfl⟩
  rcases List.mem_append.1 hl with hl | hl
  · obtain ⟨ref, -, hl⟩ := List.mem_flatMap.1 hl
    unfold valueLines at hl
    split at hl
    · next piece hpiece =>
      obtain ⟨v, -, hr⟩ := Option.bind_eq_some_iff.1 hpiece
      exact .inr (insts_of_renderValue hr l hl)
    · cases hl
  · exact .inr (inst_of_renderEnd (Option.mem_toList.1 hl))

/-! ## Blocks and functions -/

theorem block_pieces {x : Nat × Block} (h : renderBlock? m f x.1 x.2 = some r) :
    r = ⟨blockLines m f x, (x.2.values.filterMap (malformed? m f)).head?⟩ := by
  obtain ⟨values, hvalues, h⟩ := Option.bind_eq_some_iff.1 h
  obtain ⟨last, hlast, hr⟩ := Option.bind_eq_some_iff.1 h
  have hconcat := concat_of_mapM hvalues fun ref _ piece => value_pieces
  rw [← List.filterMap_eq_flatMap_toList] at hconcat
  cases hr
  rw [hconcat]
  simp [append_eq, Rendering.ofLines, blockLines, hlast]

theorem func_pieces (h : renderFunc? m f = some r) : ∃ sig, f.sig = some sig ∧
    r = ⟨funcLines m f sig, (f.sequence.filterMap (malformed? m f)).head?⟩ := by
  obtain ⟨sig, hsig, h⟩ := Option.bind_eq_some_iff.1 h
  obtain ⟨blocks, hblocks, hr⟩ := Option.bind_eq_some_iff.1 h
  have hconcat := concat_of_mapM hblocks fun x _ piece => block_pieces
  refine ⟨sig, hsig, ?_⟩
  cases hr
  rw [hconcat]
  simp [append_eq, Rendering.ofLines, funcLines, bodyLines, Func.sequence, List.filterMap_flatMap]

/-! ## Modules -/

/-- The lines of the functions that a module defines. -/
def definedLines (m : Module) : List Line :=
  (m.funcs.filter (!·.external)).flatMap fun f => f.sig.elim [] (funcLines m f)

/-- What is known of a module that is rendered. -/
structure Pieces (m : Module) (declared : List Line) (r : Rendering) : Prop where
  declarations : (m.funcs.filter (·.external)).mapM declare? = some declared
  lines : r.lines = frontLines m declared ++ definedLines m
  malformed : r.malformed = (malformedValues m).head?
  defined : ∀ f ∈ m.funcs, f.external = false → ∃ piece, renderFunc? m f = some piece

theorem render_pieces (h : render? m = some r) : ∃ declared, Pieces m declared r := by
  obtain ⟨declared, hdeclared, h⟩ := Option.bind_eq_some_iff.1 h
  obtain ⟨defined, hdefined, hr⟩ := Option.bind_eq_some_iff.1 h
  have hpieces : ∀ f ∈ m.funcs.filter (!·.external), ∀ piece, renderFunc? m f = some piece →
      piece = ⟨f.sig.elim [] (funcLines m f),
        (f.sequence.filterMap (malformed? m f)).head?⟩ := by
    intro f _ piece hpiece
    obtain ⟨sig, hsig, heq⟩ := func_pieces hpiece
    rw [hsig]
    exact heq
  have hconcat := concat_of_mapM hdefined hpieces
  refine ⟨declared, hdeclared, ?_, ?_, ?_⟩
  · cases hr
    rw [hconcat]
    rfl
  · cases hr
    rw [hconcat]
    rfl
  · intro f hf hinside
    exact exists_of_mapM hdefined f (List.mem_filter.2 ⟨hf, by simp [hinside]⟩)

end Wordlang.LLVM
