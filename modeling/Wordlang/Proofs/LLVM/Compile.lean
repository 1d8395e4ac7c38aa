import Wordlang.Proofs.LLVM.Render
import Wordlang.Proofs.LLVM.Text

/-!
# The text of a program

Every program is compiled to text in static single assignment form, also one that lowering refuses:
the functions that were complete return, those that were being lowered do not.
-/

namespace Wordlang

open IR Lowering LLVM Reader

/-- The places of the functions that were still open when lowering ended. -/
def stillOpen (o : CompileOptions) (es : List Expr) : List Nat :=
  match topLevel 0 es (Builder.initial o.effectiveName o.triple) with
  | .ok _ _ => []
  | .error _ _ => entryPlace :: interruptedAt 0 es (Builder.initial o.effectiveName o.triple)

/-- The module of a program is sound, and the functions without a result are those still open. -/
theorem lower_sound (o : CompileOptions) (es : List Expr) :
    ∃ ds, Sound (lower o es).module ds ∧ Draft.openPlaces 0 ds = stillOpen o es := by
  have hgrow := topLevel_grows 0 es (initial_inv o.effectiveName o.triple)
  rw [lower_module, stillOpen]
  cases htop : topLevel 0 es (Builder.initial o.effectiveName o.triple) with
  | ok u b =>
    rw [htop] at hgrow
    obtain ⟨vs, new, hgrown⟩ := hgrow
    refine ⟨_, hgrown.inv.finish rfl, ?_⟩
    -- all functions but the entry have their result, and finishing gives it one
    have hset : ∀ d, (startDrafts.set entryPlace (entryDraft.append vs) ++ new).set entryPlace d =
        startDrafts.set entryPlace d ++ new := fun _ => rfl
    rw [hset, Draft.openPlaces_append, Draft.openPlaces_eq_nil hgrown.closed]
    rfl
  | error e b =>
    rw [htop] at hgrow
    obtain ⟨ds, hsound, -, hplaces⟩ := hgrow
    exact ⟨ds, hsound, hplaces⟩

/-! ## Symbols of a module -/

section Symbols

variable {m : Module} {ds : List Draft} {q : String → Prop} {front : List Line}
  {bodies : List Body}

theorem raw_of_isFront (ht : m.Tidy q) {l : Line} (h : l.IsFront m) : l.raw = "" ∨ q l.raw := by
  cases l with
  | moduleComment name =>
    obtain rfl : name = m.name := h
    exact .inr ht.name
  | triple t =>
    obtain rfl : t = m.triple := h
    exact .inr ht.triple
  | define | label | inst | close => exact h.elim
  | _ => exact .inl rfl

theorem not_define_of_isFront {l : Line} (h : l.IsFront m) :
    (lineTokens l).head? ≠ some "define" := by
  intro hhead
  obtain ⟨ts, hts⟩ := List.head?_eq_some_iff.1 hhead
  cases l with
  | global name data =>
    have hname : LLVM.symbol name = "define" := (List.cons.inj hts).1
    have hglobal := isGlobal_symbol name
    rw [hname] at hglobal
    exact absurd hglobal (by decide)
  | declare name sig => exact absurd (List.cons.inj hts).1 (by decide)
  | define | label | inst | close => exact h.elim
  | _ => exact (quiet_of_line rfl hts).1 rfl

/-- The text of a module, read line by line. -/
theorem read_module (ht : m.Tidy Unbroken) (h : Rendered Unbroken m ds front bodies) :
    readText (textOf (front ++ bodies.flatMap Body.lines)) =
      (front ++ bodies.flatMap Body.lines).map lineTokens ++ [[]] := by
  apply readText_textOf
  intro l hl
  have hraw : l.raw = "" ∨ Unbroken l.raw := by
    rcases List.mem_append.1 hl with hl | hl
    · exact raw_of_isFront ht (h.isFront l hl)
    · obtain ⟨b, hb, hl⟩ := List.mem_flatMap.1 hl
      obtain ⟨d, -, hbody⟩ := h.bodies b hb
      exact hbody.raw l hl
  rcases hraw with hraw | hraw
  · rw [hraw]
    decide
  · exact hraw

theorem definitions_module (h : Rendered q m ds front bodies) :
    definitions ((front ++ bodies.flatMap Body.lines).map lineTokens ++ [[]]) =
      bodies.map definition := by
  have hfront : ∀ ts ∈ front.map lineTokens, ts.head? ≠ some "define" := by
    intro ts hts
    obtain ⟨l, hl, rfl⟩ := List.mem_map.1 hts
    exact not_define_of_isFront (h.isFront l hl)
  have hend : definitions [[]] = [] := rfl
  rw [List.map_append, List.append_assoc, definitions_append_of_forall hfront, definitions_bodies,
    hend, List.append_nil]

end Symbols

/-! ## Open functions -/

theorem mem_openPlaces {n i : Nat} {ds : List Draft} : i ∈ Draft.openPlaces n ds ↔
    ∃ j d, i = n + j ∧ ds[j]? = some d ∧ d.isOpen = true := by
  induction ds generalizing n with
  | nil => simp [Draft.openPlaces]
  | cons e ds ih =>
    have hrest : i ∈ Draft.openPlaces (n + 1) ds ↔
        ∃ j d, i = n + (j + 1) ∧ (e :: ds)[j + 1]? = some d ∧ d.isOpen = true := by
      rw [ih]
      simp only [List.getElem?_cons_succ, Nat.add_assoc, Nat.add_comm 1]
    rw [Draft.openPlaces]
    constructor
    · intro hi
      split at hi
      · next he =>
        rcases List.mem_cons.1 hi with rfl | hi
        · exact ⟨0, e, rfl, rfl, he⟩
        · obtain ⟨j, d, hj⟩ := hrest.1 hi
          exact ⟨j + 1, d, hj⟩
      · obtain ⟨j, d, hj⟩ := hrest.1 hi
        exact ⟨j + 1, d, hj⟩
    · rintro ⟨j, d, rfl, hd, hopen⟩
      cases j with
      | zero =>
        cases hd
        rw [if_pos hopen]
        exact List.mem_cons_self
      | succ j =>
        have hi := hrest.2 ⟨j, d, rfl, hd, hopen⟩
        split
        · exact List.mem_cons_of_mem _ hi
        · exact hi

end Wordlang
