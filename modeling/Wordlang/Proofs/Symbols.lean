import Mathlib.Data.List.Nodup
import Mathlib.Data.List.Perm.Subperm
import Wordlang.Proofs.Draft

/-!
# Symbols

A module never hands out a symbol twice, so its globals and functions always have symbols of their
own. A symbol that is asked for again gets a number; more numbers are tried than symbols were handed
out, and hence one of them is free.
-/

namespace Wordlang.IR.Module

variable {m m' : Module} {ds ds' : List Draft}

theorem repr_injective : Function.Injective Nat.repr := by
  intro i j h
  have hdigits : Nat.toDigits 10 i = Nat.toDigits 10 j := by
    rw [← Nat.toList_repr, ← Nat.toList_repr, h]
  rw [← @Nat.ofDigitChars_ten_toDigits i, hdigits, Nat.ofDigitChars_ten_toDigits]

theorem suffixed_injective (name : String) : Function.Injective (suffixed name) := by
  intro i j h
  exact repr_injective ((String.append_right_inj _).1 h)

theorem isTaken_iff (name : String) : m.isTaken name = true ↔ name ∈ m.symbols.map Prod.fst := by
  rw [isTaken, List.lookup_isSome_iff, List.mem_map]
  constructor
  · rintro ⟨p, hp, he⟩
    exact ⟨p, hp, (beq_iff_eq.1 he).symm⟩
  · rintro ⟨p, hp, rfl⟩
    exact ⟨p, hp, beq_self_eq_true _⟩

/-- Of distinct candidates, the first free one is free. -/
theorem firstFree_notMem {candidate : Nat → String} (hinj : Function.Injective candidate)
    (start : Nat) : candidate (m.firstFree start candidate) ∉ m.symbols.map Prod.fst := by
  rw [← isTaken_iff, firstFree]
  cases h : ((List.range (m.symbols.length + 1)).map (start + ·)).find?
      fun i => !m.isTaken (candidate i) with
  | some i => simpa using List.find?_some h
  | none =>
    -- all candidates would be taken, and there are more of them than symbols
    have hnodup : ((List.range (m.symbols.length + 1)).map
        fun i => candidate (start + i)).Nodup := by
      apply List.Nodup.map _ List.nodup_range
      intro i j hij
      exact Nat.add_left_cancel (hinj hij)
    have hsub : ((List.range (m.symbols.length + 1)).map fun i => candidate (start + i)) ⊆
        m.symbols.map Prod.fst := by
      intro n hn
      obtain ⟨i, hi, rfl⟩ := List.mem_map.1 hn
      have := List.find?_eq_none.1 h (start + i) (List.mem_map.2 ⟨i, hi, rfl⟩)
      rw [← isTaken_iff]
      simpa using this
    have hlen := (hnodup.subperm hsub).length_le
    rw [List.length_map, List.length_map, List.length_range] at hlen
    omega

theorem freshSymbol_notMem (m : Module) (name : String) :
    (m.freshSymbol name).1 ∉ m.symbols.map Prod.fst := by
  unfold freshSymbol
  split
  · rename_i h
    rw [← isTaken_iff, isTaken, h]
    simp
  · exact firstFree_notMem (suffixed_injective name) _

/-- What was handed out stays so, and only the fresh symbol is added. -/
theorem mem_symbols_freshSymbol (m : Module) (name n : String) :
    n ∈ (m.freshSymbol name).2.symbols.map Prod.fst ↔
      n = (m.freshSymbol name).1 ∨ n ∈ m.symbols.map Prod.fst := by
  unfold freshSymbol
  split
  · rw [List.map_cons, List.mem_cons]
  · next h =>
    have htaken : name ∈ m.symbols.map Prod.fst := by rw [← isTaken_iff, isTaken, h]; rfl
    simp only [List.map_cons, List.mem_cons]
    constructor
    · rintro (rfl | hn)
      · exact .inr htaken
      · exact hn
    · exact .inr

theorem symbols_freshSymbol (m : Module) (name : String) :
    (m.freshSymbol name).1 :: m.symbols.map Prod.fst ⊆
      (m.freshSymbol name).2.symbols.map Prod.fst := by
  intro n hn
  rw [mem_symbols_freshSymbol]
  exact List.mem_cons.1 hn

/-- A name that is free is handed out as it is. -/
theorem freshSymbol_free {m : Module} {name : String} (h : name ∉ m.symbols.map Prod.fst) :
    (m.freshSymbol name).1 = name := by
  rw [← isTaken_iff, isTaken, Bool.not_eq_true, Option.isSome_eq_false_iff,
    Option.isNone_iff_eq_none] at h
  rw [freshSymbol, h]

/-- What is handed out is the name, or the name with a number. -/
theorem freshSymbol_cases (m : Module) (name : String) :
    (m.freshSymbol name).1 = name ∨ ∃ i, (m.freshSymbol name).1 = suffixed name i := by
  unfold freshSymbol
  split
  · exact .inl rfl
  · exact .inr ⟨_, rfl⟩

/-- The globals of a module and the drafts of its functions have distinct symbols, all of which were
handed out. -/
structure Named (m : Module) (ds : List Draft) : Prop where
  distinct : (m.globals.map (·.name) ++ ds.map (·.name)).Nodup
  taken : m.globals.map (·.name) ++ ds.map (·.name) ⊆ m.symbols.map Prod.fst

namespace Named

/-- Nothing but the symbols of globals and functions counts. -/
theorem congr (h : m.Named ds) (hm : m'.rest = m.rest)
    (hds : ds'.map (·.name) = ds.map (·.name)) : m'.Named ds' := by
  simp only [rest, Prod.mk.injEq] at hm
  obtain ⟨-, -, hglobals, hsymbols⟩ := hm
  refine ⟨?_, ?_⟩
  · rw [hglobals, hds]
    exact h.distinct
  · rw [hglobals, hds, hsymbols]
    exact h.taken

/-- A function with a fresh symbol may be added. -/
theorem add_func (h : m.Named ds) {name : String} {d : Draft} (hd : d.name = (m.freshSymbol name).1)
    (hm : m'.rest = (m.freshSymbol name).2.rest) : m'.Named (ds ++ [d]) := by
  simp only [rest, Prod.mk.injEq, (Drafted.funcs_freshSymbol m name).2] at hm
  obtain ⟨-, -, hglobals, hsymbols⟩ := hm
  have hnew := freshSymbol_notMem m name
  have hall := symbols_freshSymbol m name
  rw [← hd] at hnew hall
  refine ⟨?_, ?_⟩
  · rw [hglobals, List.map_append, ← List.append_assoc]
    refine List.nodup_append'.2 ⟨h.distinct, List.nodup_singleton _, ?_⟩
    intro n hn hd'
    rw [List.map_singleton, List.mem_singleton] at hd'
    exact hnew (hd' ▸ h.taken hn)
  · rw [hglobals, hsymbols, List.map_append, ← List.append_assoc]
    intro n hn
    rcases List.mem_append.1 hn with hn | hn
    · exact hall (List.mem_cons_of_mem _ (h.taken hn))
    · rw [List.map_singleton, List.mem_singleton] at hn
      exact hall (hn ▸ List.mem_cons_self)

/-- A string may be interned. -/
theorem internString (h : m.Named ds) (data : List UInt8) : (m.internString data).2.Named ds := by
  unfold Module.internString
  split
  · exact h
  · have hnew := firstFree_notMem (suffixed_injective ".str") (m := m) m.globals.length
    refine ⟨?_, ?_⟩
    · rw [List.map_append, List.append_assoc]
      refine (List.perm_middle.nodup_iff).2 (List.nodup_cons.2 ⟨?_, h.distinct⟩)
      intro hn
      exact hnew (h.taken hn)
    · rw [List.map_append, List.append_assoc]
      intro n hn
      rcases List.mem_append.1 hn with hn | hn
      · exact List.mem_cons_of_mem _ (h.taken (List.mem_append_left _ hn))
      · rcases List.mem_cons.1 hn with hn | hn
        · exact hn ▸ List.mem_cons_self
        · exact List.mem_cons_of_mem _ (h.taken (List.mem_append_right _ hn))

end Named

end Wordlang.IR.Module
