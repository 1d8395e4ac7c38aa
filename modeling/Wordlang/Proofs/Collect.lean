/-!
# Lists of results

Each element of a list has a result, or none. The results are those of the list if no element is
without one. What is read off pairs of an element and its result is stated for whole lists.
-/

namespace Wordlang

variable {α β γ δ : Type} {f : α → Option β} {a : α} {as : List α} {b : β} {bs : List β}

theorem mapM_cons_some (ha : f a = some b) (has : as.mapM f = some bs) :
    (a :: as).mapM f = some (b :: bs) := by
  rw [List.mapM_cons, ha, has]
  rfl

theorem mapM_cons_eq_some :
    (a :: as).mapM f = some bs ↔ ∃ c cs, f a = some c ∧ as.mapM f = some cs ∧ c :: cs = bs := by
  simp only [List.mapM_cons, Option.bind_eq_bind, Option.bind_eq_some_iff, Option.pure_def,
    Option.some.injEq]
  constructor
  · rintro ⟨c, hc, cs, hcs, hbs⟩
    exact ⟨c, cs, hc, hcs, hbs⟩
  · rintro ⟨c, cs, hc, hcs, hbs⟩
    exact ⟨c, hc, cs, hcs, hbs⟩

/-- Each element has its result at its place. -/
theorem getElem?_of_mapM (h : as.mapM f = some bs) :
    bs.length = as.length ∧ ∀ i : Nat, bs[i]? = as[i]?.bind f := by
  induction as generalizing bs with
  | nil =>
    cases h
    exact ⟨rfl, fun _ => rfl⟩
  | cons a as ih =>
    obtain ⟨b, cs, hb, hcs, rfl⟩ := mapM_cons_eq_some.1 h
    obtain ⟨hlength, hget⟩ := ih hcs
    refine ⟨congrArg (· + 1) hlength, fun i => ?_⟩
    cases i with
    | zero => exact hb.symm
    | succ i => exact hget i

/-- No element of a list that has results is without one. -/
theorem exists_of_mapM (h : as.mapM f = some bs) : ∀ a ∈ as, ∃ b, f a = some b := by
  induction as generalizing bs with
  | nil => simp
  | cons a as ih =>
    obtain ⟨b, cs, hb, hcs, -⟩ := mapM_cons_eq_some.1 h
    exact List.forall_mem_cons.2 ⟨⟨b, hb⟩, ih hcs⟩

theorem mapM_map_congr {g : α → γ} {r : γ → Option β} (h : ∀ a ∈ as, r (g a) = f a) :
    (as.map g).mapM r = as.mapM f := by
  induction as with
  | nil => rfl
  | cons a as ih =>
    obtain ⟨ha, has⟩ := List.forall_mem_cons.1 h
    rw [List.map_cons, List.mapM_cons, List.mapM_cons, ha, ih has]

theorem mapM_map_eq {g : α → γ} {r : γ → Option β} {k : α → β}
    (h : ∀ a ∈ as, r (g a) = some (k a)) : (as.map g).mapM r = some (as.map k) :=
  (mapM_map_congr h).trans List.mapM_pure

theorem mapM_map_some (f : α → Option β) (k : β → γ) (as : List α) :
    (as.mapM fun a => (f a).map k) = (as.mapM f).map (List.map k) := by
  induction as with
  | nil => rfl
  | cons a as ih =>
    rw [List.mapM_cons, List.mapM_cons, ih]
    cases f a with
    | none => rfl
    | some b => cases as.mapM f <;> rfl

/-- Where every element has a result of the form `g b`, the results are those of a list, whose
elements have the keys of the elements. -/
theorem mapM_eq_some {g : γ → β} {key : α → δ} {key' : γ → δ} {P : γ → Prop}
    (h : ∀ a ∈ as, ∃ c, f a = some (g c) ∧ key' c = key a ∧ P c) :
    ∃ cs : List γ, as.mapM f = some (cs.map g) ∧ cs.map key' = as.map key ∧ ∀ c ∈ cs, P c := by
  induction as with
  | nil => exact ⟨[], rfl, rfl, by simp⟩
  | cons a as ih =>
    obtain ⟨ha, has⟩ := List.forall_mem_cons.1 h
    obtain ⟨c, hc, hkey, hp⟩ := ha
    obtain ⟨cs, hcs, hkeys, hall⟩ := ih has
    refine ⟨c :: cs, mapM_cons_some hc hcs, ?_, List.forall_mem_cons.2 ⟨hp, hall⟩⟩
    rw [List.map_cons, List.map_cons, hkey, hkeys]

theorem exists_mapM {g : γ → β} (h : ∀ a ∈ as, ∃ c, f a = some (g c)) :
    ∃ cs : List γ, as.mapM f = some (cs.map g) := by
  induction as with
  | nil => exact ⟨[], rfl⟩
  | cons a as ih =>
    obtain ⟨⟨c, hc⟩, has⟩ := List.forall_mem_cons.1 h
    obtain ⟨cs, hcs⟩ := ih has
    exact ⟨c :: cs, mapM_cons_some hc hcs⟩

/-- Where two ways agree on each pair, they agree on the lists. -/
theorem mapM_both {g : γ → β} {h : α → Option δ} {k : γ → Option δ} {cs : List γ}
    (hlists : as.mapM f = some (cs.map g))
    (hpairs : ∀ a ∈ as, ∀ c ∈ cs, f a = some (g c) → ∃ d, h a = some d ∧ k c = some d) :
    ∃ ds, as.mapM h = some ds ∧ cs.mapM k = some ds := by
  induction as generalizing cs with
  | nil =>
    obtain rfl : cs = [] := List.map_eq_nil_iff.1 (Option.some.inj hlists).symm
    exact ⟨[], rfl, rfl⟩
  | cons a as ih =>
    obtain ⟨b, bs, hb, hbs, hcons⟩ := mapM_cons_eq_some.1 hlists
    obtain ⟨c, cs, rfl, rfl, rfl⟩ := List.map_eq_cons_iff.1 hcons.symm
    obtain ⟨d, hd, hd'⟩ := hpairs a List.mem_cons_self c List.mem_cons_self hb
    obtain ⟨ds, hds, hds'⟩ := ih hbs fun a ha c hc =>
      hpairs a (List.mem_cons_of_mem _ ha) c (List.mem_cons_of_mem _ hc)
    exact ⟨d :: ds, mapM_cons_some hd hds, mapM_cons_some hd' hds'⟩

end Wordlang
