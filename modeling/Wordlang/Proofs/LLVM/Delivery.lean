import Wordlang.LLVM.Generate
import Wordlang.Proofs.LLVM.Pieces

/-!
# What arrives where writes are refused

The writes that are tried do not depend on which of them are refused, as long as none was, and
nothing else that a generator does depends on it. What arrives is therefore a beginning of what
would arrive at a place that takes everything, and it ends at the first write that is refused.
-/

namespace Wordlang.LLVM

open IR

variable {ε : Type} {w : Writer ε}

/-! ## Writing lines -/

namespace Output

variable {s : Output ε}

theorem malformed_write (s : Output ε) (l : Line) : (s.write w l).malformed = s.malformed := by
  unfold write
  split
  · rfl
  · split <;> rfl

/-- The output with another malformed value. -/
def noting (s : Output ε) (x : Option Malformed) : Output ε := { s with malformed := x }

/-- What has been noted makes no difference for what is written. -/
theorem write_noting (s : Output ε) (x : Option Malformed) (l : Line) :
    write w (s.noting x) l = (s.write w l).noting x := by
  unfold write noting
  by_cases hs : s.refusal.isSome = true
  · rw [if_pos hs, if_pos hs]
  · rw [if_neg hs, if_neg hs]
    cases w (s.tried + 1) <;> rfl

theorem foldl_write_noting (s : Output ε) (x : Option Malformed) (ls : List Line) :
    ls.foldl (write w) (s.noting x) = (ls.foldl (write w) s).noting x := by
  induction ls generalizing s with
  | nil => rfl
  | cons l ls ih => rw [List.foldl_cons, write_noting, ih, List.foldl_cons]

/-- After a refusal, nothing more happens. -/
theorem foldl_write_of_refusal (hs : s.refusal.isSome = true) (ls : List Line) :
    ls.foldl (write w) s = s := by
  induction ls with
  | nil => rfl
  | cons l ls ih =>
    have hwrite : s.write w l = s := by rw [write, if_pos hs]
    rw [List.foldl_cons, hwrite, ih]

/-- Lines arrive one after the other as long as no write is refused. -/
theorem foldl_write_of_taken (ls : List Line) (hs : s.refusal = none)
    (hw : ∀ k, s.tried < k → k ≤ s.tried + ls.length → w k = none) :
    ls.foldl (write w) s =
      { s with lines := s.lines ++ ls, tried := s.tried + ls.length } := by
  induction ls generalizing s with
  | nil => simp
  | cons l ls ih =>
    rw [List.length_cons] at hw
    have hfirst : w (s.tried + 1) = none := hw _ (by omega) (by omega)
    have hwrite : s.write w l = { s with lines := s.lines ++ [l], tried := s.tried + 1 } := by
      simp [write, hs, hfirst]
    have hrest := ih (s := { s with lines := s.lines ++ [l], tried := s.tried + 1 }) hs
      fun k (hk : s.tried + 1 < k) (hle : k ≤ s.tried + 1 + ls.length) => hw k (by omega) (by omega)
    have htried : s.tried + 1 + ls.length = s.tried + (ls.length + 1) := by omega
    rw [List.foldl_cons, hwrite, hrest]
    simp [htried]

/-- At a place that refuses the write with number `n` and none before it, the lines before that one
arrive. -/
theorem foldl_write_of_refused {n : Nat} {e : ε} (hn : 1 ≤ n)
    (hbefore : ∀ k, 1 ≤ k → k < n → w k = none) (hat : w n = some e) (ls : List Line) :
    (ls.foldl (write w) {}).lines = (if n ≤ ls.length then ls.take (n - 1) else ls) ∧
      (ls.foldl (write w) {}).refusal = if n ≤ ls.length then some e else none := by
  by_cases hle : n ≤ ls.length
  · obtain ⟨l, rest, hsplit⟩ : ∃ l rest, ls = ls.take (n - 1) ++ l :: rest := by
      have hlt : n - 1 < ls.length := by omega
      exact ⟨ls[n - 1], ls.drop (n - 1 + 1), by rw [← List.drop_eq_getElem_cons hlt,
        List.take_append_drop]⟩
    have hlength : (ls.take (n - 1)).length = n - 1 := List.length_take_of_le (by omega)
    have htaken := foldl_write_of_taken (w := w) (s := {}) (ls.take (n - 1)) rfl
      (fun k hk hle => hbefore k (by omega) (by rw [hlength] at hle; simp at hle; omega))
    -- the write that is refused, and those that are not tried any more
    have hrefused : ∀ t : List Line, write w { lines := t, tried := n - 1 } l =
        { lines := t, tried := n, refusal := some e } := by
      intro t
      have hnumber : n - 1 + 1 = n := by omega
      simp [write, hnumber, hat]
    have hall : ls.foldl (write w) {} =
        { lines := ls.take (n - 1), tried := n, refusal := some e } := by
      rw [hsplit, List.foldl_append, ← hsplit, htaken, List.foldl_cons, hlength]
      simp only [List.nil_append, Nat.zero_add]
      rw [hrefused, foldl_write_of_refusal rfl]
    rw [hall, if_pos hle, if_pos hle]
    exact ⟨rfl, rfl⟩
  · have htaken := foldl_write_of_taken (w := w) (s := {}) ls rfl
      (fun k hk hle' => hbefore k (by omega) (by simp at hle'; omega))
    rw [htaken, if_neg hle, if_neg hle]
    exact ⟨rfl, rfl⟩

theorem malformed_foldl_write (s : Output ε) (ls : List Line) :
    (ls.foldl (write w) s).malformed = s.malformed := by
  induction ls generalizing s with
  | nil => rfl
  | cons l ls ih => rw [List.foldl_cons, ih, malformed_write]

/-- The output after a piece was written. -/
def feed (w : Writer ε) (s : Output ε) (r : Rendering) : Output ε :=
  (r.lines.foldl (write w) s).noting (s.malformed <|> r.malformed)

theorem feed_ofLines (s : Output ε) (ls : List Line) :
    s.feed w (.ofLines ls) = ls.foldl (write w) s := by
  have hnone : (s.malformed <|> none) = (ls.foldl (write w) s).malformed := by
    rw [malformed_foldl_write]
    cases s.malformed <;> rfl
  show (ls.foldl (write w) s).noting (s.malformed <|> none) = _
  rw [hnone]
  rfl

theorem feed_append (s : Output ε) (a b : Rendering) :
    s.feed w (a ++ b) = (s.feed w a).feed w b := by
  have hassoc : (s.malformed <|> (a.malformed <|> b.malformed)) =
      ((s.malformed <|> a.malformed) <|> b.malformed) := by
    cases s.malformed <;> rfl
  have hlines : b.lines.foldl (write w) (s.feed w a) =
      ((a.lines ++ b.lines).foldl (write w) s).noting (s.malformed <|> a.malformed) := by
    rw [feed, foldl_write_noting, List.foldl_append]
  show ((a.lines ++ b.lines).foldl (write w) s).noting _ =
    (b.lines.foldl (write w) (s.feed w a)).noting _
  rw [hlines]
  exact congrArg _ hassoc

end Output

/-! ## Generators and what they write -/

/-- The generator writes the piece, whatever is refused; there is no outcome where there is none. -/
def Emits (w : Writer ε) (x : Generator ε Unit) (r? : Option Rendering) : Prop :=
  ∀ s, x s = r?.map fun r => ((), s.feed w r)

namespace Emits

variable {x y : Generator ε Unit} {a b : Option Rendering} {α : Type}

theorem skip : Emits w (pure ()) (some {}) := by
  intro s
  show some ((), s) = some ((), s.feed w (.ofLines []))
  rw [Output.feed_ofLines]
  rfl

theorem emit (l : Line) : Emits w (Generator.emit w l) (some (.ofLines [l])) := by
  intro s
  show some ((), s.write w l) = some ((), s.feed w (.ofLines [l]))
  rw [Output.feed_ofLines]
  rfl

theorem note (e : Malformed) : Emits w (Generator.note e) (some ⟨[], some e⟩) := fun _ => rfl

theorem bind (hx : Emits w x a) (hy : Emits w y b) :
    Emits w (do x; y) (a.bind fun r => b.map (r ++ ·)) := by
  intro s
  show (x s).bind (fun p => y p.2) = _
  rw [hx s]
  cases a with
  | none => rfl
  | some r =>
    show y (s.feed w r) = _
    rw [hy]
    cases b with
    | none => rfl
    | some r' => simp [Output.feed_append]

/-- What is needed first is there, or there is no outcome. -/
theorem given {o : Option α} {f : α → Generator ε Unit} {g : α → Option Rendering}
    (h : ∀ c, Emits w (f c) (g c)) :
    Emits w (do let c ← (monadLift o : Generator ε α); f c) (o.bind g) := by
  intro s
  cases o with
  | none => rfl
  | some c => exact h c s

theorem congr (h : Emits w x a) (hab : a = b) : Emits w x b := hab ▸ h

/-- A loop writes one piece for each element. -/
theorem forM {as : List α} {f : α → Generator ε Unit} {g : α → Option Rendering}
    (h : ∀ c ∈ as, Emits w (f c) (g c)) :
    Emits w (as.forM f) ((as.mapM g).map .concat) := by
  induction as with
  | nil => exact skip
  | cons c as ih =>
    obtain ⟨hc, has⟩ := List.forall_mem_cons.1 h
    refine (hc.bind (ih has)).congr ?_
    rw [List.mapM_cons]
    cases g c with
    | none => rfl
    | some r => cases as.mapM g <;> rfl

/-- One line for each element is written one after the other. -/
theorem results (g : α → Option Line) (as : List α) :
    Emits w (as.forM fun a => do Generator.emit w (← g a)) ((as.mapM g).map .ofLines) := by
  have hpiece : ∀ a ∈ as, Emits w (do Generator.emit w (← g a))
      ((g a).map fun l => .ofLines [l]) := by
    intro a _
    refine (given (g := fun l => some (.ofLines [l])) fun l => emit l).congr ?_
    cases g a <;> rfl
  refine (forM hpiece).congr ?_
  rw [mapM_map_some, Option.map_map]
  refine congrArg (Option.map · (as.mapM g)) (funext fun ls => ?_)
  have hpieces : ls.map (fun l => Rendering.ofLines [l]) = (ls.map ([·])).map .ofLines := by
    rw [List.map_map]
    rfl
  show Rendering.concat (ls.map fun l => .ofLines [l]) = .ofLines ls
  rw [hpieces, concat_ofLines, ← List.flatMap_def, List.flatMap_singleton']

theorem lines (ls : List Line) : Emits w (ls.forM (Generator.emit w)) (some (.ofLines ls)) := by
  have hlines : ls.mapM some = some ls := List.mapM_pure.trans (congrArg some ls.map_id)
  exact (results some ls).congr (by rw [hlines]; rfl)

end Emits

/-! ## Modules -/

theorem append_assoc (a b c : Rendering) : (a ++ b) ++ c = a ++ (b ++ c) := by
  have hmalformed : ((a.malformed <|> b.malformed) <|> c.malformed) =
      (a.malformed <|> (b.malformed <|> c.malformed)) := by
    cases a.malformed <;> rfl
  rw [append_eq, append_eq, append_eq, append_eq, List.append_assoc, hmalformed]

section

variable {m : Module} {f : Func}

theorem emits_value (ref : ValueRef) :
    Emits w (Generator.value w m f ref) (do renderValue? m f ref.index (← m.value? ref)) := by
  refine Emits.given fun v => ?_
  refine (Emits.given (g := some) fun piece => ?_).congr (Option.bind_fun_some _)
  have hlines := Emits.lines (w := w) piece.lines
  obtain ⟨lines, malformed⟩ := piece
  cases malformed with
  | none => exact (hlines.bind .skip).congr (by simp [append_eq, Rendering.ofLines])
  | some e => exact (hlines.bind (.note e)).congr (by simp [append_eq, Rendering.ofLines])

theorem emits_block (x : Nat × Block) :
    Emits w (Generator.block w m f x) (renderBlock? m f x.1 x.2) := by
  have hvalues := Emits.forM fun ref (_ : ref ∈ x.2.values) =>
    emits_value (w := w) (m := m) (f := f) ref
  have hend := Emits.given (w := w) (o := renderEnd? m x.2) fun l => .emit l
  refine ((Emits.emit _).bind (hvalues.bind hend)).congr ?_
  rw [renderBlock?]
  generalize List.mapM (m := Option) _ x.2.values = values?
  cases values? with
  | none => rfl
  | some values =>
    cases renderEnd? m x.2 with
    | none => rfl
    | some last => exact congrArg some (append_assoc _ _ _).symm

theorem emits_func : Emits w (Generator.func w m f) (renderFunc? m f) := by
  refine Emits.given fun sig => ?_
  have hblocks := Emits.forM fun x (_ : x ∈ f.bodyBlocks) =>
    emits_block (w := w) (m := m) (f := f) x
  refine ((Emits.emit _).bind ((Emits.emit _).bind (hblocks.bind (.emit _)))).congr ?_
  generalize List.mapM (m := Option) _ f.bodyBlocks = blocks?
  cases blocks? with
  | none => rfl
  | some blocks => exact congrArg some (append_assoc _ _ _).symm

theorem emits_declarations (fs : List Func) :
    Emits w (Generator.declarations w fs)
      ((fs.mapM declare?).map fun declared => .ofLines (group declared)) := by
  have hlines := Emits.results (w := w) declare? fs
  cases fs with
  | nil => exact hlines
  | cons f fs =>
    refine ((Emits.emit _).bind hlines).congr ?_
    cases hdeclared : (f :: fs).mapM declare? with
    | none => rfl
    | some declared =>
      obtain ⟨l, ls, -, -, rfl⟩ := mapM_cons_eq_some.1 hdeclared
      rfl

theorem emits_module : Emits w (Generator.ofModule w m) (render? m) := by
  have hheader := Emits.lines (w := w) (header m)
  have hglobals := Emits.lines (w := w) (group (m.globals.map fun g => .global g.name g.data))
  have hdeclared := emits_declarations (w := w) (m.funcs.filter (·.external))
  have hdefined := Emits.forM fun f (_ : f ∈ m.funcs.filter (!·.external)) =>
    emits_func (w := w) (m := m) (f := f)
  refine (hheader.bind (hglobals.bind (hdeclared.bind hdefined))).congr ?_
  rw [render?]
  cases (m.funcs.filter (·.external)).mapM declare? with
  | none => rfl
  | some declared =>
    cases (m.funcs.filter (!·.external)).mapM (renderFunc? m) with
    | none => rfl
    | some defined =>
      refine congrArg some ?_
      rw [← ofLines_append, ← ofLines_append, append_assoc, append_assoc]

end

/-! ## Outcomes -/

section

variable {m : Module} {n : Nat} {e : ε}

/-- What is written, and what goes wrong, is that of the rendering, fed to the place it is written
to. -/
theorem generate_eq : generate w m = (render? m).map fun r =>
    ((({} : Output ε).feed w r).lines, (({} : Output ε).feed w r).error) := by
  rw [generate, emits_module, Option.map_map]
  rfl

theorem generate_unfailing : generate (.unfailing ε) m =
    (render? m).map fun r => (r.lines, r.malformed.map .malformed) := by
  rw [generate_eq]
  refine congrArg (Option.map · (render? m)) (funext fun r => ?_)
  have htaken := Output.foldl_write_of_taken (w := .unfailing ε) (s := {}) r.lines rfl
    fun _ _ _ => rfl
  rw [Output.feed, htaken]
  simp [Output.noting, Output.error]

theorem generate_refused (hn : 1 ≤ n) (hbefore : ∀ k, 1 ≤ k → k < n → w k = none)
    (hat : w n = some e) : generate w m = (render? m).map fun r =>
      if n ≤ r.lines.length then (r.lines.take (n - 1), some (.refused e))
      else (r.lines, r.malformed.map .malformed) := by
  rw [generate_eq]
  refine congrArg (Option.map · (render? m)) (funext fun r => ?_)
  obtain ⟨hlines, hrefusal⟩ := Output.foldl_write_of_refused hn hbefore hat r.lines
  rw [Output.feed]
  by_cases hle : n ≤ r.lines.length
  · rw [if_pos hle] at hlines hrefusal ⊢
    simp [Output.noting, Output.error, hlines, hrefusal]
  · rw [if_neg hle] at hlines hrefusal ⊢
    simp [Output.noting, Output.error, hlines, hrefusal]

end

/-- A place that refuses the write with number `n` and none before it is left with the writes before
that one, and the error is that of the write, even where the module has a malformed value. Where
there are fewer writes than `n`, nothing differs from a place that takes everything: there, the only
error is the first malformed value in the order of the module. -/
theorem generate_prefix (w : Writer ε) (m : Module) (n : Nat) (e : ε) (hn : 1 ≤ n)
    (hbefore : ∀ k, 1 ≤ k → k < n → w k = none) (hat : w n = some e) :
    (generate w m = (generate (.unfailing ε) m).map fun (ls, error) =>
      if n ≤ ls.length then (ls.take (n - 1), some (.refused e)) else (ls, error)) ∧
    ∀ ls error, generate (.unfailing ε) m = some (ls, error) →
      error = (malformedValues m).head?.map .malformed := by
  constructor
  · rw [generate_refused hn hbefore hat, generate_unfailing, Option.map_map]
    rfl
  · intro ls error h
    rw [generate_unfailing, Option.map_eq_some_iff] at h
    obtain ⟨r, hr, hwritten⟩ := h
    obtain ⟨declared, hpieces⟩ := render_pieces hr
    have herror : error = r.malformed.map .malformed := (congrArg Prod.snd hwritten).symm
    rw [herror, hpieces.malformed]

/-- A module with two values that have no line. -/
def blemished : Module where
  name := "blemished"
  triple := ""
  funcs := [
    { name := "main", sig := some { params := [], result := .i32 }, entry := some ⟨0, 0⟩,
      body := [0], values := [{ op := .call, type := .i32 }, { op := .invalid, type := .void }],
      blocks := [{ kind := .ret, owner := 0, values := [⟨0, 0⟩, ⟨0, 1⟩] }] }]

theorem blemished_prefix :
    (1 ≤ 3 ∧ (∀ k, 1 ≤ k → k < 3 → Writer.failingFrom 3 "disk full" k = none) ∧
      Writer.failingFrom 3 "disk full" 3 = some "disk full") ∧
    (generate (.failingFrom 3 "disk full") blemished =
        (generate (.unfailing String) blemished).map fun (ls, error) =>
          if 3 ≤ ls.length then (ls.take (3 - 1), some (.refused "disk full")) else (ls, error)) ∧
    ∀ ls error, generate (.unfailing String) blemished = some (ls, error) →
      error = (malformedValues blemished).head?.map .malformed := by
  have hbefore : ∀ k, 1 ≤ k → k < 3 → Writer.failingFrom 3 "disk full" k = none := by
    intro k _ hk
    exact if_neg (by omega)
  have hat : Writer.failingFrom 3 "disk full" 3 = some "disk full" := rfl
  exact ⟨⟨by decide, hbefore, hat⟩, generate_prefix _ blemished 3 _ (by decide) hbefore hat⟩

/-- Both kinds of error are there, and the refused write counts. -/
example : generate (.failingFrom 3 "disk full") blemished =
    some ([.moduleComment "blemished", .sourceFile "blemished"], some (.refused "disk full")) ∧
    (generate (.unfailing String) blemished).map (·.2) =
      some (some (.malformed ⟨"main", 0, .noCallee⟩)) := by decide

end Wordlang.LLVM
