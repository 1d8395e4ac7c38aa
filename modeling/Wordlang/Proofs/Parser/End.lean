import Wordlang.Proofs.Parser.Reports
import Wordlang.Proofs.Parser.Runs

/-!
# The parser comes to an end

Before the first error every routine that reads an expression, arguments or a function leaves a
lexeme behind, so that there is less ahead, or records an error; and a list of expressions does so
unless it is empty. Behind the first error there is nothing left to do but to pass over the tasks:
no loop goes round, no lexeme is left behind, and one more is taken at most, by looking behind a
name.
-/

namespace Wordlang.Parser

variable {r : Routine} {ts : List Task} {p q q' : Parser} {as bs : List Act}

/-! ## What is recorded -/

/-- What a run does to a parser, as far as it is told by the record. -/
structure Recorded (p : Parser) (as : List Act) (q : Parser) : Prop where
  stop : q.stop = p.stop
  /-- As many lexemes as are recorded have been taken from the text. -/
  text : q.text = (fun cs => (take p.stop cs).rest)^[as.count .scan] p.text
  /-- Of those taken, each has been left behind or is at hand. -/
  lexemes : p.peeked.toList.length + as.count .scan = as.count .consume + q.peeked.toList.length
  /-- There is an error in the record if the first one was recorded in the run. -/
  error : as.count .error = if p.first = none ∧ q.first.isSome then 1 else 0
  first : p.first.isSome → q.first = p.first
  ahead_le : q.ahead ≤ p.ahead

namespace Recorded

theorem refl (p : Parser) : Recorded p [] p := by
  refine ⟨rfl, rfl, by simp, ?_, fun _ => rfl, Nat.le_refl _⟩
  cases p.first <;> simp

theorem trans (h : Recorded p as q) (h' : Recorded q bs q') : Recorded p (as ++ bs) q' := by
  refine ⟨h'.stop.trans h.stop, ?_, ?_, ?_, ?_, h'.ahead_le.trans h.ahead_le⟩
  · rw [h'.text, h.text, h.stop, List.count_append, Nat.add_comm, Function.iterate_add_apply]
  · have hfirst := h.lexemes
    have hsecond := h'.lexemes
    rw [List.count_append, List.count_append]
    omega
  · have hq := h.first
    have hq' := h'.first
    rw [List.count_append, h.error, h'.error]
    cases hp : p.first with
    | some e => simp [hq (by simp [hp]), hp]
    | none =>
      cases hm : q.first with
      | none => simp
      | some e => simp [hq' (by simp [hm]), hm]
  · intro hp
    have hq := h.first hp
    rw [h'.first (hq ▸ hp), hq]

end Recorded

theorem stop_report (p : Parser) (e : SyntaxError) : (p.report e).stop = p.stop := by
  unfold report
  split <;> rfl

theorem first_report (p : Parser) (e : SyntaxError) : (p.report e).first = p.first.or (some e) := by
  unfold report
  split
  · next h => rw [h]; rfl
  · next h => rw [h]; rfl

theorem stop_reportAll (es : List SyntaxError) (p : Parser) : (es.foldl report p).stop = p.stop := by
  induction es generalizing p with
  | nil => rfl
  | cons e es ih => rw [List.foldl_cons, ih, stop_report]

theorem first_reportAll (es : List SyntaxError) (p : Parser) (h : p.first.isSome) :
    (es.foldl report p).first = p.first := by
  induction es generalizing p with
  | nil => rfl
  | cons e es ih =>
    have hfirst : (p.report e).first = p.first := by
      rw [first_report]
      exact Option.or_of_isSome h
    rw [List.foldl_cons, ih _ (hfirst ▸ h), hfirst]

/-- Taking a lexeme keeps an error that there is. -/
theorem scan_fields (p : Parser) : p.scan.2.stop = p.stop ∧
    p.scan.2.text = (take p.stop p.text).rest ∧ p.scan.2.peeked = p.peeked ∧
      (p.first.isSome → p.scan.2.first = p.first) := by
  let errors := (take p.stop p.text).errors.map LexicalError.toSyntaxError
  let taken : Parser := { p with text := (take p.stop p.text).rest }
  obtain ⟨htext, hpeeked, -⟩ := spares_reportAll errors taken
  exact ⟨stop_reportAll errors taken, htext, hpeeked, first_reportAll errors taken⟩

@[simp] theorem stop_look (p : Parser) (l : Lexeme) : (p.look l).stop = p.stop := by
  unfold look
  split <;> rfl

@[simp] theorem text_look (p : Parser) (l : Lexeme) : (p.look l).text = p.text := by
  unfold look
  split <;> rfl

@[simp] theorem peeked_look (p : Parser) (l : Lexeme) : (p.look l).peeked = p.peeked := by
  unfold look
  split <;> rfl

namespace Move

theorem error_notMem_lexemes (m : Move) (p : Parser) : .error ∉ m.lexemes p := by
  cases m with
  | next =>
    rw [lexemes]
    split
    · simp
    · split <;> simp
  | peek =>
    rw [lexemes]
    split <;> simp
  | report e => simp [lexemes]

/-- What a move does beside recording an error. -/
theorem lexemes_spec (m : Move) (p : Parser) : (m.run p).stop = p.stop ∧
    (m.run p).text = (fun cs => (take p.stop cs).rest)^[(m.lexemes p).count .scan] p.text ∧
    p.peeked.toList.length + (m.lexemes p).count .scan =
      (m.lexemes p).count .consume + (m.run p).peeked.toList.length ∧
    (p.first.isSome → (m.run p).first = p.first) := by
  obtain ⟨hstop, htext, hpeeked, hfirst⟩ := p.scan_fields
  cases m with
  | next =>
    rw [run, Parser.next.eq_def, lexemes]
    cases hp : p.first with
    | some e => simp [atEnd, hp]
    | none =>
      cases hl : p.peeked with
      | some l => simp
      | none => simp [hstop, htext, hpeeked, hl]
  | peek =>
    rw [run, Parser.peek.eq_def, lexemes]
    cases hl : p.peeked with
    | some l => simp [hl]
    | none => simpa [hstop, htext] using hfirst
  | report e =>
    obtain ⟨htext', hpeeked', -⟩ := p.spares_report e
    refine ⟨stop_report p e, htext', ?_, fun h => ?_⟩
    · simp [run, lexemes, hpeeked']
    · rw [run, first_report]
      exact Option.or_of_isSome h

theorem ahead_run_le (m : Move) (p : Parser) : (m.run p).ahead ≤ p.ahead := by
  cases m with
  | next => exact p.ahead_next_le
  | peek => exact p.ahead_peek.1
  | report e => exact (p.spares_report e).ahead_le

theorem recorded (m : Move) (p : Parser) : Recorded p (m.acts p) (m.run p) := by
  obtain ⟨hstop, htext, hlexemes, hfirst⟩ := m.lexemes_spec p
  have hnone : (m.lexemes p).count .error = 0 := List.count_eq_zero.2 (m.error_notMem_lexemes p)
  have hcount : ∀ a, (m.acts p).count a = (m.lexemes p).count a +
      if a = .error ∧ p.first = none ∧ (m.run p).first.isSome then 1 else 0 := by
    intro a
    rw [acts, List.count_append]
    by_cases herror : p.first = none ∧ (m.run p).first.isSome
    · by_cases ha : a = .error
      · simp [herror, ha]
      · simp [herror, ha, Ne.symm ha]
    · rw [if_neg herror, if_neg fun h => herror h.2, List.count_nil]
  refine ⟨hstop, ?_, ?_, ?_, hfirst, m.ahead_run_le p⟩
  · rw [htext, hcount]
    rfl
  · simpa [hcount] using hlexemes
  · rw [hcount, hnone]
    simp

end Move

theorem count_acts_routine (p : Parser) (r : Routine) {a : Act} (ha : a ≠ .round) :
    (r.acts p).count a = 0 := by
  rw [Routine.acts, List.count_eq_zero]
  split
  · simpa using ha
  · simp

/-- To begin a routine does nothing to the parser. -/
theorem recorded_begin (p : Parser) (r : Routine) : Recorded p (r.acts p) p := by
  have hscan := count_acts_routine p r (a := .scan) (by simp)
  have hconsume := count_acts_routine p r (a := .consume) (by simp)
  have herror := count_acts_routine p r (a := .error) (by simp)
  refine ⟨rfl, ?_, ?_, ?_, fun _ => rfl, Nat.le_refl _⟩
  · rw [hscan]
    rfl
  · rw [hscan, hconsume]
    omega
  · rw [herror]
    cases p.first <;> simp

/-- The record of a run is exact. -/
theorem Runs.recorded (h : Runs ts p as q) : Recorded p as q := by
  induction h with
  | done p => exact .refl p
  | @move m ts p q as _ ih => exact (m.recorded p).trans ih
  | @routine r ts p q as _ ih => exact (recorded_begin p r).trans ih

/-! ## Behind the first error -/

/-- Nothing happens, but for one lexeme that may be taken. -/
def Idle (as : List Act) : Prop := as = [] ∨ as = [.scan]

/-- Behind an error, a move takes a lexeme at most, which is then at hand. -/
theorem move_failed (m : Move) (hp : p.first.isSome) :
    m.acts p = [] ∧ (m.run p).peeked = p.peeked ∨
      p.peeked = none ∧ m.acts p = [.scan] ∧ (m.run p).peeked.isSome := by
  have hfirst : p.first ≠ none := Option.isSome_iff_ne_none.1 hp
  have hacts : m.acts p = m.lexemes p := by simp [Move.acts, hfirst]
  obtain ⟨e, he⟩ := Option.isSome_iff_exists.1 hp
  rw [hacts]
  cases m with
  | next => exact .inl ⟨by simp [Move.lexemes, hp], by simp [Move.run, next, he, atEnd]⟩
  | peek =>
    cases hl : p.peeked with
    | some l => exact .inl ⟨by simp [Move.lexemes, hl], by simp [Move.run, peek, hl]⟩
    | none => exact .inr ⟨rfl, by simp [Move.lexemes, hl], by simp [Move.run, peek, hl]⟩
  | report e' => exact .inl ⟨rfl, by simp [Move.run, report, he]⟩

/-- No loop goes round. -/
theorem routine_failed (r : Routine) (hp : p.first.isSome) : r.acts p = [] := by
  have hloop : r.isLoop = true → r.tasks p = [] := by
    intro h
    cases r with
    | argList | names => exact if_pos hp
    | exprs close => exact if_pos (.inl hp)
    | _ => cases h
  exact if_neg fun h => h.2 (hloop h.1)

theorem Runs.failed (h : Runs ts p as q) (hp : p.first.isSome) :
    as = [] ∨ p.peeked = none ∧ as = [.scan] := by
  induction h with
  | done p => exact .inl rfl
  | @move m ts p q as _ ih =>
    have ih := ih ((m.recorded p).first hp ▸ hp)
    rcases move_failed m hp with ⟨hacts, hpeeked⟩ | ⟨hpeeked, hacts, htaken⟩
    · rwa [hacts, List.nil_append, ← hpeeked]
    · -- the lexeme that was taken stays at hand, so that no other is taken
      rcases ih with rfl | ⟨hnone, -⟩
      · exact .inr ⟨hpeeked, by rw [hacts, List.append_nil]⟩
      · rw [hnone] at htaken
        cases htaken
  | @routine r ts p q as _ ih =>
    rw [routine_failed r hp, List.nil_append]
    exact ih hp

theorem Runs.idle (h : Runs ts p as q) (hp : p.first.isSome) : Idle as :=
  (h.failed hp).imp_right And.right

/-- One is taken where a name is at hand although there is an error: the parser looks behind it. -/
theorem looks_behind (hp : p.first.isSome) (hname : p.current.token = .name)
    (hpeeked : p.peeked = none) (h : Runs (.routine .expr :: ts) p as q) : as = [.scan] := by
  have hfirst : p.first ≠ none := Option.isSome_iff_ne_none.1 hp
  have hscan : Move.acts p .peek = [.scan] := by
    simp [Move.acts, Move.lexemes, hpeeked, hfirst]
  have hne : as ≠ [] := by
    cases h with
    | routine h =>
      rw [Routine.tasks, hname] at h
      cases h with
      | move h => simp [hscan]
  exact (h.idle hp).resolve_left hne

/-- What begins with `a` at the end of a list begins behind the front in which there is no `a`. -/
theorem suffix_of_append {α : Type} {a : α} {xs ys after : List α} (ha : a ∉ xs)
    (h : a :: after <:+ xs ++ ys) : a :: after <:+ ys := by
  induction xs with
  | nil => exact h
  | cons x xs ih =>
    obtain ⟨hx, hxs⟩ := not_or.1 (mt List.mem_cons.2 ha)
    rcases List.suffix_cons_iff.1 h with heq | h
    · exact absurd (List.cons.inj heq).1 hx
    · exact ih hxs h

/-- What follows the error in the record of a run. -/
theorem Runs.idle_behind (h : Runs ts p as q) : ∀ after, .error :: after <:+ as → Idle after := by
  induction h with
  | done p => simp
  | @move m ts p q as hrest ih =>
    intro after hafter
    rw [Move.acts, List.append_assoc] at hafter
    have hafter := suffix_of_append (m.error_notMem_lexemes p) hafter
    by_cases herror : p.first = none ∧ (m.run p).first.isSome
    · rw [if_pos herror] at hafter
      rcases List.suffix_cons_iff.1 hafter with heq | hafter
      · obtain rfl := (List.cons.inj heq).2
        exact hrest.idle herror.2
      · exact ih after hafter
    · rw [if_neg herror] at hafter
      exact ih after hafter
  | @routine r ts p q as _ ih =>
    intro after hafter
    have hnone : .error ∉ r.acts p := List.count_eq_zero.1 (count_acts_routine p r (by simp))
    exact ih after (suffix_of_append hnone hafter)

/-! ## Before it -/

/-- A lexeme is left behind and less is ahead, or an error is recorded. -/
def Advances (p : Parser) (as : List Act) (q : Parser) : Prop :=
  .consume ∈ as ∧ q.ahead < p.ahead ∨ .error ∈ as

namespace Advances

/-- To go on from a lexeme is to advance, whatever follows. -/
theorem next (hp : p.first = none) (hcurrent : p.current.token ≠ .eof)
    (h : Runs (.move .next :: ts) p as q) : Advances p as q := by
  cases h with
  | move h =>
    have hnext := p.ahead_next
    rw [weight_of_ne_eof hcurrent] at hnext
    refine .inl ⟨List.mem_append_left _ (List.mem_append_left _ ?_), ?_⟩
    · rw [Move.lexemes, hp, Option.isSome_none, if_neg Bool.false_ne_true]
      split <;> simp
    · exact Nat.lt_of_le_of_lt h.recorded.ahead_le hnext

theorem report {e : SyntaxError} (hp : p.first = none)
    (h : Runs (.move (.report e) :: ts) p as q) : Advances p as q := by
  cases h with
  | move h =>
    have hfirst : ((Move.report e).run p).first.isSome := by
      rw [Move.run, first_report, hp]
      rfl
    refine .inr (List.mem_append_left _ (List.mem_append_right _ ?_))
    rw [if_pos ⟨hp, hfirst⟩]
    exact List.mem_singleton_self _

/-- To look behind the current lexeme may record an error. -/
theorem peek (hp : p.first = none) (h : Runs (.move .peek :: ts) p as q)
    (hrest : ∀ bs, p.peek.2.first = none → Runs ts p.peek.2 bs q → Advances p.peek.2 bs q) :
    Advances p as q := by
  cases h with
  | @move _ _ _ _ as h =>
    cases hfirst : p.peek.2.first with
    | some e =>
      have hsome : (Move.run p .peek).first.isSome := Option.isSome_of_eq_some hfirst
      refine .inr (List.mem_append_left _ (List.mem_append_right _ ?_))
      rw [if_pos ⟨hp, hsome⟩]
      exact List.mem_singleton_self _
    | none =>
      rcases hrest as hfirst h with ⟨hconsume, hlt⟩ | herror
      · exact .inl ⟨List.mem_append_right _ hconsume, Nat.lt_of_lt_of_le hlt p.ahead_peek.1⟩
      · exact .inr (List.mem_append_right _ herror)

theorem routine (h : Runs (.routine r :: ts) p as q)
    (htasks : ∀ bs, Runs (r.tasks p ++ ts) p bs q → Advances p bs q) : Advances p as q := by
  cases h with
  | @routine _ _ _ _ as h =>
    rcases htasks as h with ⟨hconsume, hlt⟩ | herror
    · exact .inl ⟨List.mem_append_right _ hconsume, hlt⟩
    · exact .inr (List.mem_append_right _ herror)

theorem expect {t : Token} (ht : t ≠ .eof) (hp : p.first = none)
    (h : Runs (.routine (.expect t) :: ts) p as q) : Advances p as q := by
  refine routine h fun bs h => ?_
  rw [Routine.tasks] at h
  by_cases hcurrent : p.current.token = t
  · rw [if_pos hcurrent] at h
    exact next hp (hcurrent ▸ ht) h
  · rw [if_neg hcurrent] at h
    exact report hp h

theorem atom (hp : p.first = none) (h : Runs (.routine .atom :: ts) p as q) :
    Advances p as q := by
  refine routine h fun bs h => ?_
  rw [Routine.tasks] at h
  cases hcurrent : p.current.token <;> rw [hcurrent] at h
  case name => exact expect (by simp) hp h
  case int | string => exact next hp (by simp [hcurrent]) h
  all_goals exact report hp h

theorem function (hp : p.first = none) (h : Runs (.routine .function :: ts) p as q) :
    Advances p as q :=
  routine h fun _ h => expect (by simp) hp h

theorem named (hp : p.first = none) (h : Runs (.routine .named :: ts) p as q) :
    Advances p as q := by
  refine routine h fun bs h => ?_
  rw [Routine.tasks] at h
  split at h
  · exact expect (by simp) hp h
  · exact expect (by simp) hp h
  · exact atom hp h

theorem expr (hp : p.first = none) (h : Runs (.routine .expr :: ts) p as q) :
    Advances p as q := by
  refine routine h fun bs h => ?_
  rw [Routine.tasks] at h
  split at h
  · exact peek hp h fun _ hfirst h => named hfirst h
  · exact function hp h
  · exact atom hp h

theorem argList (hp : p.first = none) (h : Runs (.routine .argList :: ts) p as q) :
    Advances p as q := by
  refine routine h fun bs h => ?_
  rw [Routine.tasks, if_neg (by simp [hp])] at h
  exact expr hp h

theorem args (hp : p.first = none) (h : Runs (.routine .args :: ts) p as q) :
    Advances p as q := by
  refine routine h fun bs h => ?_
  rw [Routine.tasks] at h
  split at h
  · next hclose => exact next hp (by simp [hclose]) h
  · exact argList hp h

/-- A list of expressions is empty, or advances with its first. -/
theorem exprs {close : Token} (hp : p.first = none)
    (h : Runs (.routine (.exprs close) :: ts) p as q) :
    Advances p as q ∨ (Parser.exprs close p).value = [] := by
  by_cases hstop : p.first.isSome ∨ p.current.token = close ∨ p.current.token = .eof
  · have hout := out_exprs close p
    rw [if_pos hstop] at hout
    exact .inr (congrArg Prod.fst hout)
  · refine .inl (routine h fun bs h => ?_)
    rw [Routine.tasks, if_neg hstop] at h
    exact expr hp h

end Advances

theorem Leads.eq (h : Leads ts p q) (h' : Runs ts p as q') : q' = q := by
  obtain ⟨bs, h⟩ := h
  exact (h'.unique h).2

/-- Parsing ends, whatever the source.

* However the parser stands and whatever it still has to do, there is one run, and it ends.
* In particular it is parsed with this source, to where the parser at work comes.
* The record of a run is exact, and there is nothing in it behind an error but one lexeme that may be
  taken: no round of a loop, no lexeme that is left behind.
* A routine comes to where the parser at work comes. Without an error before it, it leaves a lexeme
  behind, so that less is ahead, or records an error; only a list of expressions may do neither, and
  is then empty. -/
theorem parsing_ends (s : Source) :
    (∀ ts p, ∃! x : List Act × Parser, Runs ts p x.1 x.2) ∧
    (∃ as, Runs (parsing s) (blank s) as (program (.ofSource s)).2) ∧
    (∀ ts p as q, Runs ts p as q → Recorded p as q ∧ (p.first.isSome → Idle as) ∧
      ∀ after, .error :: after <:+ as → Idle after) ∧
    (∀ p as q, Runs [.routine .expr] p as q →
      q = (expr p).parser ∧ (p.first = none → Advances p as q)) ∧
    (∀ p as q, Runs [.routine .args] p as q →
      q = (args p).parser ∧ (p.first = none → Advances p as q)) ∧
    (∀ p as q, Runs [.routine .function] p as q →
      (∀ h, q = (function p h).parser) ∧ (p.first = none → Advances p as q)) ∧
    ∀ close p as q, Runs [.routine (.exprs close)] p as q →
      q = (exprs close p).parser ∧
        (p.first = none → Advances p as q ∨ (exprs close p).value = []) := by
  refine ⟨existsUnique_run, leads_parsing s, ?_, ?_, ?_, ?_, ?_⟩
  · intro ts p as q h
    exact ⟨h.recorded, h.idle, h.idle_behind⟩
  · intro p as q h
    exact ⟨(leads_expr p).eq h, fun hp => .expr hp h⟩
  · intro p as q h
    exact ⟨(leads_args p).eq h, fun hp => .args hp h⟩
  · intro p as q h
    exact ⟨fun hopen => (leads_function hopen).eq h, fun hp => .function hp h⟩
  · intro close p as q h
    exact ⟨(leads_exprs close p).eq h, fun hp => Advances.exprs hp h⟩

/-- A text with a stray byte in a name, which is reported when the name is taken; the name is still
read, and the parser looks behind it. -/
def cracked : Source :=
  .ofBytes "f" (Text.Utf8.ofString "1 + x" ++ [0xff] ++ Text.Utf8.ofString " y")

theorem cracked_ends :
    ∃ as, Runs (parsing cracked) (blank cracked) as (program (.ofSource cracked)).2 ∧
      as.count .error = 1 ∧ ∀ after, .error :: after <:+ as → Idle after := by
  obtain ⟨-, ⟨as, hrun⟩, hruns, -⟩ := parsing_ends cracked
  obtain ⟨hrecorded, -, hidle⟩ := hruns _ _ _ _ hrun
  obtain ⟨e, hparse⟩ : ∃ e, cracked.parse = .error e := by
    cases hparse : cracked.parse with
    | error e => exact ⟨e, rfl⟩
    | ok es => exact absurd (Source.lexicalErrors_of_parse hparse) (by decide +kernel)
  have hreports := ofSource_reports cracked
  rw [hparse] at hreports
  refine ⟨as, hrun, ?_, hidle⟩
  rw [hrecorded.error, if_pos ⟨rfl, Option.isSome_of_eq_some hreports.2.1⟩]

end Wordlang.Parser
