import Wordlang.Expr.Outline
import Wordlang.Proofs.Quoted
import Wordlang.Proofs.Shape
import Wordlang.Proofs.Symbols

/-!
# Outlines are unambiguous

The outline of a well-shaped tree is a list of lines, each at a depth, and the tree can be told
from it: the first line of a tree has the depth of the tree and all others are deeper, so a list of
trees ends at the first line that is less deep. Lost are only the positions of the targets of
assignments and of the callees of calls, and what a position that is not known is.
-/

namespace Wordlang

/-! ## Texts with a separator -/

/-- Where a character stands for the first time, a text is split in one way only. -/
theorem split_unique {x : Char} {as bs cs ds : List Char} (has : x ∉ as) (hbs : x ∉ bs)
    (h : as ++ x :: cs = bs ++ x :: ds) : as = bs ∧ cs = ds := by
  induction as generalizing bs with
  | nil =>
    cases bs with
    | nil => exact ⟨rfl, (List.cons.inj h).2⟩
    | cons b bs =>
      obtain ⟨rfl, -⟩ := List.cons.inj h
      exact absurd List.mem_cons_self hbs
  | cons a as ih =>
    cases bs with
    | nil =>
      obtain ⟨rfl, -⟩ := List.cons.inj h
      exact absurd List.mem_cons_self has
    | cons b bs =>
      obtain ⟨rfl, hrest⟩ := List.cons.inj h
      obtain ⟨rfl, rfl⟩ := ih (mt (List.mem_cons_of_mem _) has) (mt (List.mem_cons_of_mem _) hbs)
        hrest
      exact ⟨rfl, rfl⟩

/-- The same for texts. -/
theorem split_text_unique {x : Char} {s t u v : String} (hs : x ∉ s.toList) (ht : x ∉ t.toList)
    (h : s ++ String.singleton x ++ u = t ++ String.singleton x ++ v) : s = t ∧ u = v := by
  have hchars := congrArg String.toList h
  simp only [String.toList_append, String.toList_singleton, List.append_assoc,
    List.singleton_append] at hchars
  obtain ⟨hst, huv⟩ := split_unique hs ht hchars
  exact ⟨String.toList_inj.1 hst, String.toList_inj.1 huv⟩

/-- How often a text starts with a character is told from the first other one. -/
theorem replicate_append_inj {x : Char} {m n : Nat} {as bs : List Char} (has : as.head? ≠ some x)
    (hbs : bs.head? ≠ some x) (h : List.replicate m x ++ as = List.replicate n x ++ bs) :
    m = n ∧ as = bs := by
  induction m generalizing n with
  | zero =>
    cases n with
    | zero => exact ⟨rfl, h⟩
    | succ n =>
      rw [List.replicate_zero, List.nil_append] at h
      rw [h] at has
      exact absurd rfl has
  | succ m ih =>
    cases n with
    | zero =>
      rw [List.replicate_zero, List.nil_append] at h
      rw [← h] at hbs
      exact absurd rfl hbs
    | succ n =>
      obtain ⟨rfl, rfl⟩ := ih (List.cons.inj h).2
      exact ⟨rfl, rfl⟩

/-! ## Positions -/

/-- What is shown of a position: all of it, if it is known. -/
def Position.shown (p : Position) : Position := if p.isKnown then p else {}

theorem notMem_natText {c : Char} (hc : c.isDigit = false) (n : Nat) : c ∉ (toString n).toList := by
  rw [Nat.toString_eq_repr, Nat.toList_repr]
  intro h
  rw [Nat.isDigit_of_mem_toDigits (by decide) (by decide) h] at hc
  cases hc

theorem natText_inj {m n : Nat} (h : (toString m).toList = (toString n).toList) : m = n :=
  IR.Module.repr_injective (String.toList_inj.1 h)

namespace Position

variable {p q : Position}

theorem toList_text (h : p.isKnown = true) : p.text.toList =
    (if p.file = "" then "" else p.file ++ ":").toList ++
      ((toString p.line.toNat).toList ++ ':' :: (toString p.column.toNat).toList) := by
  rw [text, if_pos h]
  simp only [String.toList_append, List.append_assoc]
  rfl

theorem text_of_unknown (h : p.isKnown = false) : p.text = "-" := by
  rw [text, h]
  rfl

/-- A known position is not written like one that is not known. -/
theorem text_ne (h : p.isKnown = true) : p.text ≠ "-" := by
  intro htext
  have hcolon : ':' ∈ p.text.toList := by
    rw [toList_text h]
    simp
  rw [htext] at hcolon
  exact absurd hcolon (by decide)

/-- A position in a file that is known to the reader can be told from what is written of it. -/
theorem shown_of_text (hfile : p.file = q.file) (h : p.text = q.text) : p.shown = q.shown := by
  unfold shown
  cases hp : p.isKnown with
  | false =>
    cases hq : q.isKnown with
    | false => rfl
    | true =>
      rw [text_of_unknown hp] at h
      exact absurd h.symm (text_ne hq)
  | true =>
    cases hq : q.isKnown with
    | false =>
      rw [text_of_unknown hq] at h
      exact absurd h (text_ne hp)
    | true =>
      have hchars := congrArg String.toList h
      rw [toList_text hp, toList_text hq, hfile, List.append_cancel_left_eq] at hchars
      obtain ⟨hline, hcolumn⟩ := split_unique (notMem_natText rfl _) (notMem_natText rfl _) hchars
      obtain ⟨file, line, column⟩ := p
      obtain ⟨file', line', column'⟩ := q
      obtain rfl : line = line' := UInt32.toNat.inj (natText_inj hline)
      obtain rfl : column = column' := UInt32.toNat.inj (natText_inj hcolumn)
      obtain rfl : file = file' := hfile
      rfl

theorem text_shown (p : Position) : p.shown.text = p.text := by
  unfold shown
  cases hp : p.isKnown with
  | true => rfl
  | false =>
    rw [text_of_unknown hp]
    rfl

theorem isKnown_shown (p : Position) : p.shown.isKnown = p.isKnown := by
  unfold shown
  cases hp : p.isKnown with
  | true => exact hp
  | false => rfl

theorem lineFeed_notMem_text (hfile : '\n' ∉ p.file.toList) : '\n' ∉ p.text.toList := by
  cases hp : p.isKnown with
  | true =>
    have hfront : '\n' ∉ (if p.file = "" then "" else p.file ++ ":").toList := by
      split
      · exact List.not_mem_nil
      · simpa using hfile
    rw [toList_text hp]
    simp only [List.mem_append, List.mem_cons, not_or]
    exact ⟨hfront, notMem_natText rfl _, by decide, notMem_natText rfl _⟩
  | false =>
    rw [text_of_unknown hp]
    decide

end Position

namespace Expr

mutual

/-- The tree without the positions of the targets of assignments and of callees. The others are
changed by `f`. -/
def unlabelled (f : Position → Position) : Expr → Expr
  | absent => absent
  | int p v => int (f p) v
  | name id => name ⟨f id.pos, id.name⟩
  | string p s => string (f p) s
  | assign p target value => assign (f p) target.erase (unlabelled f value)
  | call p callee args => call (f p) callee.erase (unlabelledAll f args)
  | function p params body => function (f p) (unlabelledAll f params) (unlabelledAll f body)
  | infixTail p op rhs => infixTail (f p) op.erase (unlabelled f rhs)
  | empty p => empty (f p)

/-- The same for a list of trees. -/
def unlabelledAll (f : Position → Position) : List Expr → List Expr
  | [] => []
  | e :: es => unlabelled f e :: unlabelledAll f es

end

mutual

/-- The positions in a tree, those of the targets of assignments and of callees apart. -/
def positions : Expr → List Position
  | absent => []
  | int p _ => [p]
  | name id => [id.pos]
  | string p _ => [p]
  | assign p _ value => p :: positions value
  | call p _ args => p :: positionsAll args
  | function p params body => p :: (positionsAll params ++ positionsAll body)
  | infixTail p _ rhs => p :: positions rhs
  | empty p => [p]

/-- The same for a list of trees. -/
def positionsAll : List Expr → List Position
  | [] => []
  | e :: es => positions e ++ positionsAll es

end

/-! ## Lines -/

/-- What the first line of an outline says behind the kind of the tree. -/
def details : Expr → String
  | int p v => toString v.toInt ++ " " ++ p.text
  | name id => Text.quote id.name ++ " " ++ id.pos.text
  | string p s => Text.quote s ++ " " ++ p.text
  | e => e.pos.text

/-- The first line of an outline. -/
def heading : Expr → String
  | absent => "<nil>"
  | e => e.kind ++ " " ++ e.details

/-- The lines of a labelled part at the given depth, of which those of its content are given. -/
def partLines (depth : Nat) (label : String) : List (Nat × String) → List (Nat × String)
  | [] => [(depth, label ++ ": (none)")]
  | ls => (depth, label ++ ":") :: ls

mutual

/-- The lines of an outline behind the first one, which stands at the given depth. -/
def linesBelow (depth : Nat) : Expr → List (Nat × String)
  | assign _ target value =>
    (depth + 1, "Name: " ++ target.name) :: (depth + 1, "Value:") ::
      (depth + 2, value.heading) :: linesBelow (depth + 2) value
  | call _ callee args =>
    (depth + 1, "Fun: " ++ callee.name) :: partLines (depth + 1) "Args" (linesAll (depth + 2) args)
  | function _ params body =>
    partLines (depth + 1) "Params" (linesAll (depth + 2) params) ++
      partLines (depth + 1) "Body" (linesAll (depth + 2) body)
  | infixTail _ op rhs =>
    (depth + 1, "Op: " ++ op.name) :: (depth + 1, "Y:") ::
      (depth + 2, rhs.heading) :: linesBelow (depth + 2) rhs
  | _ => []

/-- The lines of the outlines of trees, one after the other. -/
def linesAll (depth : Nat) : List Expr → List (Nat × String)
  | [] => []
  | e :: es => (depth, e.heading) :: (linesBelow depth e ++ linesAll depth es)

end

/-- The characters of lines. -/
def chars (ls : List (Nat × String)) : List Char := ls.flatMap fun l => (outlineLine l.1 l.2).toList

@[simp] theorem chars_nil : chars [] = [] := rfl

@[simp] theorem chars_cons (l : Nat × String) (ls : List (Nat × String)) :
    chars (l :: ls) = (outlineLine l.1 l.2).toList ++ chars ls := rfl

@[simp] theorem chars_append (ls ls' : List (Nat × String)) :
    chars (ls ++ ls') = chars ls ++ chars ls' := List.flatMap_append

/-- A labelled part consists of its lines, if its content does. -/
theorem chars_partLines {d : Nat} {es : List Expr}
    (h : (outlineAllAt d es).toList = chars (linesAll d es)) (depth : Nat)
    {label hollow filled : String} (hhollow : label ++ ": (none)" = hollow)
    (hfilled : label ++ ":" = filled) :
    (if es.isEmpty then outlineLine depth hollow
      else outlineLine depth filled ++ outlineAllAt d es).toList =
      chars (partLines depth label (linesAll d es)) := by
  subst hhollow hfilled
  cases es with
  | nil => simp [linesAll, partLines]
  | cons e es =>
    rw [List.isEmpty_cons, if_neg Bool.false_ne_true, String.toList_append, h]
    rfl

theorem heading_of_word {word spaced s t : String} (h : word ++ " " = spaced) :
    word ++ " " ++ (s ++ " " ++ t) = spaced ++ s ++ " " ++ t := by
  rw [h, String.append_assoc, String.append_assoc, String.append_assoc]

theorem heading_int (p : Position) (v : Int32) :
    heading (int p v) = "Integer " ++ toString v.toInt ++ " " ++ p.text :=
  heading_of_word (show "Integer" ++ " " = "Integer " by decide)

theorem heading_name (id : Ident) :
    heading (name id) = "Identifier " ++ Text.quote id.name ++ " " ++ id.pos.text :=
  heading_of_word (show "Identifier" ++ " " = "Identifier " by decide)

theorem heading_string (p : Position) (s : String) :
    heading (string p s) = "StringLiteral " ++ Text.quote s ++ " " ++ p.text :=
  heading_of_word (show "StringLiteral" ++ " " = "StringLiteral " by decide)

mutual

/-- An outline consists of its lines. -/
theorem toList_outlineAt : ∀ (e : Expr) (depth : Nat),
    (outlineAt depth e).toList = chars ((depth, e.heading) :: linesBelow depth e)
  | absent, depth => by
    rw [outlineAt, linesBelow, chars_cons, chars_nil, List.append_nil, heading]
    all_goals simp
  | int p v, depth => by
    rw [outlineAt, linesBelow, chars_cons, chars_nil, List.append_nil, heading_int]
    all_goals simp
  | name id, depth => by
    rw [outlineAt, linesBelow, chars_cons, chars_nil, List.append_nil, heading_name]
    all_goals simp
  | string p s, depth => by
    rw [outlineAt, linesBelow, chars_cons, chars_nil, List.append_nil, heading_string]
    all_goals simp
  | assign p target value, depth => by
    have hword : "Assignment" ++ " " = "Assignment " := by decide
    simp only [outlineAt, linesBelow, chars_cons, String.toList_append, List.append_assoc,
      toList_outlineAt value]
    rw [← hword]
    rfl
  | call p callee args, depth => by
    have hword : "Call" ++ " " = "Call " := by decide
    have hpart := chars_partLines (toList_outlineAllAt args (depth + 2)) (depth + 1)
      (show "Args" ++ ": (none)" = "Args: (none)" by decide)
      (show "Args" ++ ":" = "Args:" by decide)
    rw [outlineAt, String.toList_append, hpart, linesBelow, chars_cons, chars_cons,
      String.toList_append, ← hword, List.append_assoc]
    rfl
  | function p params body, depth => by
    have hword : "Function" ++ " " = "Function " := by decide
    have hparams := chars_partLines (toList_outlineAllAt params (depth + 2)) (depth + 1)
      (show "Params" ++ ": (none)" = "Params: (none)" by decide)
      (show "Params" ++ ":" = "Params:" by decide)
    have hbody := chars_partLines (toList_outlineAllAt body (depth + 2)) (depth + 1)
      (show "Body" ++ ": (none)" = "Body: (none)" by decide)
      (show "Body" ++ ":" = "Body:" by decide)
    rw [outlineAt, String.toList_append, String.toList_append, hparams, hbody, linesBelow,
      chars_cons, chars_append, ← hword, List.append_assoc]
    rfl
  | infixTail p op rhs, depth => by
    have hword : "Partial" ++ " " = "Partial " := by decide
    simp only [outlineAt, linesBelow, chars_cons, String.toList_append, List.append_assoc,
      toList_outlineAt rhs]
    rw [← hword]
    rfl
  | empty p, depth => by
    have hword : "Empty" ++ " " = "Empty " := by decide
    rw [outlineAt, linesBelow, chars_cons, chars_nil, List.append_nil, ← hword]
    · rfl
    all_goals simp

theorem toList_outlineAllAt : ∀ (es : List Expr) (depth : Nat),
    (outlineAllAt depth es).toList = chars (linesAll depth es)
  | [], depth => rfl
  | e :: es, depth => by
    rw [outlineAllAt, String.toList_append, toList_outlineAt e, toList_outlineAllAt es, linesAll,
      ← chars_append, List.cons_append]

end

/-! ## Lines are told from characters -/

/-- The text can stand on a line: it has no line break, and it does not start with a space. -/
structure IsLine (text : String) : Prop where
  unbroken : '\n' ∉ text.toList
  flush : text.toList.head? ≠ some ' '

/-- A line and what follows it: spaces, the text, and a line break. -/
theorem outlineLine_append (depth : Nat) (text : String) (rest : List Char) :
    (outlineLine depth text).toList ++ rest =
      (List.replicate (2 * depth) ' ' ++ text.toList) ++ '\n' :: rest := by
  simp [outlineLine]

theorem outlineLine_ne_nil (depth : Nat) (text : String) :
    (outlineLine depth text).toList ≠ [] := by
  simp [outlineLine]

/-- Lines are told from their characters: each ends at the first line break, and the spaces in front
of its text are its depth. -/
theorem chars_inj {ls ls' : List (Nat × String)} (hls : ∀ l ∈ ls, IsLine l.2)
    (hls' : ∀ l ∈ ls', IsLine l.2) (h : chars ls = chars ls') : ls = ls' := by
  have hunbroken : ∀ (depth : Nat) {text : String}, IsLine text →
      '\n' ∉ List.replicate (2 * depth) ' ' ++ text.toList := by
    intro depth text htext
    simp only [List.mem_append, List.mem_replicate, not_or]
    exact ⟨fun hspace => absurd hspace.2 (by decide), htext.unbroken⟩
  induction ls generalizing ls' with
  | nil =>
    cases ls' with
    | nil => rfl
    | cons l' ls' => exact absurd (List.append_eq_nil_iff.1 h.symm).1 (outlineLine_ne_nil _ _)
  | cons l ls ih =>
    obtain ⟨depth, text⟩ := l
    cases ls' with
    | nil => exact absurd (List.append_eq_nil_iff.1 h).1 (outlineLine_ne_nil _ _)
    | cons l' ls' =>
      obtain ⟨depth', text'⟩ := l'
      obtain ⟨htext, htail⟩ := List.forall_mem_cons.1 hls
      obtain ⟨htext', htail'⟩ := List.forall_mem_cons.1 hls'
      rw [chars_cons, chars_cons, outlineLine_append, outlineLine_append] at h
      obtain ⟨hfirst, hrest⟩ := split_unique (hunbroken depth htext) (hunbroken depth' htext') h
      obtain ⟨hdepth, hsame⟩ := replicate_append_inj htext.flush htext'.flush hfirst
      obtain rfl : depth = depth' := by omega
      obtain rfl : text = text' := String.toList_inj.1 hsame
      rw [ih htail htail' hrest]

/-! ## Trees are told from lines -/

/-- The tree is well-shaped, and the positions in it that are shown are in the given file. -/
structure Readable (file : String) (e : Expr) : Prop where
  shaped : e.Shaped
  placed : ∀ p ∈ e.positions, p.file = file

/-- Each of the trees is readable. -/
def ReadableAll (file : String) (es : List Expr) : Prop := ∀ e ∈ es, Readable file e

theorem mem_positionsAll {q : Position} {es : List Expr} :
    q ∈ positionsAll es ↔ ∃ e ∈ es, q ∈ positions e := by
  induction es with
  | nil => simp [positionsAll]
  | cons e es ih => simp [positionsAll, ih]

section Readable

variable {file : String} {p : Position} {id : Ident} {v e : Expr} {ps es : List Expr}

theorem readableAll_iff :
    ReadableAll file es ↔ ShapedAll es ∧ ∀ p ∈ positionsAll es, p.file = file := by
  rw [shapedAll_iff]
  constructor
  · intro h
    refine ⟨fun e he => (h e he).shaped, fun p hp => ?_⟩
    obtain ⟨e, he, hp⟩ := mem_positionsAll.1 hp
    exact (h e he).placed p hp
  · rintro ⟨hshaped, hplaced⟩ e he
    exact ⟨hshaped e he, fun p hp => hplaced p (mem_positionsAll.2 ⟨e, he, hp⟩)⟩

theorem Readable.assigned (h : Readable file (assign p id v)) : Readable file v :=
  ⟨h.shaped.2, fun q hq => h.placed q (List.mem_cons_of_mem _ hq)⟩

theorem Readable.args (h : Readable file (call p id es)) : ReadableAll file es :=
  readableAll_iff.2 ⟨h.shaped.2, fun q hq => h.placed q (List.mem_cons_of_mem _ hq)⟩

theorem Readable.params (h : Readable file (function p ps es)) : ReadableAll file ps := by
  intro e he
  refine ⟨(h.shaped.1 e he).shaped, fun q hq => h.placed q ?_⟩
  exact List.mem_cons_of_mem _ (List.mem_append_left _ (mem_positionsAll.2 ⟨e, he, hq⟩))

theorem Readable.body (h : Readable file (function p ps es)) : ReadableAll file es :=
  readableAll_iff.2
    ⟨h.shaped.2, fun q hq => h.placed q (List.mem_cons_of_mem _ (List.mem_append_right _ hq))⟩

theorem Readable.pos_file (h : Readable file e) : e.pos.file = file := by
  refine h.placed _ ?_
  cases e with
  | absent => exact h.shaped.elim
  | _ => simp [positions, Expr.pos]

end Readable

/-- The trees have the same kind and, apart from their parts, show the same. -/
def SameHeading : Expr → Expr → Prop
  | int p v, int q w => p.shown = q.shown ∧ v = w
  | name id, name id' => id.pos.shown = id'.pos.shown ∧ id.name = id'.name
  | string p s, string q t => p.shown = q.shown ∧ s = t
  | assign p _ _, assign q _ _ => p.shown = q.shown
  | call p _ _, call q _ _ => p.shown = q.shown
  | function p _ _, function q _ _ => p.shown = q.shown
  | _, _ => False

theorem heading_eq {e : Expr} (h : e.Shaped) :
    e.heading = e.kind ++ String.singleton ' ' ++ e.details := by
  cases e with
  | absent => exact h.elim
  | _ => rfl

/-- An integer literal is written with digits only. -/
theorem toString_toInt {v : Int32} (h : 0 ≤ v.toInt) :
    toString v.toInt = toString v.toInt.toNat := by
  obtain ⟨n, hn⟩ := Int.eq_ofNat_of_zero_le h
  rw [hn]
  rfl

/-- Behind equal kinds, what a heading says is told from its text. -/
theorem sameHeading_of_details {file : String} {e e' : Expr} (h : Readable file e)
    (h' : Readable file e') (hkind : e.kind = e'.kind) (hdetails : e.details = e'.details) :
    SameHeading e e' := by
  have hfile : e.pos.file = e'.pos.file := h.pos_file.trans h'.pos_file.symm
  have hquoted : ∀ {s t u v : String},
      Text.quote s ++ " " ++ u = Text.quote t ++ " " ++ v → s = t ∧ u = v := by
    intro s t u v heq
    rw [String.append_assoc, String.append_assoc] at heq
    obtain ⟨hst, huv⟩ := Text.quote_append_inj heq
    exact ⟨hst, (String.append_right_inj " ").1 huv⟩
  have hshaped := h.shaped
  have hshaped' := h'.shaped
  cases e with
  | absent => exact hshaped.elim
  | infixTail => exact hshaped.elim
  | empty => exact hshaped.elim
  | int p v =>
    cases e' with
    | int q w =>
      rw [details, details, toString_toInt hshaped.1, toString_toInt hshaped'.1] at hdetails
      obtain ⟨hnat, htext⟩ := split_text_unique (x := ' ') (notMem_natText rfl _)
        (notMem_natText rfl _) hdetails
      have hvalue : v.toInt.toNat = w.toInt.toNat := natText_inj (congrArg String.toList hnat)
      refine ⟨Position.shown_of_text hfile htext, Int32.toInt_inj.1 ?_⟩
      have hv := hshaped.1
      have hw := hshaped'.1
      omega
    | _ => simp [kind] at hkind
  | name id =>
    cases e' with
    | name id' =>
      obtain ⟨hname, htext⟩ := hquoted hdetails
      exact ⟨Position.shown_of_text hfile htext, hname⟩
    | _ => simp [kind] at hkind
  | string p s =>
    cases e' with
    | string q t =>
      obtain ⟨hcontent, htext⟩ := hquoted hdetails
      exact ⟨Position.shown_of_text hfile htext, hcontent⟩
    | _ => simp [kind] at hkind
  | assign p target v =>
    cases e' with
    | assign => exact Position.shown_of_text hfile hdetails
    | _ => simp [kind] at hkind
  | call p callee args =>
    cases e' with
    | call => exact Position.shown_of_text hfile hdetails
    | _ => simp [kind] at hkind
  | function p params body =>
    cases e' with
    | function => exact Position.shown_of_text hfile hdetails
    | _ => simp [kind] at hkind

/-- The kind of a tree and what its heading says behind it are told from the heading. -/
theorem heading_inj {file : String} {e e' : Expr} (h : Readable file e) (h' : Readable file e')
    (heq : e.heading = e'.heading) : SameHeading e e' := by
  have hkinds : ∀ e : Expr, ' ' ∉ e.kind.toList := by
    intro e
    cases e <;> simp [kind]
  rw [heading_eq h.shaped, heading_eq h'.shaped] at heq
  obtain ⟨hkind, hdetails⟩ := split_text_unique (hkinds e) (hkinds e') heq
  exact sameHeading_of_details h h' hkind hdetails

/-- The first of the lines, if there is one, is less deep. -/
def Below (depth : Nat) (ls : List (Nat × String)) : Prop := ∀ l ∈ ls.head?, l.1 < depth

theorem Below.mono {m n : Nat} {ls : List (Nat × String)} (h : Below m ls) (hmn : m ≤ n) :
    Below n ls :=
  fun l hl => Nat.lt_of_lt_of_le (h l hl) hmn

theorem below_partLines (depth : Nat) (label : String) (ls rest : List (Nat × String)) :
    Below (depth + 1) (partLines depth label ls ++ rest) := by
  intro l hl
  cases ls <;>
    · obtain rfl := Option.some.inj hl
      exact Nat.lt_succ_self _

/-- The trees end before the first line that is less deep. -/
theorem below_linesAll {depth : Nat} {es : List Expr} {rest : List (Nat × String)}
    (h : Below (depth + 1) rest) : Below (depth + 1) (linesAll depth es ++ rest) := by
  cases es with
  | nil => exact h
  | cons e es =>
    intro l hl
    rw [linesAll] at hl
    obtain rfl := Option.some.inj hl
    exact Nat.lt_succ_self _

/-- An empty part is not written like one that has content. -/
theorem partLines_inj {depth : Nat} {label : String} {ls ls' rest rest' : List (Nat × String)}
    (h : partLines depth label ls ++ rest = partLines depth label ls' ++ rest') :
    ls ++ rest = ls' ++ rest' := by
  have hne : label ++ ": (none)" ≠ label ++ ":" := by simp
  cases ls with
  | nil =>
    cases ls' with
    | nil => exact (List.cons.inj h).2
    | cons => exact absurd (Prod.mk.inj (List.cons.inj h).1).2 hne
  | cons =>
    cases ls' with
    | nil => exact absurd (Prod.mk.inj (List.cons.inj h).1).2.symm hne
    | cons => exact (List.cons.inj h).2

theorem erase_of_label {label : String} {depth : Nat} {id id' : Ident}
    (h : (depth, label ++ id.name) = (depth, label ++ id'.name)) : id.erase = id'.erase := by
  have hname := (String.append_right_inj label).1 (Prod.mk.inj h).2
  rw [Ident.erase, Ident.erase, hname]

mutual

/-- The tree behind a heading is told from the lines below it, and where it ends. -/
theorem linesBelow_inj {file : String} : ∀ (e e' : Expr) {depth : Nat}
    {rest rest' : List (Nat × String)}, Readable file e → Readable file e' → SameHeading e e' →
    Below (depth + 1) rest → Below (depth + 1) rest' →
    linesBelow depth e ++ rest = linesBelow depth e' ++ rest' →
    unlabelled Position.shown e = unlabelled Position.shown e' ∧ rest = rest'
  | int p v, int q w, _, _, _, _, _, ⟨hp, hv⟩, _, _, h => by
    rw [unlabelled, unlabelled, hp, hv]
    exact ⟨rfl, h⟩
  | name id, name id', _, _, _, _, _, ⟨hp, hname⟩, _, _, h => by
    rw [unlabelled, unlabelled, hp, hname]
    exact ⟨rfl, h⟩
  | string p s, string q t, _, _, _, _, _, ⟨hp, hs⟩, _, _, h => by
    rw [unlabelled, unlabelled, hp, hs]
    exact ⟨rfl, h⟩
  | assign p target v, assign q target' w, depth, rest, rest', hr, hr', hp, hb, hb', h => by
    rw [linesBelow, linesBelow] at h
    obtain ⟨htarget, h⟩ := List.cons.inj h
    obtain ⟨hheading, h⟩ := List.cons.inj (List.cons.inj h).2
    have hsame := heading_inj hr.assigned hr'.assigned (Prod.mk.inj hheading).2
    obtain ⟨hvalue, hrest⟩ := linesBelow_inj v w hr.assigned hr'.assigned hsame
      (hb.mono (by omega)) (hb'.mono (by omega)) h
    rw [unlabelled, unlabelled, hp, erase_of_label htarget, hvalue]
    exact ⟨rfl, hrest⟩
  | call p callee args, call q callee' args', depth, rest, rest', hr, hr', hp, hb, hb', h => by
    rw [linesBelow, linesBelow] at h
    obtain ⟨hcallee, h⟩ := List.cons.inj h
    obtain ⟨hargs, hrest⟩ := linesAll_inj args args' hr.args hr'.args (hb.mono (by omega))
      (hb'.mono (by omega)) (partLines_inj h)
    rw [unlabelled, unlabelled, hp, erase_of_label hcallee, hargs]
    exact ⟨rfl, hrest⟩
  | function p params body, function q params' body', depth, rest, rest', hr, hr', hp, hb, hb',
      h => by
    rw [linesBelow, linesBelow, List.append_assoc, List.append_assoc] at h
    -- the label of the body is less deep than the parameters, so they end there
    obtain ⟨hparams, h⟩ := linesAll_inj params params' hr.params hr'.params
      (below_partLines _ _ _ _) (below_partLines _ _ _ _) (partLines_inj h)
    obtain ⟨hbody, hrest⟩ := linesAll_inj body body' hr.body hr'.body (hb.mono (by omega))
      (hb'.mono (by omega)) (partLines_inj h)
    rw [unlabelled, unlabelled, hp, hparams, hbody]
    exact ⟨rfl, hrest⟩

/-- Trees at one depth are told from their lines, up to the first line that is less deep. -/
theorem linesAll_inj {file : String} : ∀ (es es' : List Expr) {depth : Nat}
    {rest rest' : List (Nat × String)}, ReadableAll file es → ReadableAll file es' →
    Below depth rest → Below depth rest' → linesAll depth es ++ rest = linesAll depth es' ++ rest' →
    unlabelledAll Position.shown es = unlabelledAll Position.shown es' ∧ rest = rest'
  | [], [], _, _, _, _, _, _, _, h => ⟨rfl, h⟩
  | [], e' :: es', depth, rest, rest', _, _, hb, _, h => by
    rw [linesAll, linesAll] at h
    have hfirst : (depth, e'.heading) ∈ rest.head? := by
      rw [List.nil_append] at h
      rw [h]
      rfl
    have hdeeper : depth < depth := hb _ hfirst
    exact absurd hdeeper (Nat.lt_irrefl _)
  | e :: es, [], depth, rest, rest', _, _, _, hb', h => by
    rw [linesAll, linesAll] at h
    have hfirst : (depth, e.heading) ∈ rest'.head? := by
      rw [List.nil_append] at h
      rw [← h]
      rfl
    have hdeeper : depth < depth := hb' _ hfirst
    exact absurd hdeeper (Nat.lt_irrefl _)
  | e :: es, e' :: es', depth, rest, rest', hr, hr', hb, hb', h => by
    obtain ⟨he, hes⟩ := List.forall_mem_cons.1 hr
    obtain ⟨he', hes'⟩ := List.forall_mem_cons.1 hr'
    rw [linesAll, linesAll, List.cons_append, List.cons_append, List.append_assoc,
      List.append_assoc] at h
    obtain ⟨hheading, h⟩ := List.cons.inj h
    have hsame := heading_inj he he' (Prod.mk.inj hheading).2
    -- the next tree stands at the depth of this one, above all lines of its parts
    obtain ⟨hfirst, h⟩ := linesBelow_inj e e' he he' hsame
      (below_linesAll (hb.mono (by omega))) (below_linesAll (hb'.mono (by omega))) h
    obtain ⟨hothers, hrest⟩ := linesAll_inj es es' hes hes' hb hb' h
    rw [unlabelledAll, unlabelledAll, hfirst, hothers]
    exact ⟨rfl, hrest⟩

end

/-! ## Outlines of readable trees -/

theorem IsLine.append {s t : String} (hs : IsLine s) (hne : s ≠ "") (ht : '\n' ∉ t.toList) :
    IsLine (s ++ t) := by
  refine ⟨?_, ?_⟩
  · rw [String.toList_append, List.mem_append, not_or]
    exact ⟨hs.unbroken, ht⟩
  · have hflush := hs.flush
    rw [String.toList_append]
    cases hchars : s.toList with
    | nil => exact absurd (String.toList_eq_nil_iff.1 hchars) hne
    | cons c cs => rwa [hchars] at hflush

theorem lineFeed_notMem_name {name : String} (h : IsName name) : '\n' ∉ name.toList := by
  intro hmem
  have hword := h.chars _ hmem
  revert hword
  decide

theorem lineFeed_notMem_details {file : String} (hfile : '\n' ∉ file.toList) {e : Expr}
    (h : Readable file e) : '\n' ∉ e.details.toList := by
  have hpos : '\n' ∉ e.pos.text.toList :=
    Position.lineFeed_notMem_text (by rw [h.pos_file]; exact hfile)
  have hspaced : ∀ {s t : String}, '\n' ∉ s.toList → '\n' ∉ t.toList →
      '\n' ∉ (s ++ " " ++ t).toList := by
    intro s t hs ht
    simp [hs, ht]
  cases e with
  | absent => exact h.shaped.elim
  | int p v =>
    rw [details, toString_toInt h.shaped.1]
    exact hspaced (notMem_natText rfl _) hpos
  | name id => exact hspaced (Text.lineFeed_notMem_quote _) hpos
  | string p s => exact hspaced (Text.lineFeed_notMem_quote _) hpos
  | _ => exact hpos

theorem isLine_heading {file : String} (hfile : '\n' ∉ file.toList) {e : Expr}
    (h : Readable file e) : IsLine e.heading := by
  have hkind : IsLine e.kind ∧ e.kind ≠ "" := by
    cases e <;> exact ⟨⟨by simp [kind], by simp [kind]⟩, by simp [kind]⟩
  rw [heading_eq h.shaped, String.append_assoc]
  refine hkind.1.append hkind.2 ?_
  simp [lineFeed_notMem_details hfile h]

theorem isLine_label {label name : String} (hlabel : IsLine label) (hne : label ≠ "")
    (h : IsName name) : IsLine (label ++ name) := hlabel.append hne (lineFeed_notMem_name h)

theorem isLine_partLines {label : String} (hlabel : IsLine label) (hne : label ≠ "")
    {ls : List (Nat × String)} (hls : ∀ l ∈ ls, IsLine l.2) (depth : Nat) :
    ∀ l ∈ partLines depth label ls, IsLine l.2 := by
  cases ls with
  | nil => exact List.forall_mem_singleton.2 (hlabel.append hne (by decide))
  | cons => exact List.forall_mem_cons.2 ⟨hlabel.append hne (by decide), hls⟩

mutual

theorem isLine_linesBelow {file : String} (hfile : '\n' ∉ file.toList) :
    ∀ (e : Expr) (depth : Nat), Readable file e → ∀ l ∈ linesBelow depth e, IsLine l.2
  | absent, _, _ => by simp [linesBelow]
  | int .., _, _ => by simp [linesBelow]
  | name _, _, _ => by simp [linesBelow]
  | string .., _, _ => by simp [linesBelow]
  | assign p target v, depth, h => by
    have hname : IsLine ("Name: " ++ target.name) :=
      isLine_label ⟨by decide, by decide⟩ (by decide) h.shaped.1
    have hvalue : IsLine "Value:" := ⟨by decide, by decide⟩
    rw [linesBelow]
    exact List.forall_mem_cons.2 ⟨hname, List.forall_mem_cons.2 ⟨hvalue, List.forall_mem_cons.2
      ⟨isLine_heading hfile h.assigned, isLine_linesBelow hfile v _ h.assigned⟩⟩⟩
  | call p callee args, depth, h => by
    have hname : IsLine ("Fun: " ++ callee.name) :=
      isLine_label ⟨by decide, by decide⟩ (by decide) h.shaped.1
    rw [linesBelow]
    exact List.forall_mem_cons.2 ⟨hname, isLine_partLines ⟨by decide, by decide⟩ (by decide)
      (isLine_linesAll hfile args _ h.args) _⟩
  | function p params body, depth, h => by
    rw [linesBelow]
    exact List.forall_mem_append.2
      ⟨isLine_partLines ⟨by decide, by decide⟩ (by decide)
        (isLine_linesAll hfile params _ h.params) _,
      isLine_partLines ⟨by decide, by decide⟩ (by decide) (isLine_linesAll hfile body _ h.body) _⟩
  | infixTail .., _, h => h.shaped.elim
  | empty _, _, _ => by simp [linesBelow]

theorem isLine_linesAll {file : String} (hfile : '\n' ∉ file.toList) :
    ∀ (es : List Expr) (depth : Nat), ReadableAll file es → ∀ l ∈ linesAll depth es, IsLine l.2
  | [], _, _ => by simp [linesAll]
  | e :: es, depth, h => by
    obtain ⟨he, hes⟩ := List.forall_mem_cons.1 h
    rw [linesAll]
    exact List.forall_mem_cons.2 ⟨isLine_heading hfile he, List.forall_mem_append.2
      ⟨isLine_linesBelow hfile e _ he, isLine_linesAll hfile es _ hes⟩⟩

end

theorem unlabelledAll_isEmpty (f : Position → Position) (es : List Expr) :
    (unlabelledAll f es).isEmpty = es.isEmpty := by
  cases es <;> rfl

mutual

/-- The outline does not depend on what it does not show. -/
theorem outlineAt_unlabelled : ∀ (e : Expr) (depth : Nat),
    outlineAt depth (unlabelled Position.shown e) = outlineAt depth e
  | absent, _ => rfl
  | int p v, _ => by
    rw [unlabelled, outlineAt, outlineAt, Position.text_shown]
  | name id, _ => by
    rw [unlabelled, outlineAt, outlineAt, Position.text_shown]
  | string p s, _ => by
    rw [unlabelled, outlineAt, outlineAt, Position.text_shown]
  | assign p target v, _ => by
    rw [unlabelled, outlineAt, outlineAt, Position.text_shown, outlineAt_unlabelled v]
    rfl
  | call p callee args, _ => by
    rw [unlabelled, outlineAt, outlineAt, Position.text_shown, unlabelledAll_isEmpty,
      outlineAllAt_unlabelledAll args]
    rfl
  | function p params body, _ => by
    rw [unlabelled, outlineAt, outlineAt, Position.text_shown, unlabelledAll_isEmpty,
      unlabelledAll_isEmpty, outlineAllAt_unlabelledAll params, outlineAllAt_unlabelledAll body]
  | infixTail p op rhs, _ => by
    rw [unlabelled, outlineAt, outlineAt, Position.text_shown, outlineAt_unlabelled rhs]
    rfl
  | empty p, _ => by
    rw [unlabelled, outlineAt, outlineAt, Position.text_shown]

theorem outlineAllAt_unlabelledAll : ∀ (es : List Expr) (depth : Nat),
    outlineAllAt depth (unlabelledAll Position.shown es) = outlineAllAt depth es
  | [], _ => rfl
  | e :: es, _ => by
    rw [unlabelledAll, outlineAllAt, outlineAllAt, outlineAt_unlabelled e,
      outlineAllAt_unlabelledAll es]

end

mutual

/-- What is left of a tree depends on what becomes of the positions in it only. -/
theorem unlabelled_congr {f g : Position → Position} : ∀ e : Expr,
    (∀ p ∈ e.positions, f p = g p) → unlabelled f e = unlabelled g e
  | absent, _ => rfl
  | int p v, h => by
    rw [unlabelled, unlabelled, h p List.mem_cons_self]
  | name id, h => by
    rw [unlabelled, unlabelled, h id.pos List.mem_cons_self]
  | string p s, h => by
    rw [unlabelled, unlabelled, h p List.mem_cons_self]
  | assign p target v, h => by
    obtain ⟨hp, hv⟩ := List.forall_mem_cons.1 h
    rw [unlabelled, unlabelled, hp, unlabelled_congr v hv]
  | call p callee args, h => by
    obtain ⟨hp, hargs⟩ := List.forall_mem_cons.1 h
    rw [unlabelled, unlabelled, hp, unlabelledAll_congr args hargs]
  | function p params body, h => by
    obtain ⟨hp, hparts⟩ := List.forall_mem_cons.1 h
    obtain ⟨hparams, hbody⟩ := List.forall_mem_append.1 hparts
    rw [unlabelled, unlabelled, hp, unlabelledAll_congr params hparams,
      unlabelledAll_congr body hbody]
  | infixTail p op rhs, h => by
    obtain ⟨hp, hrhs⟩ := List.forall_mem_cons.1 h
    rw [unlabelled, unlabelled, hp, unlabelled_congr rhs hrhs]
  | empty p, h => by
    rw [unlabelled, unlabelled, h p List.mem_cons_self]

theorem unlabelledAll_congr {f g : Position → Position} : ∀ es : List Expr,
    (∀ p ∈ positionsAll es, f p = g p) → unlabelledAll f es = unlabelledAll g es
  | [], _ => rfl
  | e :: es, h => by
    obtain ⟨he, hes⟩ := List.forall_mem_append.1 h
    rw [unlabelledAll, unlabelledAll, unlabelled_congr e he, unlabelledAll_congr es hes]

end

mutual

theorem positions_unlabelled (f : Position → Position) : ∀ e : Expr,
    positions (unlabelled f e) = (positions e).map f
  | absent => rfl
  | int .. => rfl
  | name _ => rfl
  | string .. => rfl
  | assign p _ v => by
    rw [unlabelled, positions, positions, List.map_cons, positions_unlabelled f v]
  | call p _ args => by
    rw [unlabelled, positions, positions, List.map_cons, positionsAll_unlabelledAll f args]
  | function p params body => by
    rw [unlabelled, positions, positions, List.map_cons, List.map_append,
      positionsAll_unlabelledAll f params, positionsAll_unlabelledAll f body]
  | infixTail p _ rhs => by
    rw [unlabelled, positions, positions, List.map_cons, positions_unlabelled f rhs]
  | empty _ => rfl

theorem positionsAll_unlabelledAll (f : Position → Position) : ∀ es : List Expr,
    positionsAll (unlabelledAll f es) = (positionsAll es).map f
  | [] => rfl
  | e :: es => by
    rw [unlabelledAll, positionsAll, positionsAll, List.map_append, positions_unlabelled f e,
      positionsAll_unlabelledAll f es]

end

/-- If all positions of the one are known, trees that show the same have the same positions. -/
theorem unlabelledAll_of_known {es es' : List Expr} (h : ∀ p ∈ positionsAll es, p.isKnown = true)
    (heq : unlabelledAll Position.shown es = unlabelledAll Position.shown es') :
    unlabelledAll id es = unlabelledAll id es' := by
  have hshown : ∀ {es : List Expr}, (∀ p ∈ positionsAll es, p.isKnown = true) →
      unlabelledAll Position.shown es = unlabelledAll id es := fun h =>
    unlabelledAll_congr _ fun p hp => if_pos (h p hp)
  have hpositions := congrArg positionsAll heq
  rw [positionsAll_unlabelledAll, positionsAll_unlabelledAll] at hpositions
  have hknown : ∀ p ∈ positionsAll es', p.isKnown = true := by
    intro p hp
    -- the same is shown at a place of the other trees, where it is known
    have hmem : p.shown ∈ (positionsAll es).map Position.shown := by
      rw [hpositions]
      exact List.mem_map_of_mem hp
    obtain ⟨q, hq, hqp⟩ := List.mem_map.1 hmem
    rw [← Position.isKnown_shown, ← hqp, Position.isKnown_shown]
    exact h q hq
  rw [← hshown h, ← hshown hknown, heq]

/-- The outlines of readable trees are the same only if the trees are, up to what is not shown. -/
theorem outlineAll_eq_iff {file : String} (hfile : '\n' ∉ file.toList) {es es' : List Expr}
    (h : ReadableAll file es) (h' : ReadableAll file es') :
    outlineAll es = outlineAll es' ↔
      unlabelledAll Position.shown es = unlabelledAll Position.shown es' := by
  constructor
  · intro heq
    have hchars := congrArg String.toList heq
    rw [outlineAll, outlineAll, toList_outlineAllAt, toList_outlineAllAt] at hchars
    have hlines := chars_inj (isLine_linesAll hfile es 0 h) (isLine_linesAll hfile es' 0 h') hchars
    have hnone : Below 0 [] := fun l hl => nomatch hl
    refine (linesAll_inj es es' h h' hnone hnone ?_).1
    rw [List.append_nil, List.append_nil, hlines]
  · intro heq
    rw [outlineAll, outlineAll, ← outlineAllAt_unlabelledAll es, heq, outlineAllAt_unlabelledAll]

end Expr

end Wordlang
