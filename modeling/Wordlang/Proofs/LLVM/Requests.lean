import Wordlang.Proofs.Extension
import Wordlang.Proofs.LLVM.Decode
import Wordlang.Proofs.LLVM.Render

/-!
# Requests for symbols

A module is asked for functions and for strings, in any order and with any names. Two searches share
one table of symbols: functions try the numbers after a name, and strings try the numbers after
`.str`. Whatever was asked for before, both searches end, no symbol is handed out twice, and the
symbols stay apart when they are written.

The names asked for are texts. Bytes that are no text are asked for as the text with a character for
each byte (`Bytewise`): the symbols handed out are such texts again, and are written by their bytes.
-/

namespace Wordlang

open IR LLVM LLVM.Reader

/-- Something a module is asked for. -/
inductive Request where
  /-- A function with a body. -/
  | func (name : String) (sig : Signature) (params : List String)
  /-- A function whose body lives elsewhere. -/
  | external (name : String) (sig : Signature) (params : List String)
  /-- A string constant. -/
  | string (data : List UInt8)
  deriving DecidableEq, Repr

namespace Request

/-- The name that is asked for; strings have none. -/
def name? : Request → Option String
  | func name .. => some name
  | external name .. => some name
  | string _ => none

/-- The place of what was asked for, and the module that has it. -/
def serve (m : Module) : Request → Nat × Module
  | func name sig params => m.addFunc name sig params
  | external name sig params => m.addExternal name sig params
  | string data => m.internString data

/-- The places of all that was asked for, in order, and the module that has it. -/
def serveAll (m : Module) : List Request → List Nat × Module
  | [] => ([], m)
  | r :: rs => ((r.serve m).1 :: (serveAll (r.serve m).2 rs).1, (serveAll (r.serve m).2 rs).2)

end Request

/-! ## Searching -/

/-- The search for a free candidate from number `start` on ends with number `i`: that candidate is
free, and all before it are taken. -/
structure SearchEnds (m : Module) (candidate : Nat → String) (start i : Nat) : Prop where
  from_start : start ≤ i
  free : m.isTaken (candidate i) = false
  taken : ∀ j, start ≤ j → j < i → m.isTaken (candidate j) = true

/-- Of distinct candidates, the first free one is found. -/
theorem searchEnds_firstFree (m : Module) {candidate : Nat → String}
    (hinj : Function.Injective candidate) (start : Nat) :
    SearchEnds m candidate start (m.firstFree start candidate) := by
  have hfree := Module.firstFree_notMem hinj start (m := m)
  rw [← Module.isTaken_iff, Bool.not_eq_true] at hfree
  suffices start ≤ m.firstFree start candidate ∧
      ∀ j, start ≤ j → j < m.firstFree start candidate → m.isTaken (candidate j) = true from
    ⟨this.1, hfree, this.2⟩
  rw [Module.firstFree, List.find?_map]
  cases hfound : (List.range (m.symbols.length + 1)).find?
      ((fun i => !m.isTaken (candidate i)) ∘ (start + ·)) with
  | none => exact ⟨Nat.le_refl _, fun j hj hlt => absurd hlt (Nat.not_lt_of_le hj)⟩
  | some i =>
    obtain ⟨-, -, hbefore⟩ := List.find?_range_eq_some.1 hfound
    refine ⟨Nat.le_add_right start i, fun j hj hlt => ?_⟩
    have hlt : j - start < i := by
      have : j < start + i := hlt
      omega
    simpa [Nat.add_sub_of_le hj] using hbefore (j - start) hlt

/-! ## The table of symbols -/

/-- The table has the symbols of the globals and functions and no others, and each belongs to one of
them; no two globals hold the same bytes. -/
structure Registered (m : Module) : Prop where
  distinct : (symbolsOf m).Nodup
  table : ∀ n, n ∈ m.symbols.map Prod.fst ↔ n ∈ symbolsOf m
  contents : (m.globals.map (·.data)).Nodup

theorem registered_empty (name triple : String) : Registered (.empty name triple) :=
  ⟨List.nodup_nil, fun _ => Iff.rfl, List.nodup_nil⟩

section Serve

variable {m : Module} {r : Request} {rs : List Request} {name : String}

/-- What a request for a function adds: a function at the end, under a fresh symbol. -/
theorem serve_named (h : r.name? = some name) :
    (r.serve m).1 = m.funcs.length ∧ (r.serve m).2.globals = m.globals ∧
      (∃ g, (r.serve m).2.funcs = m.funcs ++ [g] ∧ g.name = (m.freshSymbol name).1) ∧
      (r.serve m).2.symbols = (m.freshSymbol name).2.symbols := by
  obtain ⟨hfuncs, hglobals⟩ := Module.Drafted.funcs_freshSymbol m name
  cases r with
  | func _ sig params =>
    cases h
    obtain ⟨hplace, g, hadded, hname, -⟩ := Module.funcs_addFunc m name sig params
    exact ⟨hplace, hglobals, ⟨g, hadded, hname⟩, rfl⟩
  | external _ sig params =>
    cases h
    exact ⟨congrArg List.length hfuncs, hglobals, ⟨_, congrArg (· ++ [_]) hfuncs, rfl⟩, rfl⟩
  | string data => cases h

/-- What a request for a string does: nothing if a global holds the bytes already, and otherwise it
adds one at the end, under the symbol that the search ends with. -/
theorem serve_string (m : Module) (data : List UInt8) :
    ((∃ g, m.globals[((Request.string data).serve m).1]? = some g ∧ g.data = data) ∧
        ((Request.string data).serve m).2 = m) ∨
      ((∀ g ∈ m.globals, g.data ≠ data) ∧ ∃ n, n ∉ m.symbols.map Prod.fst ∧
        (∃ i, n = Module.suffixed ".str" i) ∧ (Request.string data).serve m =
          (m.globals.length, { m with
            globals := m.globals ++ [⟨n, data⟩], symbols := (n, 1) :: m.symbols })) := by
  simp only [Request.serve, Module.internString]
  cases hfound : m.globals.findIdx? (·.data = data) with
  | some i =>
    obtain ⟨hlt, hdata, -⟩ := List.findIdx?_eq_some_iff_getElem.1 hfound
    exact .inl ⟨⟨_, List.getElem?_eq_getElem hlt, of_decide_eq_true hdata⟩, rfl⟩
  | none =>
    refine .inr ⟨fun g hg => ?_, _, ?_, ⟨_, rfl⟩, rfl⟩
    · exact of_decide_eq_false (List.findIdx?_eq_none_iff.1 hfound g hg)
    · exact Module.firstFree_notMem (Module.suffixed_injective ".str") _

theorem symbolsOf_named (h : r.name? = some name) :
    symbolsOf (r.serve m).2 = symbolsOf m ++ [(m.freshSymbol name).1] := by
  obtain ⟨-, hglobals, ⟨g, hadded, hname⟩, -⟩ := serve_named (m := m) h
  rw [symbolsOf, symbolsOf, hglobals, hadded, List.map_append, List.map_singleton, hname,
    List.append_assoc]

/-- A request keeps the table in order. -/
theorem Registered.serve (h : Registered m) (r : Request) : Registered (r.serve m).2 := by
  cases hname : r.name? with
  | some name =>
    obtain ⟨-, hglobals, -, hsymbols⟩ := serve_named (m := m) hname
    have hfresh := Module.freshSymbol_notMem m name
    rw [h.table] at hfresh
    refine ⟨?_, fun n => ?_, by rw [hglobals]; exact h.contents⟩
    · rw [symbolsOf_named hname]
      exact List.nodup_append'.2 ⟨h.distinct, List.nodup_singleton _,
        List.disjoint_singleton.2 hfresh⟩
    · rw [symbolsOf_named hname, hsymbols, Module.mem_symbols_freshSymbol, h.table,
        List.mem_append, List.mem_singleton, or_comm]
  | none =>
    cases r with
    | func _ _ _ => cases hname
    | external _ _ _ => cases hname
    | string data =>
      rcases serve_string m data with ⟨-, hsame⟩ | ⟨hnew, n, hfree, -, hadded⟩
      · rw [hsame]
        exact h
      · have hsymbols : (symbolsOf ((Request.string data).serve m).2).Perm (n :: symbolsOf m) := by
          rw [hadded]
          simp only [symbolsOf, List.map_append, List.map_singleton, List.append_assoc]
          exact List.perm_middle
        rw [h.table] at hfree
        refine ⟨?_, fun k => ?_, ?_⟩
        · exact hsymbols.nodup_iff.2 (List.nodup_cons.2 ⟨hfree, h.distinct⟩)
        · rw [hsymbols.mem_iff, List.mem_cons, ← h.table, hadded]
          exact List.mem_cons
        · rw [hadded, List.map_append, List.map_singleton]
          refine List.nodup_append'.2 ⟨h.contents, List.nodup_singleton _,
            List.disjoint_singleton.2 ?_⟩
          intro hmem
          obtain ⟨g, hg, hdata⟩ := List.mem_map.1 hmem
          exact hnew g hg hdata

theorem Registered.serveAll (h : Registered m) (rs : List Request) :
    Registered (Request.serveAll m rs).2 := by
  induction rs generalizing m with
  | nil => exact h
  | cons r rs ih => exact ih (h.serve r)

/-- A name without a number is granted where no global and no function has it. -/
theorem Registered.granted (h : Registered m) (hname : r.name? = some name)
    (hfree : name ∉ symbolsOf m) :
    ∃ g, (r.serve m).2.funcs[(r.serve m).1]? = some g ∧ g.name = name := by
  obtain ⟨hplace, -, ⟨g, hadded, hg⟩, -⟩ := serve_named (m := m) hname
  rw [← h.table] at hfree
  rw [hplace, hadded, List.getElem?_concat_length]
  exact ⟨g, rfl, hg.trans (Module.freshSymbol_free hfree)⟩

/-! ## Strings -/

/-- The global at the place holds the bytes. -/
def Holds (m : Module) (place : Nat) (data : List UInt8) : Prop :=
  ∃ g, m.globals[place]? = some g ∧ g.data = data

theorem globals_serve (m : Module) (r : Request) : m.globals <+: (r.serve m).2.globals := by
  cases hname : r.name? with
  | some name =>
    exact ⟨[], (List.append_nil _).trans (serve_named hname).2.1.symm⟩
  | none =>
    cases r with
    | func _ _ _ => cases hname
    | external _ _ _ => cases hname
    | string data => exact (Module.extends_internString 0 data).globals

theorem Holds.serveAll {place : Nat} {data : List UInt8} (h : Holds m place data)
    (rs : List Request) : Holds (Request.serveAll m rs).2 place data := by
  induction rs generalizing m with
  | nil => exact h
  | cons r rs ih =>
    obtain ⟨g, hg, hdata⟩ := h
    exact ih ⟨g, getElem?_later (globals_serve m r) hg, hdata⟩

/-- The string that is asked for is at the place it is said to be at. -/
theorem holds_serve (m : Module) (data : List UInt8) :
    Holds ((Request.string data).serve m).2 ((Request.string data).serve m).1 data := by
  rcases serve_string m data with ⟨hfound, hsame⟩ | ⟨-, n, -, -, hadded⟩
  · rw [hsame]
    exact hfound
  · rw [hadded]
    exact ⟨_, List.getElem?_concat_length, rfl⟩

theorem holds_serveAll {i : Nat} {data : List UInt8} (h : rs[i]? = some (.string data)) :
    ∃ place, (Request.serveAll m rs).1[i]? = some place ∧
      Holds (Request.serveAll m rs).2 place data := by
  induction rs generalizing m i with
  | nil => cases h
  | cons r rs ih =>
    cases i with
    | zero =>
      cases h
      exact ⟨_, rfl, (holds_serve m data).serveAll rs⟩
    | succ i => exact ih h

theorem Registered.holds_inj (h : Registered m) {i j : Nat} {a b : List UInt8} (ha : Holds m i a)
    (hb : Holds m j b) : i = j ↔ a = b := by
  obtain ⟨g, hg, rfl⟩ := ha
  obtain ⟨k, hk, rfl⟩ := hb
  obtain ⟨hi, rfl⟩ := List.getElem?_eq_some_iff.1 hg
  obtain ⟨hj, rfl⟩ := List.getElem?_eq_some_iff.1 hk
  have hi' : i < (m.globals.map (·.data)).length := by rwa [List.length_map]
  have hj' : j < (m.globals.map (·.data)).length := by rwa [List.length_map]
  have hinj : (m.globals.map (·.data))[i] = (m.globals.map (·.data))[j] ↔ i = j :=
    h.contents.getElem_inj_iff
  rw [List.getElem_map, List.getElem_map] at hinj
  exact hinj.symm

end Serve

/-! ## Texts that stand for bytes -/

/-- The text has a character for each of some bytes. -/
def Bytewise (n : String) : Prop := ∃ bytes, byteText bytes = n

theorem Bytewise.append {a b : String} (ha : Bytewise a) (hb : Bytewise b) : Bytewise (a ++ b) := by
  obtain ⟨as, rfl⟩ := ha
  obtain ⟨bs, rfl⟩ := hb
  exact ⟨as ++ bs, byteText_append as bs⟩

theorem bytewise_of_ascii {n : String} (h : n.toList.all (fun c => c.toNat < 0x80) = true) :
    Bytewise n :=
  ⟨_, byteText_ofString fun c hc => of_decide_eq_true (List.all_eq_true.1 h c hc)⟩

theorem Bytewise.suffixed {n : String} (h : Bytewise n) (i : Nat) :
    Bytewise (Module.suffixed n i) := by
  have hdigits : ∀ c ∈ (toString i).toList, decide (c.toNat < 0x80) = true := fun c hc =>
    decide_eq_true (symbolChar_ascii (isSymbolChar_natText i c hc)).2.2
  exact (h.append (bytewise_of_ascii (by decide))).append
    (bytewise_of_ascii (List.all_eq_true.2 hdigits))

theorem Bytewise.byteText_charBytes {n : String} (h : Bytewise n) : byteText (charBytes n) = n := by
  obtain ⟨bytes, rfl⟩ := h
  rw [charBytes_byteText]

/-- What holds of `.str` and of the names asked for, with or without numbers, holds of all symbols.
-/
theorem forall_symbolsOf_serveAll {P : String → Prop} (hstr : P ".str")
    (hsuffixed : ∀ n i, P n → P (Module.suffixed n i)) {rs : List Request}
    (hrs : ∀ r ∈ rs, ∀ n, r.name? = some n → P n) {m : Module} (hm : ∀ n ∈ symbolsOf m, P n) :
    ∀ n ∈ symbolsOf (Request.serveAll m rs).2, P n := by
  induction rs generalizing m with
  | nil => exact hm
  | cons r rs ih =>
    obtain ⟨hr, hrs⟩ := List.forall_mem_cons.1 hrs
    refine ih hrs fun n hn => ?_
    cases hname : r.name? with
    | some name =>
      rw [symbolsOf_named hname, List.mem_append, List.mem_singleton] at hn
      rcases hn with hn | rfl
      · exact hm n hn
      · rcases Module.freshSymbol_cases m name with hsame | ⟨i, hnumber⟩
        · rw [hsame]
          exact hr name hname
        · rw [hnumber]
          exact hsuffixed name i (hr name hname)
    | none =>
      cases r with
      | func _ _ _ => cases hname
      | external _ _ _ => cases hname
      | string data =>
        rcases serve_string m data with ⟨-, hsame⟩ | ⟨-, k, -, ⟨i, rfl⟩, hadded⟩
        · rw [hsame] at hn
          exact hm n hn
        · rw [hadded] at hn
          simp only [symbolsOf, List.map_append, List.map_singleton, List.append_assoc,
            List.mem_append, List.mem_singleton] at hn
          rcases hn with hn | rfl | hn
          · exact hm n (List.mem_append_left _ hn)
          · exact hsuffixed ".str" i hstr
          · exact hm n (List.mem_append_right _ hn)

/-! ## Symbols as they are written -/

/-- Written by `write`, the names stay apart, and so do the bytes that are read back: these are the
bytes of the names. -/
structure ToldApart (write : String → String) (bytes : String → List UInt8) (names : List String) :
    Prop where
  written : (names.map write).Nodup
  read : ∀ n ∈ names, readSymbol (write n).toList = some (bytes n)
  decoded : (names.map fun n => readSymbol (write n).toList).Nodup

theorem toldApart_of {write : String → String} {bytes : String → List UInt8} {names : List String}
    (hnames : names.Nodup) (hwrite : ∀ n, write n = symbolOfBytes (bytes n))
    (hinj : ∀ a ∈ names, ∀ b ∈ names, bytes a = bytes b → a = b) :
    ToldApart write bytes names := by
  have hread : ∀ n, readSymbol (write n).toList = some (bytes n) := fun n => by
    rw [hwrite, readSymbol_symbolOfBytes]
  refine ⟨hnames.map_on fun a ha b hb h => ?_, fun n _ => hread n,
    hnames.map_on fun a ha b hb h => ?_⟩
  · rw [hwrite, hwrite] at h
    exact hinj a ha b hb (symbolOfBytes_injective h)
  · rw [hread, hread] at h
    exact hinj a ha b hb (Option.some.inj h)

/-- Whatever a module is asked for: every search for a symbol ends, with the first candidate that is
free; the symbols of its functions and globals are distinct; a name that none of them has is granted
as it is; two strings are at one place if and only if they are equal, and they are there; and
written symbols stay apart, also when they are read back as bytes. If bytes are asked for that are
no text, all symbols stand for bytes, and these are told apart in the same way. -/
theorem serveAll_distinct (name triple : String) (rs : List Request) :
    let m := (Request.serveAll (.empty name triple) rs).2
    let places := (Request.serveAll (.empty name triple) rs).1
    (∀ (m : Module) (n : String) (start : Nat),
      SearchEnds m (Module.suffixed n) start (m.firstFree start (Module.suffixed n))) ∧
    (symbolsOf m).Nodup ∧
    (∀ (r : Request) (n : String), r.name? = some n → n ∉ symbolsOf m →
      ∃ g, (r.serve m).2.funcs[(r.serve m).1]? = some g ∧ g.name = n) ∧
    (∀ (i j : Nat) (a b : List UInt8), rs[i]? = some (.string a) → rs[j]? = some (.string b) →
      ∃ p q, places[i]? = some p ∧ places[j]? = some q ∧ Holds m p a ∧ Holds m q b ∧
        (p = q ↔ a = b)) ∧
    ToldApart LLVM.symbol Text.Utf8.ofString (symbolsOf m) ∧
    ((∀ r ∈ rs, ∀ n, r.name? = some n → Bytewise n) → (∀ n ∈ symbolsOf m, Bytewise n) ∧
      ToldApart (fun n => symbolOfBytes (charBytes n)) charBytes (symbolsOf m)) := by
  have hregistered := (registered_empty name triple).serveAll rs
  refine ⟨fun m n start => searchEnds_firstFree m (Module.suffixed_injective n) start,
    hregistered.distinct, fun r n => hregistered.granted, ?_, ?_, ?_⟩
  · intro i j a b ha hb
    obtain ⟨p, hp, hpa⟩ := holds_serveAll (m := .empty name triple) ha
    obtain ⟨q, hq, hqb⟩ := holds_serveAll (m := .empty name triple) hb
    exact ⟨p, q, hp, hq, hpa, hqb, hregistered.holds_inj hpa hqb⟩
  · exact toldApart_of hregistered.distinct symbol_eq fun _ _ _ _ h =>
      Text.Utf8.ofString_injective h
  · intro hbytes
    have hall := forall_symbolsOf_serveAll (bytewise_of_ascii (by decide))
      (fun n i hn => hn.suffixed i) hbytes (m := .empty name triple)
      (fun n hn => absurd hn List.not_mem_nil)
    refine ⟨hall, toldApart_of hregistered.distinct (fun _ => rfl) fun a ha b hb h => ?_⟩
    rw [← (hall a ha).byteText_charBytes, h, (hall b hb).byteText_charBytes]

/-- Requests whose names imitate the symbols handed out for others; one name is no text. -/
def imitations : List Request :=
  let names := ["f", "f", "f.1", ".str.0", ".str.0.1", ".str.1", byteText [0xFF, 0x22]]
  .string [104] :: names.map (.func · ⟨[], .i32, false⟩ []) ++ [.string [], .string [104]]

theorem imitations_distinct :
    let m := (Request.serveAll (.empty "kanso" "") imitations).2
    let places := (Request.serveAll (.empty "kanso" "") imitations).1
    m.globals.map (·.name) = [".str.0", ".str.2"] ∧
    m.funcs.map (·.name) =
      ["f", "f.1", "f.1.1", ".str.0.1", ".str.0.1.1", ".str.1", byteText [0xFF, 0x22]] ∧
    (∃ g, (m.addFunc "f.2" ⟨[], .i32, false⟩).2.funcs[(m.addFunc "f.2" ⟨[], .i32, false⟩).1]? =
      some g ∧ g.name = "f.2") ∧
    (∃ p q, places[0]? = some p ∧ places[8]? = some q ∧ Holds m p [104] ∧ Holds m q [] ∧ p ≠ q) ∧
    ToldApart (fun n => symbolOfBytes (charBytes n)) charBytes (symbolsOf m) := by
  obtain ⟨-, -, hgranted, hstrings, -, hbytes⟩ := serveAll_distinct "kanso" "" imitations
  refine ⟨by decide +kernel, by decide +kernel,
    hgranted (.func "f.2" ⟨[], .i32, false⟩ []) "f.2" rfl (by decide +kernel), ?_, ?_⟩
  · obtain ⟨p, q, hplace, hplace', hp, hq, hpq⟩ := hstrings 0 8 [104] [] rfl rfl
    exact ⟨p, q, hplace, hplace', hp, hq, fun h => absurd (hpq.1 h) (by decide)⟩
  · have hall : ∀ r ∈ imitations, ∀ n ∈ r.name?, byteText (charBytes n) = n := by decide +kernel
    exact (hbytes fun r hr n hn => ⟨_, hall r hr n hn⟩).2

end Wordlang
