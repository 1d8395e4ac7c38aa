import Wordlang.Proofs.Utf8

/-!
# The order of UTF-8

Comparing texts by their code points and comparing them by their bytes gives the same order: of two
characters, the bytes of the smaller one have the smaller number at the first place where the bytes
differ, and there is such a place.
-/

namespace Wordlang.Text.Utf8

/-- The numbers of the bytes of the character with the given code point. -/
def octets (v : Nat) : List Nat :=
  if v ≤ 127 then [v]
  else if v ≤ 2047 then [v / 64 % 32 + 192, v % 64 + 128]
  else if v ≤ 65535 then [v / 4096 % 16 + 224, v / 64 % 64 + 128, v % 64 + 128]
  else [v / 262144 % 8 + 240, v / 4096 % 64 + 128, v / 64 % 64 + 128, v % 64 + 128]

theorem utf8EncodeChar_eq (c : Char) :
    String.utf8EncodeChar c = (octets c.toNat).map UInt8.ofNat := by
  have hval : c.val.toNat = c.toNat := rfl
  rw [String.utf8EncodeChar, octets, hval]
  split
  · rfl
  split
  · rfl
  split
  · rfl
  · rfl

theorem lt_of_mem_octets {v n : Nat} (h : n ∈ octets v) : n < 256 := by
  unfold octets at h
  split at h
  · simp only [List.mem_singleton] at h
    omega
  split at h
  · simp only [List.mem_cons, List.not_mem_nil, or_false] at h
    omega
  split at h
  · simp only [List.mem_cons, List.not_mem_nil, or_false] at h
    omega
  · simp only [List.mem_cons, List.not_mem_nil, or_false] at h
    omega

/-- At the first place where the lists differ, both have a number, and the first one has the smaller
one. -/
def Below : List Nat → List Nat → Prop
  | m :: ms, n :: ns => m < n ∨ m = n ∧ Below ms ns
  | _, _ => False

theorem below_octets {v w : Nat} (h : v < w) (hw : w < 0x110000) : Below (octets v) (octets w) := by
  -- the digits to the base 64
  have hdigits : ∀ u, u / 4096 = u / 64 / 64 ∧ u / 262144 = u / 4096 / 64 := by
    intro u
    omega
  have hv := hdigits v
  have hw' := hdigits w
  unfold octets
  split
  · split
    · exact .inl h
    split
    · exact .inl (by omega)
    split
    · exact .inl (by omega)
    · exact .inl (by omega)
  split
  · rw [if_neg (by omega)]
    split
    · simp only [Below]
      omega
    split
    · exact .inl (by omega)
    · exact .inl (by omega)
  split
  · rw [if_neg (by omega), if_neg (by omega)]
    split
    · simp only [Below]
      omega
    · exact .inl (by omega)
  · rw [if_neg (by omega), if_neg (by omega), if_neg (by omega)]
    have htop : ∀ u, u < 0x110000 → u / 262144 % 8 = u / 262144 := by
      intro u hu
      omega
    have hle : v / 262144 ≤ w / 262144 := Nat.div_le_div_right (Nat.le_of_lt h)
    simp only [Below, htop v (Nat.lt_trans h hw), htop w hw]
    -- which is the first digit that differs
    by_cases h₁ : v / 262144 = w / 262144
    · by_cases h₂ : v / 4096 = w / 4096
      · by_cases h₃ : v / 64 = w / 64
        · omega
        · omega
      · omega
    · omega

theorem lt_of_below {ms ns : List Nat} (hms : ∀ m ∈ ms, m < 256) (hns : ∀ n ∈ ns, n < 256)
    (h : Below ms ns) (xs ys : List UInt8) :
    ms.map UInt8.ofNat ++ xs < ns.map UInt8.ofNat ++ ys := by
  induction ms generalizing ns with
  | nil => cases h
  | cons m ms ih =>
    cases ns with
    | nil => cases h
    | cons n ns =>
      rw [List.map_cons, List.map_cons, List.cons_append, List.cons_append, List.cons_lt_cons_iff]
      rcases h with hlt | ⟨rfl, hrest⟩
      · left
        rw [UInt8.lt_iff_toNat_lt, toNat_ofNat_small (hms m List.mem_cons_self),
          toNat_ofNat_small (hns n List.mem_cons_self)]
        exact hlt
      · exact .inr ⟨rfl, ih (fun k hk => hms k (List.mem_cons_of_mem _ hk))
          (fun k hk => hns k (List.mem_cons_of_mem _ hk)) hrest⟩

/-- The bytes of a smaller character come first, whatever follows. -/
theorem utf8EncodeChar_lt {c d : Char} (h : c < d) (xs ys : List UInt8) :
    String.utf8EncodeChar c ++ xs < String.utf8EncodeChar d ++ ys := by
  have hlt : c.toNat < d.toNat := UInt32.lt_iff_toNat_lt.1 h
  have hd : d.toNat < 0x110000 := by
    have hvalid : d.toNat < 0xD800 ∨ 0xDFFF < d.toNat ∧ d.toNat < 0x110000 := d.valid
    omega
  rw [utf8EncodeChar_eq, utf8EncodeChar_eq]
  exact lt_of_below (fun _ => lt_of_mem_octets) (fun _ => lt_of_mem_octets) (below_octets hlt hd) _ _

theorem flatMap_lt {cs ds : List Char} (h : cs < ds) :
    cs.flatMap String.utf8EncodeChar < ds.flatMap String.utf8EncodeChar := by
  induction cs generalizing ds with
  | nil =>
    cases ds with
    | nil => exact absurd h (List.lt_irrefl _)
    | cons d ds =>
      obtain ⟨a, tail, hbytes, -⟩ := leading?_utf8EncodeChar d []
      rw [List.flatMap_cons, hbytes]
      exact List.nil_lt_cons _ _
  | cons c cs ih =>
    cases ds with
    | nil => exact absurd h (List.not_lt_nil _)
    | cons d ds =>
      rw [List.flatMap_cons, List.flatMap_cons]
      rcases List.cons_lt_cons_iff.1 h with hlt | ⟨rfl, hrest⟩
      · exact utf8EncodeChar_lt hlt _ _
      · have hbytes := ih hrest
        generalize String.utf8EncodeChar c = bytes
        induction bytes with
        | nil => exact hbytes
        | cons a bytes ihb => exact List.cons_lt_cons_iff.2 (.inr ⟨rfl, ihb⟩)

/-- A text that comes first by its code points comes first by its bytes. -/
theorem ofString_lt {a b : String} (h : a < b) : ofString a < ofString b := by
  rw [ofString_eq, ofString_eq]
  exact flatMap_lt (String.lt_iff.1 h)

end Wordlang.Text.Utf8
