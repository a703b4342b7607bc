import Mathlib.Data.Nat.Digits.Defs
import ExecutionFabric.Model.Texts

/-!
# What the identifier parser accepts

A text denotes a number when its characters are digits of the base and the number is
their positional value. The parser accepts exactly the texts of its grammar, with the
number they denote, and never wraps.
-/
namespace ExecutionFabric

/-- The character stands for the digit `n` of the base, in either case. -/
def IsDigit (base : Nat) (c : UInt8) (n : Nat) : Prop :=
  n < base ∧ (c = (Nat.digitChar n).toUInt8 ∨ c = (Nat.digitChar n).toUpper.toUInt8)

instance (base : Nat) (c : UInt8) (n : Nat) : Decidable (IsDigit base c n) :=
  inferInstanceAs (Decidable (_ ∧ _))

/-- The characters are digits of the base, and `v` is their positional value. -/
def Denotes (base : Nat) (text : Bytes) (v : Nat) : Prop :=
  ∃ digits, List.Forall₂ (IsDigit base) text digits ∧ v = Nat.ofDigits base digits.reverse

/-- Sixteen hexadecimal digits denoting `v`. -/
def HexText (text : Bytes) (v : Nat) : Prop := text.length = 16 ∧ Denotes 16 text v

/-! ## Digits -/

theorem hexDigit_eq_some (c : UInt8) (n : Nat) :
    (hexDigit c).map UInt64.toNat = some n ↔ IsDigit 16 c n := by
  have hall : ∀ b : Fin 256, ∀ n : Fin 16, (hexDigit (UInt8.ofNat b)).map UInt64.toNat = some n.val ↔
      IsDigit 16 (UInt8.ofNat b) n := by decide +kernel
  have hsmall : ∀ b : Fin 256, ((hexDigit (UInt8.ofNat b)).all fun d => d.toNat < 16) = true := by
    decide +kernel
  have hc := UInt8.ofNat_toNat (x := c)
  constructor
  · intro h
    obtain ⟨d, hd, rfl⟩ := Option.map_eq_some_iff.mp h
    rw [← hc] at hd
    have hlt : d.toNat < 16 := by
      have hall16 := hsmall ⟨c.toNat, c.toNat_lt⟩
      rw [hd] at hall16
      exact of_decide_eq_true hall16
    have hdigit := (hall ⟨c.toNat, c.toNat_lt⟩ ⟨d.toNat, hlt⟩).mp (congrArg _ hd)
    rwa [hc] at hdigit
  · intro h
    have hdigit := (hall ⟨c.toNat, c.toNat_lt⟩ ⟨n, h.1⟩).mpr (by rw [hc]; exact h)
    rwa [hc] at hdigit

/-- The digit of a decimal character. -/
theorem decimal_digit (c : UInt8) : (∀ n, IsDigit 10 c n →
      ¬ (c < '0'.toUInt8 ∨ c > '9'.toUInt8) ∧ (c - '0'.toUInt8).toUInt64.toNat = n) ∧
    (¬ (c < '0'.toUInt8 ∨ c > '9'.toUInt8) → IsDigit 10 c (c - '0'.toUInt8).toUInt64.toNat) := by
  have hsound : ∀ b : Fin 256, ∀ n : Fin 10, IsDigit 10 (UInt8.ofNat b) n →
      ¬ (UInt8.ofNat b < '0'.toUInt8 ∨ UInt8.ofNat b > '9'.toUInt8) ∧
        (UInt8.ofNat b - '0'.toUInt8).toUInt64.toNat = n := by decide +kernel
  have hcomplete : ∀ b : Fin 256, ¬ (UInt8.ofNat b < '0'.toUInt8 ∨ UInt8.ofNat b > '9'.toUInt8) →
      IsDigit 10 (UInt8.ofNat b) (UInt8.ofNat b - '0'.toUInt8).toUInt64.toNat := by decide +kernel
  have hc := UInt8.ofNat_toNat (x := c)
  constructor
  · intro n h
    have hdigit := hsound ⟨c.toNat, c.toNat_lt⟩ ⟨n, h.1⟩ (by rw [hc]; exact h)
    rwa [hc] at hdigit
  · intro h
    have hdigit := hcomplete ⟨c.toNat, c.toNat_lt⟩ (by rw [hc]; exact h)
    rwa [hc] at hdigit

/-! ## Numbers -/

section Denotation

variable {base : Nat} {text : Bytes}

/-- The positional value of a text below the digits read so far. -/
def DenotesFrom (base : Nat) (text : Bytes) (before v : Nat) : Prop :=
  ∃ n, Denotes base text n ∧ v = before * base ^ text.length + n

theorem denotesFrom_zero (v : Nat) : DenotesFrom base text 0 v ↔ Denotes base text v := by
  constructor
  · rintro ⟨n, hn, rfl⟩
    rwa [Nat.zero_mul, Nat.zero_add]
  · exact fun h => ⟨v, h, by rw [Nat.zero_mul, Nat.zero_add]⟩

theorem denotesFrom_nil (before v : Nat) : DenotesFrom base [] before v ↔ v = before := by
  constructor
  · rintro ⟨n, ⟨digits, hdigits, rfl⟩, rfl⟩
    rw [List.forall₂_nil_left_iff.mp hdigits]
    simp
  · rintro rfl
    exact ⟨0, ⟨[], .nil, rfl⟩, by simp⟩

theorem denotes_cons (c : UInt8) (v : Nat) : Denotes base (c :: text) v ↔
    ∃ d n, IsDigit base c d ∧ Denotes base text n ∧ v = d * base ^ text.length + n := by
  constructor
  · rintro ⟨digits, hdigits, rfl⟩
    obtain ⟨d, rest, hd, hrest, rfl⟩ := List.forall₂_cons_left_iff.mp hdigits
    refine ⟨d, _, hd, ⟨rest, hrest, rfl⟩, ?_⟩
    rw [Nat.ofDigits_reverse_cons, hrest.length_eq]
    ring
  · rintro ⟨d, n, hd, ⟨rest, hrest, rfl⟩, rfl⟩
    refine ⟨d :: rest, .cons hd hrest, ?_⟩
    rw [Nat.ofDigits_reverse_cons, hrest.length_eq]
    ring

/-- One more digit is read. -/
theorem denotesFrom_cons (c : UInt8) (before v : Nat) : DenotesFrom base (c :: text) before v ↔
    ∃ d, IsDigit base c d ∧ DenotesFrom base text (before * base + d) v := by
  constructor
  · rintro ⟨n, hn, rfl⟩
    obtain ⟨d, n', hd, hn', rfl⟩ := (denotes_cons c n).mp hn
    refine ⟨d, hd, n', hn', ?_⟩
    rw [List.length_cons, Nat.pow_succ]
    ring
  · rintro ⟨d, hd, n, hn, rfl⟩
    refine ⟨_, (denotes_cons c _).mpr ⟨d, n, hd, hn, rfl⟩, ?_⟩
    rw [List.length_cons, Nat.pow_succ]
    ring

end Denotation

/-- As long as the value so far has room for the digits that follow, the loop computes their
positional value. -/
theorem parseHexDigits_eq_some {text : Bytes} {value : UInt64}
    (hroom : (value.toNat + 1) * 16 ^ text.length ≤ 2 ^ 64) (v : UInt64) :
    parseHexDigits text value = some v ↔ DenotesFrom 16 text value.toNat v.toNat := by
  induction text generalizing value with
  | nil =>
    rw [parseHexDigits, denotesFrom_nil, Option.some.injEq, UInt64.toNat_inj, eq_comm]
  | cons c rest ih =>
    rw [List.length_cons, Nat.pow_succ] at hroom
    rw [denotesFrom_cons, parseHexDigits]
    cases hdigit : hexDigit c with
    | none =>
      refine ⟨fun h => (by cases h), ?_⟩
      rintro ⟨d, hd, -⟩
      have hsome := (hexDigit_eq_some c d).mpr hd
      rw [hdigit] at hsome
      cases hsome
    | some digit =>
      have hd := (hexDigit_eq_some c digit.toNat).mp (congrArg _ hdigit)
      have hpos : 0 < 16 ^ rest.length := Nat.pow_pos (by omega)
      have hfits : value.toNat * 16 + 16 ≤ 2 ^ 64 := by
        calc value.toNat * 16 + 16 = (value.toNat + 1) * 16 := by ring
          _ ≤ (value.toNat + 1) * (16 ^ rest.length * 16) :=
            Nat.mul_le_mul_left _ (Nat.le_mul_of_pos_left _ hpos)
          _ ≤ 2 ^ 64 := hroom
      have hnext : ((value <<< 4) ||| digit).toNat = value.toNat * 16 + digit.toNat := by
        have hshift : (value <<< 4).toNat = value.toNat <<< 4 := by
          rw [UInt64.toNat_shiftLeft]
          refine Nat.mod_eq_of_lt (show value.toNat <<< 4 < 2 ^ 64 from ?_)
          rw [Nat.shiftLeft_eq]
          omega
        rw [UInt64.toNat_or, hshift, ← Nat.shiftLeft_add_eq_or_of_lt (b := digit.toNat) (i := 4) hd.1,
          Nat.shiftLeft_eq]
      have hroom' : (((value <<< 4) ||| digit).toNat + 1) * 16 ^ rest.length ≤ 2 ^ 64 := by
        refine Nat.le_trans ?_ hroom
        rw [hnext]
        calc (value.toNat * 16 + digit.toNat + 1) * 16 ^ rest.length
            ≤ ((value.toNat + 1) * 16) * 16 ^ rest.length :=
              Nat.mul_le_mul_right _ (by have := hd.1; omega)
          _ = (value.toNat + 1) * (16 ^ rest.length * 16) := by ring
      rw [ih hroom', hnext]
      constructor
      · exact fun h => ⟨digit.toNat, hd, h⟩
      · rintro ⟨d, hd', h⟩
        have hsame : digit.toNat = d := by
          have hsome := (hexDigit_eq_some c d).mpr hd'
          rw [hdigit] at hsome
          exact Option.some.inj hsome
        rwa [hsame]

/-- The guard lets exactly those digits through that do not wrap, so the loop computes the positional
value or refuses it. -/
theorem parseDecimalDigits_eq_some {text : Bytes} {value : UInt64} (v : UInt64) :
    parseDecimalDigits text value = some v ↔ DenotesFrom 10 text value.toNat v.toNat := by
  induction text generalizing value with
  | nil =>
    rw [parseDecimalDigits, denotesFrom_nil, Option.some.injEq, UInt64.toNat_inj, eq_comm]
  | cons c rest ih =>
    obtain ⟨hsound, hcomplete⟩ := decimal_digit c
    rw [denotesFrom_cons, parseDecimalDigits]
    split
    next hjunk =>
      refine ⟨fun h => (by cases h), ?_⟩
      rintro ⟨d, hd, -⟩
      exact absurd hjunk (hsound d hd).1
    next hclean =>
      have hd := hcomplete hclean
      have hunique : ∀ d, IsDigit 10 c d → (c - '0'.toUInt8).toUInt64.toNat = d :=
        fun d hd => (hsound d hd).2
      generalize (c - '0'.toUInt8).toUInt64 = digit at *
      have hlt := hd.1
      have hbound : ((0xFFFFFFFFFFFFFFFF - digit) / 10).toNat = (2 ^ 64 - 1 - digit.toNat) / 10 := by
        have hle : digit ≤ 0xFFFFFFFFFFFFFFFF := by
          rw [UInt64.le_iff_toNat_le]
          exact Nat.le_of_lt_succ digit.toNat_lt
        rw [UInt64.toNat_div, UInt64.toNat_sub_of_le _ _ hle]
        rfl
      dsimp only
      split
      next hwraps =>
        refine ⟨fun h => (by cases h), ?_⟩
        rintro ⟨d, hd', n, hn, hv⟩
        obtain rfl := hunique d hd'
        have hvalue : (2 ^ 64 - 1 - digit.toNat) / 10 < value.toNat := by
          rw [← hbound]
          exact UInt64.lt_iff_toNat_lt.mp hwraps
        have hpos : 0 < 10 ^ rest.length := Nat.pow_pos (by omega)
        have hlarge : value.toNat * 10 + digit.toNat ≤ v.toNat := by
          rw [hv]
          exact Nat.le_add_right_of_le (Nat.le_mul_of_pos_right _ hpos)
        have hv' := v.toNat_lt
        omega
      next hfits =>
        have hvalue : value.toNat ≤ (2 ^ 64 - 1 - digit.toNat) / 10 := by
          rw [← hbound]
          exact UInt64.le_iff_toNat_le.mp (UInt64.not_lt.mp hfits)
        have hnext : (value * 10 + digit).toNat = value.toNat * 10 + digit.toNat := by
          rw [UInt64.toNat_add, UInt64.toNat_mul]
          simp
          omega
        rw [ih, hnext]
        constructor
        · exact fun h => ⟨digit.toNat, hd, h⟩
        · rintro ⟨d, hd', h⟩
          rwa [hunique d hd']

/-! ## The parser -/

section Parser

variable {d : IdDomain} {text : Bytes}

/-- Sixteen hexadecimal digits always fit. -/
theorem parseHexDigits_sixteen (hlength : text.length = 16) (v : UInt64) :
    parseHexDigits text 0 = some v ↔ HexText text v.toNat := by
  have hroom : ((0 : UInt64).toNat + 1) * 16 ^ text.length ≤ 2 ^ 64 := by
    rw [hlength]
    norm_num
  rw [parseHexDigits_eq_some hroom, UInt64.toNat_zero, denotesFrom_zero]
  exact ⟨fun h => ⟨hlength, h⟩, fun h => h.2⟩

theorem hexPart_eq_some (v : UInt64) :
    (if text.length = 16 then parseHexDigits text 0 else none) = some v ↔ HexText text v.toNat := by
  split
  next hlength => exact parseHexDigits_sixteen hlength v
  next hlength => exact ⟨fun h => (by cases h), fun h => absurd h.1 hlength⟩

/-- A text of sixteen hexadecimal digits denotes a 64-bit value. -/
theorem HexText.word {n : Nat} (h : HexText text n) : ∃ v : UInt64, v.toNat = n := by
  obtain ⟨hlength, digits, hdigits, rfl⟩ := h
  have hlt : Nat.ofDigits 16 digits.reverse < 16 ^ digits.reverse.length := by
    refine Nat.ofDigits_lt_base_pow_length (by omega) fun x hx => ?_
    obtain ⟨i, hi, hget⟩ := List.getElem_of_mem (List.mem_reverse.mp hx)
    rw [← hget]
    exact (hdigits.get (hdigits.length_eq ▸ hi) hi).1
  rw [List.length_reverse, ← hdigits.length_eq, hlength] at hlt
  exact ⟨UInt64.ofNat _, UInt64.toNat_ofNat_of_lt' (by rw [UInt64.size]; exact hlt)⟩

theorem parseId_hex (v : UInt64) :
    parseId text = some (⟨v⟩ : Id d) ↔ HexText text v.toNat := by
  rw [← hexPart_eq_some, parseId]
  cases hhex : (if text.length = 16 then parseHexDigits text 0 else none) with
  | some w =>
    dsimp only
    rw [Option.some.injEq, Option.some.injEq, Id.mk.injEq]
  | none =>
    dsimp only
    rw [if_neg (by simp)]
    exact ⟨fun h => (by cases h), fun h => (by cases h)⟩

theorem parseId_decimal (v : UInt64) : parseId text true = some (⟨v⟩ : Id d) ↔
    HexText text v.toNat ∨
      ((∀ n, ¬ HexText text n) ∧ text ≠ [] ∧ Denotes 10 text v.toNat) := by
  rw [← hexPart_eq_some, parseId]
  cases hhex : (if text.length = 16 then parseHexDigits text 0 else none) with
  | some w =>
    dsimp only
    rw [Option.some.injEq, Option.some.injEq, Id.mk.injEq]
    refine ⟨.inl, fun h => h.resolve_right fun hdecimal => ?_⟩
    exact hdecimal.1 _ ((hexPart_eq_some w).mp hhex)
  | none =>
    have hnone : ∀ n, ¬ HexText text n := by
      intro n hn
      obtain ⟨w, hw⟩ := hn.word
      rw [← hw] at hn
      have hsome := (hexPart_eq_some w).mpr hn
      rw [hhex] at hsome
      cases hsome
    dsimp only
    by_cases hempty : text = []
    · rw [if_neg (by simp [hempty])]
      refine ⟨fun h => (by cases h), ?_⟩
      rintro (h | ⟨-, hne, -⟩)
      · cases h
      · exact absurd hempty hne
    · rw [if_pos ⟨rfl, hempty⟩]
      have hparse : parseDecimalDigits text 0 = some v ↔
          DenotesFrom 10 text (0 : UInt64).toNat v.toNat := parseDecimalDigits_eq_some v
      rw [UInt64.toNat_zero, denotesFrom_zero] at hparse
      constructor
      · intro h
        obtain ⟨w, hw, hid⟩ := Option.map_eq_some_iff.mp h
        rw [Id.mk.injEq] at hid
        exact .inr ⟨hnone, hempty, hparse.mp (hid ▸ hw)⟩
      · rintro (h | ⟨-, -, h⟩)
        · cases h
        · rw [hparse.mpr h]
          rfl

end Parser

/-! ## Written identifiers -/

/-- The digits of a number, its lowest first. -/
theorem ofDigits_digits (base v n : Nat) :
    Nat.ofDigits base ((List.range n).map fun i => v / base ^ i % base) = v % base ^ n := by
  induction n with
  | zero => rw [Nat.pow_zero, Nat.mod_one, List.range_zero, List.map_nil, Nat.ofDigits_nil]
  | succ n ih =>
    rw [List.range_succ, List.map_append, Nat.ofDigits_append, ih, Nat.mod_pow_succ,
      List.length_map, List.length_range, List.map_singleton, Nat.ofDigits_singleton]

/-- Characters of one byte are written as that byte. -/
theorem text_ofList {cs : List Char} (h : ∀ c ∈ cs, c.utf8Size = 1) :
    text (String.ofList cs) = cs.map Char.toUInt8 := by
  have hbytes : text (String.ofList cs) = cs.flatMap String.utf8EncodeChar := by
    simp [text, String.ofList, String.toUTF8, List.utf8Encode]
  rw [hbytes]
  induction cs with
  | nil => rfl
  | cons c rest ih =>
    rw [List.flatMap_cons, List.map_cons, String.utf8EncodeChar_eq_singleton (h c List.mem_cons_self),
      ih (fun c' hc' => h c' (List.mem_cons_of_mem _ hc'))]
    · rfl
    · simp [text, String.ofList, String.toUTF8, List.utf8Encode]

theorem hexText_hex64 (v : UInt64) : HexText (text (hex64 v)) v.toNat := by
  have hdigit : ∀ n < 16, (Nat.digitChar n).utf8Size = 1 ∧
      IsDigit 16 (Nat.digitChar n).toUInt8 n := by decide
  have htext : text (hex64 v) = (List.range 16).reverse.map fun i =>
      (Nat.digitChar (v.toNat / 16 ^ i % 16)).toUInt8 := by
    rw [hex64, text_ofList, List.map_map]
    · rfl
    · intro c hc
      obtain ⟨i, -, rfl⟩ := List.mem_map.mp hc
      exact (hdigit _ (Nat.mod_lt _ (by omega))).1
  refine ⟨by rw [htext]; simp, (List.range 16).reverse.map fun i => v.toNat / 16 ^ i % 16, ?_, ?_⟩
  · rw [htext, List.forall₂_map_left_iff, List.forall₂_map_right_iff]
    exact List.forall₂_same.mpr fun i _ => (hdigit _ (Nat.mod_lt _ (by omega))).2
  · rw [← List.map_reverse, List.reverse_reverse, ofDigits_digits]
    exact (Nat.mod_eq_of_lt v.toNat_lt).symm

/-- The parser accepts exactly the grammar, with the number a text denotes, and reads back every
identifier that was written. -/
theorem parseId_exact (d : IdDomain) :
    (∀ text v, parseId text = some (⟨v⟩ : Id d) ↔ HexText text v.toNat) ∧
    (∀ text v, parseId text true = some (⟨v⟩ : Id d) ↔ HexText text v.toNat ∨
      ((∀ n, ¬ HexText text n) ∧ text ≠ [] ∧ Denotes 10 text v.toNat)) ∧
    ∀ v allowDecimal, parseId (text (hex64 v)) allowDecimal = some (⟨v⟩ : Id d) := by
  refine ⟨fun _ => parseId_hex, fun _ => parseId_decimal, fun v allowDecimal => ?_⟩
  cases allowDecimal with
  | false => exact (parseId_hex v).mpr (hexText_hex64 v)
  | true => exact (parseId_decimal v).mpr (.inl (hexText_hex64 v))

end ExecutionFabric
