import Mathlib.Algebra.Group.Int.Defs
import Mathlib.Algebra.Group.Nat.Defs
import Mathlib.Data.List.TakeWhile
import Mathlib.Data.Int.Order.Basic
import Mathlib.Tactic.Common

/-!
# Byte strings and the C library's view of them

`std::string` as a list of bytes, the character classes of `<cctype>` in the `"C"` locale, and the
decimal conversions: `operator<<` on unsigned integers (`decimal`), `std::from_chars` to `size_t`
(`fromChars`) and `atoi`. Printing and reading decimal numbers are inverse to each other
(`fromChars_decimal`, `atoi_decimal`).
-/

namespace Str

/-- The value type of `std::string`. -/
abbrev Bytes := List UInt8

-- every test of the kind `name ∈ names` rests on this one proof
instance : LawfulBEq Bytes := inferInstance

/-- The bytes of an ASCII literal. -/
def bytes (s : String) : Bytes := s.toList.map fun c => UInt8.ofNat c.toNat

/-- `size_t` subtraction, which wraps around below zero. -/
def sizeSub (a b : ℕ) : ℕ := if b ≤ a then a - b else a + 2 ^ 64 - b

theorem sizeSub_of_le {a b : ℕ} (h : b ≤ a) : sizeSub a b = a - b := if_pos h

/-! ## Character classes -/

/-- `std::isupper`. -/
def isupper (c : UInt8) : Bool := 65 ≤ c && c ≤ 90

/-- `std::isdigit`. -/
def isdigit (c : UInt8) : Bool := 48 ≤ c && c ≤ 57

/-- `std::isspace`: space, and the control characters from `\t` to `\r`. -/
def isspace (c : UInt8) : Bool := c == 32 || (9 ≤ c && c ≤ 13)

/-- `std::tolower`. -/
def tolower (c : UInt8) : UInt8 := if isupper c then c + 32 else c

/-- `std::transform` of a whole string with `tolower`. -/
def toLower (s : Bytes) : Bytes := s.map tolower

theorem isupper_iff (c : UInt8) : isupper c = true ↔ 65 ≤ c.toNat ∧ c.toNat ≤ 90 := by
  simp [isupper, UInt8.le_iff_toNat_le]

theorem isdigit_iff (c : UInt8) : isdigit c = true ↔ 48 ≤ c.toNat ∧ c.toNat ≤ 57 := by
  simp [isdigit, UInt8.le_iff_toNat_le]

theorem toNat_tolower (c : UInt8) :
    (tolower c).toNat = if 65 ≤ c.toNat ∧ c.toNat ≤ 90 then c.toNat + 32 else c.toNat := by
  have hlt := c.toNat_lt
  simp only [tolower, isupper_iff]
  split
  · rw [UInt8.toNat_add]
    simp only [UInt8.reduceToNat]
    omega
  · rfl

@[simp] theorem tolower_tolower (c : UInt8) : tolower (tolower c) = tolower c := by
  apply UInt8.toNat.inj
  simp only [toNat_tolower]
  split_ifs <;> omega

@[simp] theorem toLower_toLower (s : Bytes) : toLower (toLower s) = toLower s := by
  simp [toLower]

/-- Lower-casing neither makes nor removes a byte that is not a letter. -/
theorem tolower_eq_iff {c x : UInt8} (hx : x.toNat < 65) : tolower c = x ↔ c = x := by
  simp only [← UInt8.toNat_inj, toNat_tolower]
  split_ifs <;> omega

theorem mem_toLower_iff {x : UInt8} (hx : x.toNat < 65) (s : Bytes) : x ∈ toLower s ↔ x ∈ s := by
  simp [toLower, tolower_eq_iff hx]

@[simp] theorem toLower_eq_nil (s : Bytes) : toLower s = [] ↔ s = [] := by
  simp [toLower]

/-! ## Decimal numbers -/

/-- The digits an output stream writes for an unsigned integer. -/
def decimal (n : ℕ) : Bytes := (Nat.toDigits 10 n).map fun c => UInt8.ofNat c.toNat

/-- The digits an output stream writes in hexadecimal. -/
def hex (n : ℕ) : Bytes := (Nat.toDigits 16 n).map fun c => UInt8.ofNat c.toNat

/-- The digits an output stream writes for a signed integer. -/
def decimalInt (v : ℤ) : Bytes := if v < 0 then 45 :: decimal v.natAbs else decimal v.toNat

/-- The number a digit string denotes. -/
def digitsValue (ds : Bytes) : ℕ := ds.foldl (fun v d => 10 * v + (d.toNat - 48)) 0

/-- `std::from_chars` to `size_t`, base 10: the value and the number of bytes read. It reads the
longest run of digits; an empty run and a value that does not fit are errors. -/
def fromChars (s : Bytes) : Option (ℕ × ℕ) :=
  let ds := s.takeWhile isdigit
  if ds = [] then none
  else if 2 ^ 64 ≤ digitsValue ds then none
  else some (digitsValue ds, ds.length)

/-- `strtol` on a digit string with its sign, saturating at the bounds of `long`. -/
def clampLong (v : ℤ) : ℤ := max (-2 ^ 63) (min (2 ^ 63 - 1) v)

/-- The conversion of a `long` to `int`. -/
def longToInt (v : ℤ) : ℤ := (v + 2 ^ 31) % 2 ^ 32 - 2 ^ 31

/-- `atoi`: skips white space, takes an optional sign and the longest run of digits. -/
def atoi (s : Bytes) : ℤ :=
  match s.dropWhile isspace with
  | 45 :: t => longToInt (clampLong (-(digitsValue (t.takeWhile isdigit) : ℤ)))
  | 43 :: t => longToInt (clampLong (digitsValue (t.takeWhile isdigit)))
  | t => longToInt (clampLong (digitsValue (t.takeWhile isdigit)))

/-- The values of `int`. -/
def InInt (v : ℤ) : Prop := -2 ^ 31 ≤ v ∧ v < 2 ^ 31

instance (v : ℤ) : Decidable (InInt v) := inferInstanceAs (Decidable (_ ∧ _))

/-- `std::stoi`: as `atoi`, but no digits at all and a value that does not fit are errors. -/
def stoi (s : Bytes) : Option ℤ :=
  let r : ℤ × Bytes :=
    match s.dropWhile isspace with
    | 45 :: t => (-1, t.takeWhile isdigit)
    | 43 :: t => (1, t.takeWhile isdigit)
    | t => (1, t.takeWhile isdigit)
  if r.2 ≠ [] ∧ InInt (r.1 * digitsValue r.2) then some (r.1 * digitsValue r.2) else none

/-- The characters of a decimal numeral lie between `'0'` and `'9'`. -/
theorem toNat_of_mem_toDigits {n : ℕ} {c : Char} (h : c ∈ Nat.toDigits 10 n) :
    48 ≤ c.toNat ∧ c.toNat ≤ 57 := by
  have hd := Nat.isDigit_of_mem_toDigits (by decide) (by decide) h
  simp only [Char.isDigit, Bool.and_eq_true, decide_eq_true_eq, ge_iff_le,
    UInt32.le_iff_toNat_le] at hd
  exact hd

theorem isdigit_of_mem_decimal {n : ℕ} {d : UInt8} (h : d ∈ decimal n) : isdigit d = true := by
  obtain ⟨c, hc, rfl⟩ := List.mem_map.mp h
  have := toNat_of_mem_toDigits hc
  rw [isdigit_iff, UInt8.toNat_ofNat']
  omega

theorem decimal_ne_nil (n : ℕ) : decimal n ≠ [] := by
  simp [decimal]

/-- Reading back the digits of `n` gives `n`. -/
theorem digitsValue_decimal (n : ℕ) : digitsValue (decimal n) = n := by
  have hfold : ∀ (cs : List Char) (v : ℕ), (∀ c ∈ cs, c.toNat < 256) →
      (cs.map fun c => UInt8.ofNat c.toNat).foldl (fun v d => 10 * v + (d.toNat - 48)) v
        = Nat.ofDigitChars 10 cs v := by
    intro cs
    induction cs with
    | nil => simp
    | cons c cs ih =>
      intro v hcs
      have hc : (UInt8.ofNat c.toNat).toNat = c.toNat := by
        have := hcs c (by simp)
        simp only [UInt8.toNat_ofNat']
        omega
      rw [List.map_cons, List.foldl_cons, hc, ih _ fun d hd => hcs d (by simp [hd]),
        Nat.ofDigitChars_cons]
      rfl
  rw [digitsValue, decimal, hfold _ _ ?_, Nat.ofDigitChars_toDigits (by decide) (by decide)]
  intro c hc
  have := toNat_of_mem_toDigits hc
  omega

theorem mem_of_mem_hex {n : ℕ} {d : UInt8} (h : d ∈ hex n) : d ∈ bytes "0123456789abcdef" := by
  have hdigit : ∀ k < 16, UInt8.ofNat k.digitChar.toNat ∈ bytes "0123456789abcdef" := by
    decide
  induction n using Nat.strongRecOn with
  | ind n ih =>
    rw [hex, Nat.toDigits_eq_if (by decide)] at h
    split at h
    · rename_i hlt
      obtain rfl : d = _ := by simpa using h
      exact hdigit n hlt
    · rename_i hge
      rw [List.map_append, List.mem_append] at h
      rcases h with h | h
      · exact ih (n / 16) (by omega) h
      · obtain rfl : d = _ := by simpa using h
        exact hdigit (n % 16) (by omega)

/-- A signed number has digits, and possibly a minus sign. -/
theorem eq_or_isdigit_of_mem_decimalInt {v : ℤ} {d : UInt8} (h : d ∈ decimalInt v) :
    d = 45 ∨ isdigit d = true := by
  unfold decimalInt at h
  split at h
  · rcases List.mem_cons.mp h with rfl | h
    · exact .inl rfl
    · exact .inr (isdigit_of_mem_decimal h)
  · exact .inr (isdigit_of_mem_decimal h)

theorem decimal_inj {m n : ℕ} (h : decimal m = decimal n) : m = n := by
  rw [← digitsValue_decimal m, h, digitsValue_decimal]

/-- Different numbers are written differently. -/
theorem decimalInt_inj {v w : ℤ} (h : decimalInt v = decimalInt w) : v = w := by
  have hsign : ∀ n : ℕ, (45 : UInt8) ∉ decimal n := fun n hmem =>
    absurd (isdigit_of_mem_decimal hmem) (by decide)
  unfold decimalInt at h
  split at h <;> split at h
  · have := decimal_inj (List.cons.inj h).2
    omega
  · exact absurd (h ▸ List.mem_cons_self) (hsign _)
  · exact absurd (h ▸ List.mem_cons_self) (hsign _)
  · have := decimal_inj h
    omega

theorem takeWhile_decimal (n : ℕ) : (decimal n).takeWhile isdigit = decimal n :=
  List.takeWhile_eq_self_iff.mpr fun _ hd => isdigit_of_mem_decimal hd

/-- **`from_chars` reads back what a stream wrote.** -/
theorem fromChars_decimal {n : ℕ} (hn : n < 2 ^ 64) :
    fromChars (decimal n) = some (n, (decimal n).length) := by
  simp only [fromChars, takeWhile_decimal, decimal_ne_nil, if_false, digitsValue_decimal]
  rw [if_neg (by omega)]

/-- Reading to the end means that the string is one run of digits that fits. -/
theorem fromChars_eq_some_length_iff (s : Bytes) (n : ℕ) :
    fromChars s = some (n, s.length) ↔
      s ≠ [] ∧ s.all isdigit = true ∧ digitsValue s = n ∧ n < 2 ^ 64 := by
  have hself : (s.takeWhile isdigit).length = s.length ↔ s.takeWhile isdigit = s :=
    ⟨(List.takeWhile_prefix _).eq_of_length, fun h => by rw [h]⟩
  simp only [fromChars, List.all_eq_true, ← List.takeWhile_eq_self_iff]
  constructor
  · intro h
    split_ifs at h with hnil hbig
    simp only [Option.some.injEq, Prod.mk.injEq, hself] at h
    obtain ⟨rfl, hs⟩ := h
    rw [hs] at hnil hbig ⊢
    exact ⟨hnil, rfl, rfl, by omega⟩
  · rintro ⟨hnil, hs, rfl, hlt⟩
    rw [hs, if_neg hnil, if_neg (by omega)]

theorem isspace_of_isdigit {d : UInt8} (h : isdigit d = true) : isspace d = false := by
  rw [isdigit_iff] at h
  simp only [isspace, Bool.or_eq_false_iff, Bool.and_eq_false_iff, beq_eq_false_iff_ne,
    decide_eq_false_iff_not, UInt8.le_iff_toNat_le, UInt8.reduceToNat, ne_eq]
  refine ⟨?_, by omega⟩
  rintro rfl
  simp at h

/-- A decimal numeral starts with a digit: neither white space nor a sign comes before it. -/
theorem exists_decimal_eq_cons (n : ℕ) :
    ∃ d ds, decimal n = d :: ds ∧ (decimal n).dropWhile isspace = d :: ds ∧ d ≠ 45 ∧ d ≠ 43 := by
  cases hd : decimal n with
  | nil => exact absurd hd (decimal_ne_nil n)
  | cons d ds =>
    have hdig : isdigit d = true := isdigit_of_mem_decimal (n := n) (by rw [hd]; simp)
    refine ⟨d, ds, rfl, List.dropWhile_cons_of_neg (by simp [isspace_of_isdigit hdig]), ?_, ?_⟩
    · rintro rfl
      exact absurd hdig (by decide)
    · rintro rfl
      exact absurd hdig (by decide)

/-- **`atoi` reads back a small number.** -/
theorem atoi_decimal {n : ℕ} (hn : n < 2 ^ 31) : atoi (decimal n) = n := by
  have hfit : longToInt (clampLong n) = n := by
    simp only [clampLong, longToInt]
    omega
  obtain ⟨d, ds, hd, hdrop, hminus, hplus⟩ := exists_decimal_eq_cons n
  rw [atoi, hdrop]
  split
  · rename_i h; exact absurd (List.cons.inj h).1 hminus
  · rename_i h; exact absurd (List.cons.inj h).1 hplus
  · rw [← hd, takeWhile_decimal, digitsValue_decimal, hfit]

/-- `atoi` returns an `int`, whatever it reads. -/
theorem inInt_atoi (s : Bytes) : InInt (atoi s) := by
  have hrange : ∀ v, InInt (longToInt v) := fun v => by
    simp only [InInt, longToInt]
    omega
  unfold atoi
  split
  · exact hrange _
  · exact hrange _
  · exact hrange _

/-- **`atoi` reads back every `int`.** -/
theorem atoi_decimalInt {v : ℤ} (hv : InInt v) : atoi (decimalInt v) = v := by
  obtain ⟨hge, hlt⟩ := hv
  unfold decimalInt
  split
  · have hdrop : (45 :: decimal v.natAbs).dropWhile isspace = 45 :: decimal v.natAbs :=
      List.dropWhile_cons_of_neg (by decide)
    have hfit : longToInt (clampLong (-(v.natAbs : ℤ))) = v := by
      simp only [clampLong, longToInt]
      omega
    simp only [atoi, hdrop, takeWhile_decimal, digitsValue_decimal, hfit]
  · rw [atoi_decimal (by omega)]
    omega

/-- **`stoi` reads back every `int`.** -/
theorem stoi_decimalInt {v : ℤ} (hv : InInt v) : stoi (decimalInt v) = some v := by
  unfold decimalInt
  split
  · rename_i hneg
    have hdrop : (45 :: decimal v.natAbs).dropWhile isspace = 45 :: decimal v.natAbs :=
      List.dropWhile_cons_of_neg (by decide)
    have hvalue : -1 * (v.natAbs : ℤ) = v := by omega
    simp only [stoi, hdrop, takeWhile_decimal, digitsValue_decimal, hvalue]
    exact if_pos ⟨decimal_ne_nil _, hv⟩
  · rename_i hpos
    have hvalue : 1 * (v.toNat : ℤ) = v := by omega
    obtain ⟨d, ds, hd, hdrop, hminus, hplus⟩ := exists_decimal_eq_cons v.toNat
    rw [stoi, hdrop]
    split
    · rename_i h; exact absurd (List.cons.inj h).1 hminus
    · rename_i h; exact absurd (List.cons.inj h).1 hplus
    · simp only [← hd, takeWhile_decimal, digitsValue_decimal, hvalue]
      exact if_pos ⟨decimal_ne_nil _, hv⟩

end Str
