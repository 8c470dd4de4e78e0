import ApiGateway.Common.Bytes

/-!
# JSON texts

A reader for JSON texts as byte strings: a text is UTF-8, strings may hold escapes but no bare control
character, and white space may stand around every token. Strings are read as pieces, a byte or a code unit of
an escape, which `encode` puts together.

A string that is put between quotation marks as it is reads back as itself only if it is `Plain`: otherwise
it ends too early, loses the bytes that its escapes consist of, or swallows its own quotation mark
(`readPieces_cases`, `plain_of_readString`).
-/

namespace Json

open Str

/-! ## UTF-8 -/

/-- The ranges that the bytes behind a first byte must be in. -/
def followers (c : UInt8) : Option (List (ℕ × ℕ)) :=
  let n := c.toNat
  if n < 0x80 then some []
  else if n < 0xC2 then none
  else if n < 0xE0 then some [(0x80, 0xBF)]
  else if n = 0xE0 then some [(0xA0, 0xBF), (0x80, 0xBF)]
  else if n = 0xED then some [(0x80, 0x9F), (0x80, 0xBF)]
  else if n < 0xF0 then some [(0x80, 0xBF), (0x80, 0xBF)]
  else if n = 0xF0 then some [(0x90, 0xBF), (0x80, 0xBF), (0x80, 0xBF)]
  else if n < 0xF4 then some [(0x80, 0xBF), (0x80, 0xBF), (0x80, 0xBF)]
  else if n = 0xF4 then some [(0x80, 0x8F), (0x80, 0xBF), (0x80, 0xBF)]
  else none

/-- Read one byte. The state is the ranges of the bytes that are due. -/
def utf8Step : List (ℕ × ℕ) → UInt8 → Option (List (ℕ × ℕ))
  | [], c => followers c
  | (low, high) :: due, c => if low ≤ c.toNat ∧ c.toNat ≤ high then some due else none

def utf8Run : List (ℕ × ℕ) → Bytes → Option (List (ℕ × ℕ))
  | due, [] => some due
  | due, c :: s => (utf8Step due c).bind (utf8Run · s)

/-- The bytes are those of a sequence of code points. -/
def Utf8 (s : Bytes) : Prop := utf8Run [] s = some []

instance (s : Bytes) : Decidable (Utf8 s) := inferInstanceAs (Decidable (_ = _))

theorem utf8Run_append (due : List (ℕ × ℕ)) (s t : Bytes) :
    utf8Run due (s ++ t) = (utf8Run due s).bind (utf8Run · t) := by
  induction s generalizing due with
  | nil => rfl
  | cons c s ih =>
    simp only [List.cons_append, utf8Run]
    cases utf8Step due c with
    | none => rfl
    | some due' => exact ih due'

theorem followers_ascii {c : UInt8} (h : c.toNat < 128) : followers c = some [] := if_pos h

theorem utf8Run_ascii {s : Bytes} (h : ∀ c ∈ s, c.toNat < 128) : utf8Run [] s = some [] := by
  induction s with
  | nil => rfl
  | cons c s ih =>
    obtain ⟨hc, hs⟩ := List.forall_mem_cons.mp h
    rw [utf8Run, utf8Step, followers_ascii hc]
    exact ih hs

/-- Bytes behind a first byte are not ASCII. -/
def High (due : List (ℕ × ℕ)) : Prop := ∀ r ∈ due, 128 ≤ r.1

theorem high_followers {c : UInt8} {due : List (ℕ × ℕ)} (h : followers c = some due) : High due := by
  have hite {p : Prop} [Decidable p] {a b : Option (List (ℕ × ℕ))} (ha : ∀ l, a = some l → High l)
      (hb : ∀ l, b = some l → High l) : ∀ l, (if p then a else b) = some l → High l := by
    split
    · exact ha
    · exact hb
  have hsome {l : List (ℕ × ℕ)} (hl : High l) : ∀ l', some l = some l' → High l' :=
    fun l' h => Option.some.inj h ▸ hl
  have hnone : ∀ l, none = some l → High l := by simp
  refine hite (hsome ?_) (hite hnone (hite (hsome ?_) (hite (hsome ?_) (hite (hsome ?_) (hite (hsome ?_)
    (hite (hsome ?_) (hite (hsome ?_) (hite (hsome ?_) hnone)))))))) due h
  all_goals simp [High]

theorem high_run {due due' : List (ℕ × ℕ)} {s : Bytes} (hdue : High due)
    (h : utf8Run due s = some due') : High due' := by
  induction s generalizing due with
  | nil => exact Option.some.inj h ▸ hdue
  | cons c s ih =>
    obtain ⟨next, hnext, hrest⟩ := Option.bind_eq_some_iff.mp h
    refine ih ?_ hrest
    cases due with
    | nil => exact high_followers hnext
    | cons r due =>
      rw [utf8Step] at hnext
      split at hnext
      · exact Option.some.inj hnext ▸ fun r' hr' => hdue r' (List.mem_cons_of_mem _ hr')
      · simp at hnext

/-- An ASCII byte is never in the middle of a code point. -/
theorem utf8Step_ascii {due : List (ℕ × ℕ)} {c : UInt8} (hdue : High due) (hc : c.toNat < 128) :
    utf8Step due c = if due = [] then some [] else none := by
  cases due with
  | nil => exact followers_ascii hc
  | cons r due =>
    have hlow := hdue r List.mem_cons_self
    rw [utf8Step, if_neg (fun h => absurd h.1 (by omega))]
    rfl

/-- **ASCII text around a string does not matter.** -/
theorem utf8_append_iff {s t : Bytes} {c : UInt8} (u : Bytes) (hs : ∀ b ∈ s, b.toNat < 128)
    (ht : ∀ b ∈ c :: t, b.toNat < 128) : Utf8 (s ++ u ++ c :: t) ↔ Utf8 u := by
  obtain ⟨hc, ht⟩ := List.forall_mem_cons.mp ht
  rw [Utf8, Utf8, List.append_assoc, utf8Run_append, utf8Run_ascii hs, Option.bind_some,
    utf8Run_append]
  cases hu : utf8Run [] u with
  | none => simp
  | some due =>
    have hdue : High due := high_run (by simp [High]) hu
    rw [Option.bind_some, utf8Run, utf8Step_ascii hdue hc]
    by_cases hnil : due = []
    · simp [hnil, utf8Run_ascii ht]
    · simp [hnil]

/-! ## Strings -/

def quote : UInt8 := 34
def backslash : UInt8 := 92
def comma : UInt8 := 44
def colon : UInt8 := 58
def lbrace : UInt8 := 123
def rbrace : UInt8 := 125
def lbracket : UInt8 := 91
def rbracket : UInt8 := 93

/-- What stands between the quotation marks, piece by piece: a byte, or the code unit of an escape. -/
inductive Piece where
  | byte (b : UInt8)
  | unit (u : ℕ)
deriving DecidableEq, Repr

def hexDigit (c : UInt8) : Option ℕ :=
  if isdigit c then some (c.toNat - 48)
  else if 97 ≤ c.toNat ∧ c.toNat ≤ 102 then some (c.toNat - 87)
  else if 65 ≤ c.toNat ∧ c.toNat ≤ 70 then some (c.toNat - 55)
  else none

def hex4 (a b c d : UInt8) : Option ℕ :=
  match hexDigit a, hexDigit b, hexDigit c, hexDigit d with
  | some a, some b, some c, some d => some (4096 * a + 256 * b + 16 * c + d)
  | _, _, _, _ => none

/-- The byte that a two-byte escape stands for. -/
def escaped (c : UInt8) : Option UInt8 :=
  ([(quote, quote), (backslash, backslash), (47, 47), (98, 8), (102, 12), (110, 10), (114, 13),
    (116, 9)] : List (UInt8 × UInt8)).lookup c

/-- The pieces up to the closing quotation mark, and what is behind it. -/
def readPieces : Bytes → Option (List Piece × Bytes)
  | [] => none
  | c :: s =>
    if c = quote then some ([], s)
    else if c = backslash then
      match s with
      | 117 :: h₁ :: h₂ :: h₃ :: h₄ :: s =>
        match hex4 h₁ h₂ h₃ h₄ with
        | none => none
        | some u => (readPieces s).map fun r => (.unit u :: r.1, r.2)
      | e :: s =>
        match escaped e with
        | none => none
        | some b => (readPieces s).map fun r => (.byte b :: r.1, r.2)
      | [] => none
    else if c.toNat < 32 then none
    else (readPieces s).map fun r => (.byte c :: r.1, r.2)

/-- The bytes of a code point. -/
def encodePoint (n : ℕ) : Bytes :=
  if n < 0x80 then [UInt8.ofNat n]
  else if n < 0x800 then [UInt8.ofNat (0xC0 + n / 0x40), UInt8.ofNat (0x80 + n % 0x40)]
  else if n < 0x10000 then
    [UInt8.ofNat (0xE0 + n / 0x1000), UInt8.ofNat (0x80 + n / 0x40 % 0x40),
      UInt8.ofNat (0x80 + n % 0x40)]
  else
    [UInt8.ofNat (0xF0 + n / 0x40000), UInt8.ofNat (0x80 + n / 0x1000 % 0x40),
      UInt8.ofNat (0x80 + n / 0x40 % 0x40), UInt8.ofNat (0x80 + n % 0x40)]

/-- The string that the pieces are. Two units that are a surrogate pair are one code point; one that stands
alone is kept as it is. -/
def encode : List Piece → Bytes
  | [] => []
  | .byte b :: ps => b :: encode ps
  | .unit u :: .unit v :: ps =>
    if 0xD800 ≤ u ∧ u < 0xDC00 ∧ 0xDC00 ≤ v ∧ v < 0xE000 then
      encodePoint (0x10000 + (u - 0xD800) * 0x400 + (v - 0xDC00)) ++ encode ps
    else encodePoint u ++ encode (.unit v :: ps)
  | .unit u :: ps => encodePoint u ++ encode ps

/-- A string behind its opening quotation mark: its value, and what is behind it. -/
def readString (s : Bytes) : Option (Bytes × Bytes) :=
  (readPieces s).map fun r => (encode r.1, r.2)

/-- The byte stands for itself in a string. -/
def Plain (c : UInt8) : Prop := c ≠ quote ∧ c ≠ backslash ∧ 32 ≤ c.toNat

instance (c : UInt8) : Decidable (Plain c) := inferInstanceAs (Decidable (_ ∧ _ ∧ _))

theorem encode_map_byte (v : Bytes) : encode (v.map .byte) = v := by
  induction v with
  | nil => rfl
  | cons c v ih => rw [List.map_cons, encode, ih]

theorem readPieces_plain {c : UInt8} (h : Plain c) (s : Bytes) :
    readPieces (c :: s) = (readPieces s).map fun r => (.byte c :: r.1, r.2) := by
  rw [readPieces.eq_def]
  simp only [if_neg h.1, if_neg h.2.1, if_neg (not_lt.mpr h.2.2)]

theorem readPieces_quote (s : Bytes) : readPieces (quote :: s) = some ([], s) := by
  rw [readPieces.eq_def]
  simp only [if_true]

/-- A plain string reads back as itself. -/
theorem readString_plain {v : Bytes} (h : ∀ c ∈ v, Plain c) (s : Bytes) :
    readString (v ++ quote :: s) = some (v, s) := by
  have hpieces : readPieces (v ++ quote :: s) = some (v.map .byte, s) := by
    induction v with
    | nil => exact readPieces_quote s
    | cons c v ih =>
      obtain ⟨hc, hv⟩ := List.forall_mem_cons.mp h
      rw [List.cons_append, readPieces_plain hc, ih hv]
      rfl
  rw [readString, hpieces, Option.map_some, encode_map_byte]

/-- The room that a piece takes in the string, at most. -/
def Piece.weight : Piece → ℕ
  | .byte _ => 1
  | .unit _ => 4

def weight (ps : List Piece) : ℕ := ps.foldr (fun p n => p.weight + n) 0

theorem weight_cons (p : Piece) (ps : List Piece) : weight (p :: ps) = p.weight + weight ps := rfl

theorem length_encodePoint_le (n : ℕ) : (encodePoint n).length ≤ 4 := by
  unfold encodePoint
  split_ifs <;> simp

theorem length_encode_le (ps : List Piece) : (encode ps).length ≤ weight ps := by
  fun_induction encode ps with
  | case1 => exact Nat.zero_le _
  | case2 b ps ih =>
    rw [weight_cons, List.length_cons, Piece.weight]
    omega
  | case3 u v ps _ ih =>
    have := length_encodePoint_le (0x10000 + (u - 0xD800) * 0x400 + (v - 0xDC00))
    rw [weight_cons, weight_cons, List.length_append, Piece.weight, Piece.weight]
    omega
  | case4 u v ps _ ih =>
    have := length_encodePoint_le u
    rw [weight_cons, List.length_append, Piece.weight]
    omega
  | case5 u ps _ ih =>
    have := length_encodePoint_le u
    rw [weight_cons, List.length_append, Piece.weight]
    omega

theorem encode_concat (ps : List Piece) (b : UInt8) : encode (ps ++ [.byte b]) = encode ps ++ [b] := by
  fun_induction encode ps with
  | case1 => rfl
  | case2 c ps ih => rw [List.cons_append, encode, ih, List.cons_append]
  | case3 u v ps h ih =>
    rw [List.cons_append, List.cons_append, encode, if_pos h, ih, List.append_assoc]
  | case4 u v ps h ih =>
    rw [List.cons_append, List.cons_append, encode, if_neg h, ← List.cons_append, ih,
      List.append_assoc]
  | case5 u ps h ih =>
    cases ps with
    | nil => simp [encode]
    | cons p ps =>
      cases p with
      | byte c =>
        simp only [List.cons_append, encode, List.append_assoc] at ih ⊢
        rw [ih]
      | unit v => exact (h v ps rfl).elim

/-- What a string can begin with. -/
theorem readPieces_cons {c : UInt8} {s rest : Bytes} {ps : List Piece}
    (h : readPieces (c :: s) = some (ps, rest)) :
    (c = quote ∧ ps = [] ∧ rest = s) ∨
    (c = backslash ∧ ∃ h₁ h₂ h₃ h₄ t u qs, s = [117, h₁, h₂, h₃, h₄] ++ t ∧ hex4 h₁ h₂ h₃ h₄ = some u ∧
      readPieces t = some (qs, rest) ∧ ps = .unit u :: qs) ∨
    (c = backslash ∧ ∃ e t b qs, s = e :: t ∧ escaped e = some b ∧
      readPieces t = some (qs, rest) ∧ ps = .byte b :: qs) ∨
    (Plain c ∧ ∃ qs, readPieces s = some (qs, rest) ∧ ps = .byte c :: qs) := by
  have hmap : ∀ {p : Piece} {t : Bytes},
      ((readPieces t).map fun r => (p :: r.1, r.2)) = some (ps, rest) →
        ∃ qs, readPieces t = some (qs, rest) ∧ ps = p :: qs := by
    intro p t ht
    obtain ⟨r, hr, heq⟩ := Option.map_eq_some_iff.mp ht
    obtain ⟨rfl, rfl⟩ := Prod.mk.inj heq
    exact ⟨r.1, hr, rfl⟩
  rw [readPieces.eq_def] at h
  dsimp only at h
  split at h
  · rename_i hc
    obtain ⟨rfl, rfl⟩ := Prod.mk.inj (Option.some.inj h)
    exact .inl ⟨hc, rfl, rfl⟩
  · rename_i hquote
    split at h
    · rename_i hc
      split at h
      · rename_i h₁ h₂ h₃ h₄ t
        split at h
        · simp at h
        · rename_i u hu
          obtain ⟨qs, hqs, rfl⟩ := hmap h
          exact .inr (.inl ⟨hc, h₁, h₂, h₃, h₄, t, u, qs, rfl, hu, hqs, rfl⟩)
      · rename_i e t _
        split at h
        · simp at h
        · rename_i b hb
          obtain ⟨qs, hqs, rfl⟩ := hmap h
          exact .inr (.inr (.inl ⟨hc, e, t, b, qs, rfl, hb, hqs, rfl⟩))
      · simp at h
    · rename_i hbackslash
      split at h
      · simp at h
      · rename_i hcontrol
        exact .inr (.inr (.inr ⟨⟨hquote, hbackslash, not_lt.mp hcontrol⟩, hmap h⟩))

/-- A string that ends behind `front`, or later. -/
theorem exists_of_append_quote {v front t x : Bytes} (h : v ++ quote :: x = front ++ t)
    (hfront : quote ∉ front) : ∃ v', v = front ++ v' ∧ t = v' ++ quote :: x := by
  rcases List.append_eq_append_iff.mp h with ⟨a, rfl, ht⟩ | ⟨v', rfl, rfl⟩
  · cases a with
    | nil => exact ⟨[], by simp, by simpa using ht.symm⟩
    | cons d a =>
      obtain ⟨rfl, -⟩ := List.cons.inj ht
      exact absurd (by simp) hfront
  · exact ⟨v', rfl, rfl⟩

theorem quote_not_mem_of_hex4 {h₁ h₂ h₃ h₄ : UInt8} {u : ℕ} (h : hex4 h₁ h₂ h₃ h₄ = some u) :
    quote ∉ [117, h₁, h₂, h₃, h₄] := by
  have hnone : hexDigit quote = none := by decide
  intro hmem
  simp only [List.mem_cons, List.not_mem_nil, or_false] at hmem
  rcases hmem with hmem | rfl | rfl | rfl | rfl
  · exact absurd hmem (by decide)
  · simp [hex4, hnone] at h
  · simp [hex4, hnone] at h
  · simp [hex4, hnone] at h
  · simp [hex4, hnone] at h

/-- What becomes of a string `v` that is put between quotation marks as it is, with a comma and another
string behind: it reads back as itself; it comes out shorter; or it has swallowed its quotation mark, and
the comma with it. -/
def Comes (v : Bytes) (ps : List Piece) : Prop :=
  ((∀ c ∈ v, Plain c) ∧ ps = v.map .byte) ∨ weight ps < v.length ∨
    v.getLast? = some backslash ∧ ∃ qs, ps = qs ++ [.byte comma]

theorem weight_map_byte (v : Bytes) : weight (v.map .byte) = v.length := by
  induction v with
  | nil => rfl
  | cons c v ih => rw [List.map_cons, weight_cons, ih, Piece.weight, List.length_cons, Nat.add_comm]

/-- Behind an escape, which takes more room than what it stands for, the string comes out shorter. -/
theorem Comes.escape {v : Bytes} {p : Piece} {qs : List Piece} (h : Comes v qs) (front : Bytes)
    (hp : p.weight < front.length) : Comes (front ++ v) (p :: qs) := by
  rcases h with ⟨-, rfl⟩ | h | ⟨hlast, qs', rfl⟩
  · refine .inr (.inl ?_)
    rw [weight_cons, weight_map_byte, List.length_append]
    omega
  · refine .inr (.inl ?_)
    rw [weight_cons, List.length_append]
    omega
  · refine .inr (.inr ⟨?_, p :: qs', rfl⟩)
    rw [List.getLast?_append, hlast]
    rfl

/-- Behind a plain byte it comes out as it does without. -/
theorem Comes.plain {c : UInt8} {v : Bytes} {qs : List Piece} (hc : Plain c) (h : Comes v qs) :
    Comes (c :: v) (.byte c :: qs) := by
  rcases h with ⟨hv, rfl⟩ | h | ⟨hlast, qs', rfl⟩
  · exact .inl ⟨List.forall_mem_cons.mpr ⟨hc, hv⟩, rfl⟩
  · refine .inr (.inl ?_)
    rw [weight_cons, List.length_cons, Piece.weight]
    omega
  · refine .inr (.inr ⟨?_, .byte c :: qs', rfl⟩)
    rw [List.getLast?_cons, hlast]
    rfl

/-- **A string put between quotation marks as it is.** The induction is on its length; an escape is several
bytes long. -/
theorem readPieces_cases {v w rest : Bytes} {ps : List Piece}
    (h : readPieces (v ++ quote :: comma :: quote :: w) = some (ps, rest)) : Comes v ps := by
  induction hn : v.length using Nat.strongRecOn generalizing v ps with
  | ind n ih =>
    subst hn
    cases v with
    | nil =>
      obtain ⟨rfl, -⟩ := Prod.mk.inj (Option.some.inj ((readPieces_quote _).symm.trans h))
      exact .inl ⟨by simp, rfl⟩
    | cons c v =>
      rcases readPieces_cons h with ⟨-, rfl, -⟩ | ⟨rfl, h₁, h₂, h₃, h₄, t, u, qs, hs, hu, hqs, rfl⟩
        | ⟨rfl, e, t, b, qs, hs, hb, hqs, rfl⟩ | ⟨hc, qs, hqs, rfl⟩
      · exact .inr (.inl (Nat.succ_pos _))
      · obtain ⟨v', rfl, rfl⟩ := exists_of_append_quote hs (quote_not_mem_of_hex4 hu)
        have hlt : v'.length < (backslash :: ([117, h₁, h₂, h₃, h₄] ++ v')).length := by
          simp only [List.length_cons, List.length_append]
          omega
        exact (ih v'.length hlt hqs rfl).escape [backslash, 117, h₁, h₂, h₃, h₄] (by simp [Piece.weight])
      · cases v with
        | nil =>
          -- the escape has taken the closing quotation mark
          obtain ⟨rfl, rfl⟩ := List.cons.inj hs
          have hcomma : readPieces (comma :: quote :: w) = some ([.byte comma], w) := by
            rw [readPieces_plain (by decide), readPieces_quote]
            rfl
          obtain ⟨rfl, -⟩ := Prod.mk.inj (Option.some.inj (hcomma.symm.trans hqs))
          exact .inr (.inr ⟨rfl, [.byte b], rfl⟩)
        | cons d v =>
          obtain ⟨rfl, rfl⟩ := List.cons.inj hs
          have hlt : v.length < (backslash :: d :: v).length := by
            simp only [List.length_cons]
            omega
          exact (ih v.length hlt hqs rfl).escape [backslash, d] (by simp [Piece.weight])
      · exact (ih v.length (by simp) hqs rfl).plain hc

/-- **Only a plain string reads back as itself.** One that comes out shorter is another; one that ends in a
backslash does not end in a comma. -/
theorem plain_of_readString {v w rest : Bytes}
    (h : readString (v ++ quote :: comma :: quote :: w) = some (v, rest)) : ∀ c ∈ v, Plain c := by
  obtain ⟨⟨ps, rest'⟩, hps, heq⟩ := Option.map_eq_some_iff.mp h
  have hv : encode ps = v := (Prod.mk.inj heq).1
  rcases readPieces_cases hps with ⟨hplain, -⟩ | hshort | ⟨hlast, qs, rfl⟩
  · exact hplain
  · have := length_encode_le ps
    rw [hv] at this
    omega
  · rw [← hv, encode_concat, List.getLast?_concat] at hlast
    exact absurd (Option.some.inj hlast) (by decide)

/-! ## Values -/

/-- A JSON value. A number is kept as it is written. -/
inductive Value where
  | null
  | bool (b : Bool)
  | number (text : Bytes)
  | string (s : Bytes)
  | array (elements : List Value)
  | object (members : List (Bytes × Value))

/-- The white space between tokens. -/
def skipSpace (s : Bytes) : Bytes := s.dropWhile fun c => c ∈ ([32, 9, 10, 13] : Bytes)

/-- One digit or more. -/
def readDigits (s : Bytes) : Option (Bytes × Bytes) :=
  if s.takeWhile isdigit = [] then none else some (s.takeWhile isdigit, s.dropWhile isdigit)

/-- The digits in front of the point: a zero, or digits that do not begin with one. -/
def readInteger : Bytes → Option (Bytes × Bytes)
  | 48 :: s => some ([48], s)
  | s => readDigits s

def readFraction : Bytes → Option (Bytes × Bytes)
  | 46 :: s => (readDigits s).map fun r => (46 :: r.1, r.2)
  | s => some ([], s)

def readExponent : Bytes → Option (Bytes × Bytes)
  | e :: s =>
    if e = 101 ∨ e = 69 then
      match s with
      | sign :: t =>
        if sign = 43 ∨ sign = 45 then (readDigits t).map fun r => (e :: sign :: r.1, r.2)
        else (readDigits s).map fun r => (e :: r.1, r.2)
      | [] => none
    else some ([], e :: s)
  | [] => some ([], [])

def readUnsigned (s : Bytes) : Option (Bytes × Bytes) :=
  (readInteger s).bind fun i => (readFraction i.2).bind fun f => (readExponent f.2).map fun e =>
    (i.1 ++ f.1 ++ e.1, e.2)

def readNumber : Bytes → Option (Value × Bytes)
  | 45 :: s => (readUnsigned s).map fun r => (.number (45 :: r.1), r.2)
  | s => (readUnsigned s).map fun r => (.number r.1, r.2)

/-- One of the three names, or a number. -/
def readScalar (s : Bytes) : Option (Value × Bytes) :=
  if bytes "null" <+: s then some (.null, s.drop 4)
  else if bytes "true" <+: s then some (.bool true, s.drop 4)
  else if bytes "false" <+: s then some (.bool false, s.drop 5)
  else readNumber s

mutual

/-- A value, and what is behind it. The fuel bounds the nesting and the number of elements. -/
def readValue : ℕ → Bytes → Option (Value × Bytes)
  | 0, _ => none
  | fuel + 1, s =>
    match skipSpace s with
    | [] => none
    | c :: s =>
      if c = quote then (readString s).map fun r => (.string r.1, r.2)
      else if c = lbrace then
        match skipSpace s with
        | [] => none
        | d :: t =>
          if d = rbrace then some (.object [], t)
          else (readMembers fuel (d :: t)).map fun r => (.object r.1, r.2)
      else if c = lbracket then
        match skipSpace s with
        | [] => none
        | d :: t =>
          if d = rbracket then some (.array [], t)
          else (readElements fuel (d :: t)).map fun r => (.array r.1, r.2)
      else readScalar (c :: s)

/-- The members of an object up to the closing brace, and what is behind it. -/
def readMembers : ℕ → Bytes → Option (List (Bytes × Value) × Bytes)
  | 0, _ => none
  | fuel + 1, s =>
    match skipSpace s with
    | [] => none
    | c :: s =>
      if c = quote then
        (readString s).bind fun name =>
          match skipSpace name.2 with
          | [] => none
          | d :: t =>
            if d = colon then
              (readValue fuel t).bind fun value =>
                match skipSpace value.2 with
                | [] => none
                | e :: u =>
                  if e = comma then
                    (readMembers fuel u).map fun r => ((name.1, value.1) :: r.1, r.2)
                  else if e = rbrace then some ([(name.1, value.1)], u)
                  else none
            else none
      else none

/-- The elements of an array up to the closing bracket, and what is behind it. -/
def readElements : ℕ → Bytes → Option (List Value × Bytes)
  | 0, _ => none
  | fuel + 1, s =>
    (readValue fuel s).bind fun value =>
      match skipSpace value.2 with
      | [] => none
      | e :: u =>
        if e = comma then (readElements fuel u).map fun r => (value.1 :: r.1, r.2)
        else if e = rbracket then some ([value.1], u)
        else none

end

/-- The text is a JSON object with these members. -/
def IsObject (text : Bytes) (members : List (Bytes × Value)) : Prop :=
  Utf8 text ∧ ∃ fuel rest, readValue fuel text = some (.object members, rest) ∧ skipSpace rest = []

/-! ## Members that are strings -/

/-- A member as it is written, without any escaping. -/
def member (name value : Bytes) : Bytes :=
  quote :: name ++ quote :: colon :: quote :: value ++ [quote]

/-- Members with a comma behind each. -/
def written (ms : List (Bytes × Bytes)) : Bytes := ms.flatMap fun m => member m.1 m.2 ++ [comma]

theorem skipSpace_cons {c : UInt8} (h : c ∉ ([32, 9, 10, 13] : Bytes)) (s : Bytes) :
    skipSpace (c :: s) = c :: s :=
  List.dropWhile_cons_of_neg (by simpa using h)

theorem readValue_quote (fuel : ℕ) (s : Bytes) :
    readValue (fuel + 1) (quote :: s) = (readString s).map fun r => (.string r.1, r.2) := by
  rw [readValue, skipSpace_cons (by decide)]
  simp only [if_true]

/-- A member with a plain name, up to its value. -/
theorem readMembers_name {name : Bytes} (hname : ∀ c ∈ name, Plain c) (fuel : ℕ) (s : Bytes) :
    readMembers (fuel + 1) (quote :: name ++ quote :: colon :: s)
      = (readValue fuel s).bind fun value =>
          match skipSpace value.2 with
          | [] => none
          | e :: u =>
            if e = comma then (readMembers fuel u).map fun r => ((name, value.1) :: r.1, r.2)
            else if e = rbrace then some ([(name, value.1)], u)
            else none := by
  rw [List.cons_append, readMembers, skipSpace_cons (by decide)]
  simp only [if_true, readString_plain hname, Option.bind_some]
  rw [skipSpace_cons (by decide)]
  simp only [if_true]

theorem member_append (name value s : Bytes) :
    member name value ++ s = quote :: name ++ quote :: colon :: (quote :: (value ++ quote :: s)) := by
  simp [member]

/-- A plain member with a comma behind it is read, and the others after it. -/
theorem readMembers_member {name value : Bytes} (hname : ∀ c ∈ name, Plain c)
    (hvalue : ∀ c ∈ value, Plain c) (fuel : ℕ) (s : Bytes) :
    readMembers (fuel + 2) (member name value ++ comma :: s)
      = (readMembers (fuel + 1) s).map fun r => ((name, .string value) :: r.1, r.2) := by
  rw [member_append, readMembers_name hname, readValue_quote, readString_plain hvalue]
  simp only [Option.map_some, Option.bind_some]
  rw [skipSpace_cons (by decide)]
  simp only [if_true]

/-- The last member. -/
theorem readMembers_last {name value : Bytes} (hname : ∀ c ∈ name, Plain c)
    (hvalue : ∀ c ∈ value, Plain c) (fuel : ℕ) (s : Bytes) :
    readMembers (fuel + 2) (member name value ++ rbrace :: s) = some ([(name, .string value)], s) := by
  have hne : rbrace ≠ comma := by decide
  rw [member_append, readMembers_name hname, readValue_quote, readString_plain hvalue]
  simp only [Option.map_some, Option.bind_some]
  rw [skipSpace_cons (by decide)]
  simp only [if_neg hne, if_true]

theorem written_cons_append (m : Bytes × Bytes) (pre : List (Bytes × Bytes)) (s : Bytes) :
    written (m :: pre) ++ s = member m.1 m.2 ++ comma :: (written pre ++ s) := by
  simp [written]

/-- A member takes two levels of the recursion. -/
theorem exists_fuel_of_readMembers {name value s : Bytes} {fuel : ℕ} {r : List (Bytes × Value) × Bytes}
    (hname : ∀ c ∈ name, Plain c) (h : readMembers fuel (member name value ++ s) = some r) :
    ∃ n, fuel = n + 2 := by
  rcases fuel with _ | _ | fuel
  · simp [readMembers] at h
  · rw [member_append, readMembers_name hname] at h
    simp [readValue] at h
  · exact ⟨fuel, rfl⟩

/-- Whatever is read of a member with a plain name begins with its string. -/
theorem exists_of_readMembers_member {name value s rest : Bytes} {fuel : ℕ}
    {ms : List (Bytes × Value)} (hname : ∀ c ∈ name, Plain c)
    (h : readMembers fuel (member name value ++ s) = some (ms, rest)) :
    ∃ v t ms', readString (value ++ quote :: s) = some (v, t) ∧ ms = (name, .string v) :: ms' := by
  obtain ⟨fuel, rfl⟩ := exists_fuel_of_readMembers hname h
  rw [member_append, readMembers_name hname, readValue_quote] at h
  obtain ⟨value', hvalue', h⟩ := Option.bind_eq_some_iff.mp h
  obtain ⟨⟨v, t⟩, hv, rfl⟩ := Option.map_eq_some_iff.mp hvalue'
  refine ⟨v, t, ?_⟩
  split at h
  · simp at h
  · split at h
    · obtain ⟨r, -, heq⟩ := Option.map_eq_some_iff.mp h
      exact ⟨r.1, hv, (Prod.mk.inj heq).1.symm⟩
    · split at h
      · exact ⟨[], hv, (Prod.mk.inj (Option.some.inj h)).1.symm⟩
      · simp at h

/-- Plain members in front are read first. -/
theorem exists_of_readMembers_written {pre : List (Bytes × Bytes)} {s rest : Bytes} {fuel : ℕ}
    {ms : List (Bytes × Value)} (hpre : ∀ m ∈ pre, (∀ c ∈ m.1, Plain c) ∧ ∀ c ∈ m.2, Plain c)
    (h : readMembers fuel (written pre ++ s) = some (ms, rest)) :
    ∃ fuel' ms', readMembers fuel' s = some (ms', rest) ∧
      ms = pre.map (fun m => (m.1, Value.string m.2)) ++ ms' := by
  induction pre generalizing fuel ms with
  | nil => exact ⟨fuel, ms, h, rfl⟩
  | cons m pre ih =>
    obtain ⟨⟨hname, hvalue⟩, hrest⟩ := List.forall_mem_cons.mp hpre
    rw [written_cons_append] at h
    obtain ⟨fuel, rfl⟩ := exists_fuel_of_readMembers hname h
    rw [readMembers_member hname hvalue] at h
    obtain ⟨⟨ms₁, rest₁⟩, hms, heq⟩ := Option.map_eq_some_iff.mp h
    obtain ⟨rfl, rfl⟩ := Prod.mk.inj heq
    obtain ⟨fuel', ms', hms', rfl⟩ := ih hrest hms
    exact ⟨fuel', ms', hms', rfl⟩

theorem readMembers_written {pre : List (Bytes × Bytes)} {s rest : Bytes} {fuel : ℕ}
    {ms : List (Bytes × Value)} (hpre : ∀ m ∈ pre, (∀ c ∈ m.1, Plain c) ∧ ∀ c ∈ m.2, Plain c)
    (h : readMembers (fuel + 1) s = some (ms, rest)) :
    readMembers (fuel + 1 + pre.length) (written pre ++ s)
      = some (pre.map (fun m => (m.1, Value.string m.2)) ++ ms, rest) := by
  induction pre with
  | nil => exact h
  | cons m pre ih =>
    obtain ⟨⟨hname, hvalue⟩, hrest⟩ := List.forall_mem_cons.mp hpre
    have hfuel : fuel + 1 + (m :: pre).length = fuel + pre.length + 2 := by
      rw [List.length_cons]
      omega
    have hfuel' : fuel + pre.length + 1 = fuel + 1 + pre.length := by omega
    rw [written_cons_append, hfuel, readMembers_member hname hvalue, hfuel', ih hrest]
    rfl

theorem readValue_lbrace (fuel : ℕ) (s : Bytes) :
    readValue (fuel + 1) (lbrace :: quote :: s)
      = (readMembers fuel (quote :: s)).map fun r => (.object r.1, r.2) := by
  have hquote : lbrace ≠ quote := by decide
  have hbrace : quote ≠ rbrace := by decide
  rw [readValue, skipSpace_cons (by decide)]
  simp only [if_neg hquote, if_true]
  rw [skipSpace_cons (by decide)]
  simp only [if_neg hbrace]

/-- Plain ASCII text. -/
def Clean (s : Bytes) : Prop := ∀ c ∈ s, Plain c ∧ c.toNat < 128

theorem Clean.plain {s : Bytes} (h : Clean s) : ∀ c ∈ s, Plain c := fun c hc => (h c hc).1

theorem Clean.ascii {s : Bytes} (h : Clean s) : ∀ c ∈ s, c.toNat < 128 := fun c hc => (h c hc).2

theorem ascii_member {name value : Bytes} (hname : Clean name) (hvalue : Clean value) :
    ∀ c ∈ member name value, c.toNat < 128 := by
  have hquote : quote.toNat < 128 := by decide
  have hcolon : colon.toNat < 128 := by decide
  simp only [member, List.cons_append, List.forall_mem_append, List.forall_mem_cons]
  exact ⟨hquote, ⟨hname.ascii, hquote, hcolon, hquote, hvalue.ascii⟩, hquote, by simp⟩

/-- An object written with string members, none of which is escaped. -/
def objectText (pre : List (Bytes × Bytes)) (name value : Bytes) (last : Bytes × Bytes) : Bytes :=
  lbrace :: (written pre ++ (member name value ++ comma :: (member last.1 last.2 ++ [rbrace])))

theorem exists_written_eq_cons (pre : List (Bytes × Bytes)) (name value s : Bytes) :
    ∃ t, written pre ++ (member name value ++ s) = quote :: t := by
  cases pre with
  | nil => exact ⟨_, rfl⟩
  | cons m pre => exact ⟨_, rfl⟩

section Object

variable {pre : List (Bytes × Bytes)} {name value : Bytes} {last : Bytes × Bytes}

/-- The text is UTF-8 exactly when the one value that is not known to be ASCII is. -/
theorem utf8_objectText_iff (hpre : ∀ m ∈ pre, Clean m.1 ∧ Clean m.2) (hname : Clean name)
    (hlast : Clean last.1 ∧ Clean last.2) : Utf8 (objectText pre name value last) ↔ Utf8 value := by
  have htext : objectText pre name value last
      = lbrace :: written pre ++ (quote :: name ++ [quote, colon, quote]) ++ value
        ++ quote :: comma :: (member last.1 last.2 ++ [rbrace]) := by
    simp [objectText, member]
  have hquote : quote.toNat < 128 := by decide
  have hcolon : colon.toNat < 128 := by decide
  have hcomma : comma.toNat < 128 := by decide
  have hlbrace : lbrace.toNat < 128 := by decide
  have hrbrace : rbrace.toNat < 128 := by decide
  have hwritten : ∀ c ∈ written pre, c.toNat < 128 := by
    intro c hc
    obtain ⟨m, hm, hc⟩ := List.mem_flatMap.mp hc
    rcases List.mem_append.mp hc with hc | hc
    · exact ascii_member (hpre m hm).1 (hpre m hm).2 c hc
    · rw [List.mem_singleton.mp hc]
      exact hcomma
  rw [htext]
  refine utf8_append_iff value ?_ ?_
  · simp only [List.cons_append, List.forall_mem_append, List.forall_mem_cons]
    exact ⟨hlbrace, hwritten, hquote, hname.ascii, hquote, hcolon, hquote, by simp⟩
  · simp only [List.forall_mem_append, List.forall_mem_cons]
    exact ⟨hquote, hcomma, ascii_member hlast.1 hlast.2, hrbrace, by simp⟩

/-- With a plain value the text is the object that it is meant to be. -/
theorem isObject_of_plain (hpre : ∀ m ∈ pre, Clean m.1 ∧ Clean m.2) (hname : Clean name)
    (hlast : Clean last.1 ∧ Clean last.2) (hvalue : ∀ c ∈ value, Plain c) (hutf8 : Utf8 value) :
    IsObject (objectText pre name value last)
      (pre.map (fun m => (m.1, Value.string m.2))
        ++ [(name, .string value), (last.1, .string last.2)]) := by
  refine ⟨(utf8_objectText_iff hpre hname hlast).mpr hutf8, 0 + 2 + pre.length + 1 + 1, [], ?_, rfl⟩
  have hend : readMembers (0 + 1 + 1 + 1)
      (member name value ++ comma :: (member last.1 last.2 ++ [rbrace]))
        = some ([(name, .string value), (last.1, .string last.2)], []) := by
    rw [readMembers_member hname.plain hvalue, readMembers_last hlast.1.plain hlast.2.plain]
    rfl
  have hall := readMembers_written (fun m hm => ⟨(hpre m hm).1.plain, (hpre m hm).2.plain⟩) hend
  obtain ⟨t, ht⟩ := exists_written_eq_cons pre name value
    (comma :: (member last.1 last.2 ++ [rbrace]))
  have hfuel : 0 + 2 + pre.length + 1 = 0 + 1 + 1 + 1 + pre.length := by omega
  rw [objectText, ht, readValue_lbrace, ← ht, hfuel, hall]
  rfl

/-- **A value that is written as it is.** The text is an object in which `name` has this value if and only
if the value is plain and UTF-8. -/
theorem isObject_objectText_iff (hpre : ∀ m ∈ pre, Clean m.1 ∧ Clean m.2) (hname : Clean name)
    (hlast : Clean last.1 ∧ Clean last.2) (hfresh : ∀ m ∈ pre, m.1 ≠ name) (hother : last.1 ≠ name) :
    (∃ ms, IsObject (objectText pre name value last) ms ∧
      ms.filter (·.1 = name) = [(name, .string value)]) ↔
    (∀ c ∈ value, Plain c) ∧ Utf8 value := by
  have hpre' : (pre.map fun m => (m.1, Value.string m.2)).filter (·.1 = name) = [] := by
    rw [List.filter_eq_nil_iff, List.forall_mem_map]
    intro m hm
    simpa using hfresh m hm
  constructor
  · rintro ⟨ms, ⟨hutf8, fuel, rest, hread, -⟩, hms⟩
    refine ⟨?_, (utf8_objectText_iff hpre hname hlast).mp hutf8⟩
    obtain ⟨t, ht⟩ := exists_written_eq_cons pre name value
      (comma :: (member last.1 last.2 ++ [rbrace]))
    cases fuel with
    | zero => simp [readValue] at hread
    | succ fuel =>
      rw [objectText, ht, readValue_lbrace, ← ht] at hread
      obtain ⟨⟨ms₁, rest₁⟩, hmembers, heq⟩ := Option.map_eq_some_iff.mp hread
      obtain rfl : ms₁ = ms := Value.object.inj (Prod.mk.inj heq).1
      obtain ⟨fuel', ms', hms', rfl⟩ := exists_of_readMembers_written
        (fun m hm => ⟨(hpre m hm).1.plain, (hpre m hm).2.plain⟩) hmembers
      obtain ⟨v, t', ms'', hv, rfl⟩ := exists_of_readMembers_member hname.plain hms'
      -- the first member with this name is the one that is read here
      rw [List.filter_append, hpre', List.nil_append, List.filter_cons_of_pos (by simp)] at hms
      obtain rfl : v = value := Value.string.inj (Prod.mk.inj (List.cons.inj hms).1).2
      exact plain_of_readString hv
  · rintro ⟨hvalue, hutf8⟩
    refine ⟨_, isObject_of_plain hpre hname hlast hvalue hutf8, ?_⟩
    rw [List.filter_append, hpre', List.nil_append]
    simp [hother]

end Object

end Json
