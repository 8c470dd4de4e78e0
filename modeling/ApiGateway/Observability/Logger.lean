import ApiGateway.Common.Json

/-!
# The structured logger

One JSON object for each event. `log` escapes the message, but the fields are put into the line as they come.
What `log` adds itself is plain ASCII text.

Reference: `include/observability/Logger.hpp`.
-/

namespace ApiGateway.Observability

open Str Json

inductive Level where
  | DEBUG
  | INFO
  | WARN
  | ERROR
deriving DecidableEq, Repr

namespace Level

/-- The order of the enumeration. -/
def rank : Level → ℕ
  | DEBUG => 0
  | INFO => 1
  | WARN => 2
  | ERROR => 3

def name : Level → Bytes
  | DEBUG => bytes "DEBUG"
  | INFO => bytes "INFO"
  | WARN => bytes "WARN"
  | ERROR => bytes "ERROR"

end Level

/-- The fields of `std::tm` that are printed. -/
structure Tm where
  year : ℤ
  mon : ℤ
  mday : ℤ
  hour : ℤ
  min : ℤ
  sec : ℤ
deriving DecidableEq, Repr

namespace Logger

/-- The `%0<width>d` conversion of `snprintf`. -/
def zeroPadded (width : ℕ) (v : ℤ) : Bytes :=
  let sign : Bytes := if v < 0 then [45] else []
  let digits := decimal v.natAbs
  sign ++ List.replicate (width - (sign.length + digits.length)) 48 ++ digits

/-- `isoTime`; the buffer of `snprintf` holds 63 characters. -/
def isoTime (tm : Tm) (ms : ℤ) : Bytes :=
  (zeroPadded 4 (tm.year + 1900) ++ bytes "-" ++ zeroPadded 2 (tm.mon + 1) ++ bytes "-"
    ++ zeroPadded 2 tm.mday ++ bytes "T" ++ zeroPadded 2 tm.hour ++ bytes ":" ++ zeroPadded 2 tm.min
    ++ bytes ":" ++ zeroPadded 2 tm.sec ++ bytes "." ++ zeroPadded 3 ms ++ bytes "Z").take 63

def escape (s : Bytes) : Bytes :=
  s.flatMap fun c => if c = quote ∨ c = backslash then [backslash, c] else [c]

/-- The line that `log` writes, at the time `tm` and `ms`. -/
def log (minLevel lvl : Level) (tm : Tm) (ms : ℤ) (msg fields : Bytes) : Option Bytes :=
  if lvl.rank < minLevel.rank then none
  else some (bytes "\x7b\"ts\":\"" ++ isoTime tm ms ++ bytes "\"," ++ bytes "\"level\":\"" ++ lvl.name
    ++ bytes "\"," ++ bytes "\"msg\":\"" ++ escape msg ++ bytes "\""
    ++ (if fields ≠ [] then bytes "," ++ fields else []) ++ bytes "\x7d")

/-! ## Plain text -/

theorem clean_append {s t : Bytes} (hs : Clean s) (ht : Clean t) : Clean (s ++ t) :=
  List.forall_mem_append.mpr ⟨hs, ht⟩

/-- Digits are plain text. -/
theorem clean_of_isdigit {s : Bytes} (h : ∀ c ∈ s, isdigit c = true) : Clean s := by
  intro c hc
  obtain ⟨hlow, hhigh⟩ := (isdigit_iff c).mp (h c hc)
  refine ⟨⟨?_, ?_, by omega⟩, by omega⟩
  · rintro rfl
    exact absurd hlow (by decide)
  · rintro rfl
    exact absurd hhigh (by decide)

theorem clean_decimal (n : ℕ) : Clean (decimal n) :=
  clean_of_isdigit fun _ hc => isdigit_of_mem_decimal hc

theorem clean_zeroPadded (width : ℕ) (v : ℤ) : Clean (zeroPadded width v) := by
  have hsign : Clean (if v < 0 then [45] else []) := by
    split
    · simp [Clean, Plain, quote, backslash]
    · simp [Clean]
  refine clean_append (clean_append hsign (clean_of_isdigit fun c hc => ?_)) (clean_decimal _)
  rw [List.eq_of_mem_replicate hc]
  decide

theorem clean_isoTime (tm : Tm) (ms : ℤ) : Clean (isoTime tm ms) := by
  have hsep : ∀ s ∈ [bytes "-", bytes "T", bytes ":", bytes ".", bytes "Z"], Clean s := by
    simp [Clean, Plain, bytes, quote, backslash]
  refine fun c hc => ?_
  have hall := List.mem_of_mem_take hc
  simp only [List.mem_append] at hall
  rcases hall with ((((((((((((h | h) | h) | h) | h) | h) | h) | h) | h) | h) | h) | h) | h) | h
  all_goals first | exact clean_zeroPadded _ _ c h | exact hsep _ (by simp) c h

end Logger

end ApiGateway.Observability
