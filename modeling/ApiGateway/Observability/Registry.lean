import ApiGateway.Common.Lines
import ApiGateway.Http.Message
import ApiGateway.Observability.Metrics
import Mathlib.Data.Fintype.Sum
import Mathlib.Tactic.DeriveFintype

/-!
# The metrics registry

The counters of the gateway, the calls that change them, and the text that the metrics endpoints return. A
reader of that text takes the lines that are not comments, and a line's name up to the first space: it gets
every counter back (`scrape_reads_counters`).

Counters have 64 bits in the source and are natural numbers here. A `double` is a rational number, and how one
is printed is a parameter.

Reference: `include/observability/Metrics.hpp`.
-/

namespace ApiGateway.Observability

open Str Http

/-! ## Counters -/

structure Metrics where
  requests : ℕ := 0
  errors : ℕ := 0
  cacheHits : ℕ := 0
  cacheMisses : ℕ := 0
  rateLimited : ℕ := 0
  retries : ℕ := 0
  circuitOpenRejections : ℕ := 0
  activeConnections : ℤ := 0
  responsesByClass : List ℕ := List.replicate 6 0
  latency : LatencyHistogram := {}
deriving DecidableEq, Repr

/-- A call that changes a counter. -/
inductive MetricsCall where
  | incRequests
  | incErrors
  | incCacheHit
  | incCacheMiss
  | incRateLimited
  | incRetries
  | incCircuitOpen
  | recordResponse (statusCode : ℤ)
  | connectionOpened
  | connectionClosed
  | recordLatencyMicros (micros : ℕ)
deriving DecidableEq, Repr

namespace Metrics

/-- Responses of other classes are not counted. -/
def recordResponse (m : Metrics) (statusCode : ℤ) : Metrics :=
  if 100 ≤ statusCode ∧ statusCode < 600 then
    { m with responsesByClass := m.responsesByClass.modify (statusCode / 100).toNat (· + 1) }
  else m

def apply (m : Metrics) : MetricsCall → Metrics
  | .incRequests => { m with requests := m.requests + 1 }
  | .incErrors => { m with errors := m.errors + 1 }
  | .incCacheHit => { m with cacheHits := m.cacheHits + 1 }
  | .incCacheMiss => { m with cacheMisses := m.cacheMisses + 1 }
  | .incRateLimited => { m with rateLimited := m.rateLimited + 1 }
  | .incRetries => { m with retries := m.retries + 1 }
  | .incCircuitOpen => { m with circuitOpenRejections := m.circuitOpenRejections + 1 }
  | .recordResponse statusCode => m.recordResponse statusCode
  | .connectionOpened => { m with activeConnections := m.activeConnections + 1 }
  | .connectionClosed => { m with activeConnections := m.activeConnections - 1 }
  | .recordLatencyMicros micros => { m with latency := m.latency.record micros }

/-- The counters after some calls, in the order in which they take effect. -/
def after (calls : List MetricsCall) : Metrics := calls.foldl apply {}

/-- The rate since the start of the process. -/
def requestsPerSecond (m : Metrics) (elapsedSeconds : ℚ) : ℚ :=
  if elapsedSeconds ≤ 0 then 0 else m.requests / elapsedSeconds

def p50 (m : Metrics) : ℕ := m.latency.percentile (1 / 2)

def p95 (m : Metrics) : ℕ := m.latency.percentile (19 / 20)

def p99 (m : Metrics) : ℕ := m.latency.percentile (99 / 100)

/-- The responses of a class. -/
def responses (m : Metrics) (klass : ℕ) : ℕ := m.responsesByClass.getD klass 0

def toPrometheusText (printDouble : ℚ → Bytes) (uptimeSeconds : ℚ) (m : Metrics) : Bytes :=
  bytes "# HELP gateway_requests_total Total requests handled\n"
    ++ bytes "# TYPE gateway_requests_total counter\n"
    ++ (bytes "gateway_requests_total " ++ decimal m.requests ++ bytes "\n")
    ++ bytes "# TYPE gateway_errors_total counter\n"
    ++ (bytes "gateway_errors_total " ++ decimal m.errors ++ bytes "\n")
    ++ bytes "# TYPE gateway_responses_total counter\n"
    ++ ((List.range' 1 5).flatMap fun klass =>
      bytes "gateway_responses_total\x7bstatus_class=\"" ++ decimal klass ++ bytes "xx\"\x7d "
        ++ decimal (m.responses klass) ++ bytes "\n")
    ++ (bytes "gateway_cache_hits_total " ++ decimal m.cacheHits ++ bytes "\n")
    ++ (bytes "gateway_cache_misses_total " ++ decimal m.cacheMisses ++ bytes "\n")
    ++ (bytes "gateway_rate_limited_total " ++ decimal m.rateLimited ++ bytes "\n")
    ++ (bytes "gateway_retries_total " ++ decimal m.retries ++ bytes "\n")
    ++ (bytes "gateway_circuit_open_rejections_total " ++ decimal m.circuitOpenRejections ++ bytes "\n")
    ++ (bytes "gateway_active_connections " ++ decimalInt m.activeConnections ++ bytes "\n")
    ++ (bytes "gateway_requests_per_second " ++ printDouble (m.requestsPerSecond uptimeSeconds)
      ++ bytes "\n")
    ++ (bytes "gateway_latency_p50_micros " ++ decimal m.p50 ++ bytes "\n")
    ++ (bytes "gateway_latency_p95_micros " ++ decimal m.p95 ++ bytes "\n")
    ++ (bytes "gateway_latency_p99_micros " ++ decimal m.p99 ++ bytes "\n")

end Metrics

/-! ## Reading the text -/

/-- The comments begin with a number sign. -/
def isComment (line : Bytes) : Bool := line.head? = some 35

/-- The name of a sample, with its labels, and the text of its value. -/
def splitSample (line : Bytes) : Bytes × Bytes :=
  (line.takeWhile (· ≠ sp), (line.dropWhile (· ≠ sp)).drop 1)

/-- The samples of a text. -/
def scrape (text : Bytes) : List (Bytes × Bytes) :=
  ((getlines lf text).filter (!isComment ·)).map splitSample

/-- An integer, with or without a sign. -/
def readInt (s : Bytes) : ℤ :=
  if s.head? = some 45 then -(digitsValue s.tail : ℤ) else digitsValue s

/-- The integer of the sample with a name, if there is exactly one such sample. -/
def readSample (text name : Bytes) : Option ℤ :=
  match (scrape text).filter (·.1 = name) with
  | [sample] => some (readInt sample.2)
  | _ => none

theorem readInt_decimal (n : ℕ) : readInt (decimal n) = n := by
  obtain ⟨d, ds, hd⟩ := List.exists_cons_of_ne_nil (decimal_ne_nil n)
  have hdigit : isdigit d = true := isdigit_of_mem_decimal (n := n) (by simp [hd])
  have hsign : (decimal n).head? ≠ some 45 := by
    rw [hd, List.head?_cons, ne_eq, Option.some.injEq]
    rintro rfl
    exact absurd hdigit (by decide)
  rw [readInt, if_neg hsign, digitsValue_decimal]

theorem readInt_decimalInt (v : ℤ) : readInt (decimalInt v) = v := by
  unfold decimalInt
  split
  · rename_i hneg
    rw [readInt, List.head?_cons, if_pos rfl, List.tail_cons, digitsValue_decimal]
    omega
  · rw [readInt_decimal]
    omega

/-- The samples of the text. -/
inductive Sample where
  | requests
  | errors
  | responses (klass : Fin 5)
  | cacheHits
  | cacheMisses
  | rateLimited
  | retries
  | circuitOpenRejections
  | activeConnections
  | requestsPerSecond
  | p50
  | p95
  | p99
deriving DecidableEq, Repr, Fintype

namespace Sample

def name : Sample → Bytes
  | requests => bytes "gateway_requests_total"
  | errors => bytes "gateway_errors_total"
  | responses klass =>
    bytes "gateway_responses_total\x7bstatus_class=\"" ++ decimal (klass + 1) ++ bytes "xx\"\x7d"
  | cacheHits => bytes "gateway_cache_hits_total"
  | cacheMisses => bytes "gateway_cache_misses_total"
  | rateLimited => bytes "gateway_rate_limited_total"
  | retries => bytes "gateway_retries_total"
  | circuitOpenRejections => bytes "gateway_circuit_open_rejections_total"
  | activeConnections => bytes "gateway_active_connections"
  | requestsPerSecond => bytes "gateway_requests_per_second"
  | p50 => bytes "gateway_latency_p50_micros"
  | p95 => bytes "gateway_latency_p95_micros"
  | p99 => bytes "gateway_latency_p99_micros"

/-- The integer that a sample shows; the rate is none. -/
def value (m : Metrics) : Sample → Option ℤ
  | requests => some m.requests
  | errors => some m.errors
  | responses klass => some (m.responses (klass + 1))
  | cacheHits => some m.cacheHits
  | cacheMisses => some m.cacheMisses
  | rateLimited => some m.rateLimited
  | retries => some m.retries
  | circuitOpenRejections => some m.circuitOpenRejections
  | activeConnections => some m.activeConnections
  | requestsPerSecond => none
  | p50 => some m.p50
  | p95 => some m.p95
  | p99 => some m.p99

/-- The text of a sample's value. -/
def text (printDouble : ℚ → Bytes) (uptimeSeconds : ℚ) (m : Metrics) (s : Sample) : Bytes :=
  match s.value m with
  | some v => decimalInt v
  | none => printDouble (m.requestsPerSecond uptimeSeconds)

/-- No two samples have one name. -/
theorem name_injective : Function.Injective name := by
  intro s t
  revert s t
  decide

/-- A name has no space and no line feed in it, and does not look like a comment. -/
theorem name_plain (s : Sample) : sp ∉ s.name ∧ lf ∉ s.name ∧ isComment (s.name ++ [sp]) = false := by
  revert s
  decide

end Sample

/-! ## The lines of the text -/

/-- A comment or a sample. -/
inductive ExpositionLine where
  | comment (text : Bytes)
  | sample (s : Sample)
deriving DecidableEq

/-- The lines of the text, in order. -/
def exposition : List ExpositionLine :=
  [.comment (bytes "# HELP gateway_requests_total Total requests handled"),
    .comment (bytes "# TYPE gateway_requests_total counter"), .sample .requests,
    .comment (bytes "# TYPE gateway_errors_total counter"), .sample .errors,
    .comment (bytes "# TYPE gateway_responses_total counter"), .sample (.responses 0),
    .sample (.responses 1), .sample (.responses 2), .sample (.responses 3), .sample (.responses 4),
    .sample .cacheHits, .sample .cacheMisses, .sample .rateLimited, .sample .retries,
    .sample .circuitOpenRejections, .sample .activeConnections, .sample .requestsPerSecond, .sample .p50,
    .sample .p95, .sample .p99]

namespace ExpositionLine

/-- The samples among the lines. -/
def sample? : ExpositionLine → Option Sample
  | comment _ => none
  | sample s => some s

/-- A comment is one for a reader too. -/
def plain : ExpositionLine → Bool
  | comment text => lf ∉ text ∧ isComment text
  | sample _ => true

end ExpositionLine

theorem exposition_plain : ∀ l ∈ exposition, l.plain = true := by
  decide

section Text

variable (printDouble : ℚ → Bytes) (uptimeSeconds : ℚ) (m : Metrics)

def ExpositionLine.text : ExpositionLine → Bytes
  | comment text => text
  | sample s => s.name ++ sp :: s.text printDouble uptimeSeconds m

theorem decimalInt_natCast (n : ℕ) : decimalInt n = decimal n := by
  rw [decimalInt, if_neg (by omega), Int.toNat_natCast]

theorem lf_notMem_decimalInt (i : ℤ) : lf ∉ decimalInt i := by
  intro h
  rcases eq_or_isdigit_of_mem_decimalInt h with heq | hdigit
  · exact absurd heq (by decide)
  · exact absurd hdigit (by decide)

/-- Two literals next to each other. -/
theorem bytes_append_append (s t : String) (r : Bytes) :
    bytes s ++ (bytes t ++ r) = bytes (s ++ t) ++ r := by
  simp [bytes]

theorem toPrometheusText_eq :
    m.toPrometheusText printDouble uptimeSeconds
      = (exposition.map fun l => l.text printDouble uptimeSeconds m).flatMap (· ++ [lf]) := by
  have hsp : ∀ r, sp :: r = bytes " " ++ r := fun _ => rfl
  have hlf : [lf] = bytes "\n" := rfl
  -- the literals are joined on both sides
  simp only [exposition, List.map_cons, List.map_nil, List.flatMap_cons, List.flatMap_nil,
    ExpositionLine.text, Sample.name, Sample.text, Sample.value, decimalInt_natCast,
    Metrics.toPrometheusText, List.range', List.append_assoc, List.nil_append, hsp, hlf,
    bytes_append_append, String.reduceAppend]
  rfl

variable {printDouble}

/-- Only line feeds end lines. -/
theorem lf_notMem_text (hprint : ∀ q, lf ∉ printDouble q) {l : ExpositionLine} (hl : l ∈ exposition) :
    lf ∉ l.text printDouble uptimeSeconds m := by
  have hplain := exposition_plain l hl
  cases l with
  | comment text => exact (of_decide_eq_true hplain).1
  | sample s =>
    rw [ExpositionLine.text, List.mem_append, List.mem_cons]
    rintro (hname | hlf | hvalue)
    · exact s.name_plain.2.1 hname
    · exact absurd hlf (by decide)
    · unfold Sample.text at hvalue
      split at hvalue
      · exact lf_notMem_decimalInt _ hvalue
      · exact hprint _ hvalue

theorem isComment_text {l : ExpositionLine} (hl : l ∈ exposition) :
    isComment (l.text printDouble uptimeSeconds m) = l.sample?.isNone := by
  have hplain := exposition_plain l hl
  cases l with
  | comment text => exact (of_decide_eq_true hplain).2
  | sample s =>
    have hname := s.name_plain.2.2
    cases hs : s.name with
    | nil => rw [ExpositionLine.text, hs]; rfl
    | cons c cs =>
      rw [hs] at hname
      rw [ExpositionLine.text, hs]
      exact hname

theorem splitSample_append {name value : Bytes} (h : sp ∉ name) :
    splitSample (name ++ sp :: value) = (name, value) := by
  rw [splitSample, takeWhile_ne_append_cons _ h, dropWhile_ne_append_cons _ h, List.drop_succ_cons,
    List.drop_zero]

/-- The samples that a reader gets are those of the text, in order. -/
theorem scrape_toPrometheusText (hprint : ∀ q, lf ∉ printDouble q) :
    scrape (m.toPrometheusText printDouble uptimeSeconds)
      = (exposition.filterMap ExpositionLine.sample?).map
        fun s => (s.name, s.text printDouble uptimeSeconds m) := by
  have hlines : ∀ ls : List ExpositionLine, ls ⊆ exposition →
      ((ls.map fun l => l.text printDouble uptimeSeconds m).filter (!isComment ·)).map splitSample
        = (ls.filterMap ExpositionLine.sample?).map
          fun s => (s.name, s.text printDouble uptimeSeconds m) := by
    intro ls hls
    induction ls with
    | nil => rfl
    | cons l ls ih =>
      rw [List.cons_subset] at hls
      have hcomment : isComment (l.text printDouble uptimeSeconds m) = l.sample?.isNone :=
        isComment_text uptimeSeconds m hls.1
      cases l with
      | comment text =>
        rw [List.map_cons, List.filter_cons_of_neg (by simp [hcomment, ExpositionLine.sample?]), ih hls.2]
        rfl
      | sample s =>
        rw [List.map_cons, List.filter_cons_of_pos (by simp [hcomment, ExpositionLine.sample?]),
          List.map_cons, ih hls.2, ExpositionLine.text, splitSample_append s.name_plain.1]
        rfl
  have hlf : ∀ t ∈ exposition.map fun l => l.text printDouble uptimeSeconds m, lf ∉ t := by
    intro t ht
    obtain ⟨l, hl, rfl⟩ := List.mem_map.mp ht
    exact lf_notMem_text uptimeSeconds m hprint hl
  rw [scrape, toPrometheusText_eq, getlines_flatMap hlf, hlines _ (List.Subset.refl _)]

/-- Every sample is in the text once. -/
theorem count_samples (s : Sample) : (exposition.filterMap ExpositionLine.sample?).count s = 1 := by
  revert s
  decide

end Text

/-- A reader of the metrics text gets every counter and every percentile back: for each name there is exactly
one sample, and its value is what the registry has. -/
theorem scrape_reads_counters {printDouble : ℚ → Bytes} (hprint : ∀ q, lf ∉ printDouble q)
    (uptimeSeconds : ℚ) (m : Metrics) {s : Sample} {v : ℤ} (hv : s.value m = some v) :
    readSample (m.toPrometheusText printDouble uptimeSeconds) s.name = some v := by
  have hname : ∀ t : Sample, decide (t.name = s.name) = decide (t = s) := fun t =>
    decide_eq_decide.mpr Sample.name_injective.eq_iff
  have hsamples : (scrape (m.toPrometheusText printDouble uptimeSeconds)).filter (·.1 = s.name)
      = [(s.name, decimalInt v)] := by
    rw [scrape_toPrometheusText uptimeSeconds m hprint, List.filter_map]
    simp only [Function.comp_def, hname]
    rw [List.filter_eq, count_samples, List.replicate_one, List.map_singleton, Sample.text, hv]
  rw [readSample, hsamples]
  exact congrArg some (readInt_decimalInt v)

theorem scrape_reads_counters_negative :
    readSample (Metrics.toPrometheusText (fun q => decimalInt q.floor) 2 (Metrics.after [.connectionClosed]))
      (bytes "gateway_active_connections") = some (-1) :=
  scrape_reads_counters (fun q => lf_notMem_decimalInt q.floor) 2 (Metrics.after [.connectionClosed])
    (s := .activeConnections) rfl

end ApiGateway.Observability
