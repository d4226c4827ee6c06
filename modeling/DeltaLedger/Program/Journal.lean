import DeltaLedger.Program.Notice

/-!
# Journals

A journal collects notices. Every event is kept with the innermost span that was open when it came, and every
measurement raises the series it belongs to.
-/

namespace DeltaLedger

inductive Metric where
  | operations
  | durations
  | retries
  deriving DecidableEq, Repr

namespace Metric

def all : List Metric :=
  [operations, durations, retries]

def name : Metric → String
  | operations => "dtm_delta_operations_total"
  | durations => "dtm_delta_operation_duration_seconds"
  | retries => "dtm_delta_cas_retry_total"

def description : Metric → String
  | operations => "counter: Total delta operations by outcome"
  | durations => "histogram: Duration of delta operations in seconds"
  | retries => "counter: Total delta CAS retry attempts"

end Metric

/-- The measurements of one metric that share their labels. -/
inductive Series where
  | operations (operation : Operation) (outcome : String)
  | durations (operation : Operation)
  | retries (operation : Operation)
  deriving DecidableEq, Repr

namespace Series

def metric : Series → Metric
  | operations _ _ => .operations
  | durations _ => .durations
  | retries _ => .retries

def labels : Series → List (String × String)
  | operations operation outcome => [("operation", operation.name), ("outcome", outcome)]
  | durations operation => [("operation", operation.name)]
  | retries operation => [("operation", operation.name)]

def text (s : Series) : String :=
  s.metric.name ++ "\x7b" ++ ",".intercalate (s.labels.map fun label => label.1 ++ "=" ++ label.2) ++ "\x7d"

end Series

/-- The series that a measurement raises by one. -/
def Measurement.series : Measurement → List Series
  | finished operation outcome => [.operations operation outcome, .durations operation]
  | retried operation => [.retries operation]

def counts (ms : List Measurement) : List (Series × Nat) :=
  let raised := ms.flatMap Measurement.series
  raised.eraseDups.map fun s => (s, raised.count s)

/-- An event with the span it came in. -/
structure Entry where
  event : Event
  span : Option Span
  deriving DecidableEq

/-- The notices so far: events and measurements, the newest first, and the open spans, the innermost first. -/
structure Journal where
  newest : List Entry
  measurements : List Measurement
  spans : List Span

namespace Journal

def empty : Journal :=
  ⟨[], [], []⟩

instance : Inhabited Journal := ⟨empty⟩

def note (j : Journal) : Notice → Journal
  | .entered span => { j with spans := span :: j.spans }
  | .left => { j with spans := j.spans.tail }
  | .event e => { j with newest := ⟨e, j.spans.head?⟩ :: j.newest }
  | .measured m => { j with measurements := m :: j.measurements }

def entries (j : Journal) : List Entry :=
  j.newest.reverse

def clearEntries (j : Journal) : Journal :=
  { j with newest := [] }

end Journal
end DeltaLedger
