import DeltaLedger.NodeTree.Path
import DeltaLedger.Text.Decimal

/-!
# Layout of a datamart

Where the records of a datamart are kept below its root:

* `delta` holds the counters,
* `delta/hot` the hot delta, and is missing while no epoch is open,
* `delta/num/…` the ok deltas by number,
* `delta/write_op/…` the ledger of the open epoch by change number.

Numbers are written with twenty characters, so that the order of keys is the order of numbers that are not negative.
-/

namespace DeltaLedger

/-- The part of the tree that belongs to one datamart. -/
structure Layout where
  /-- The path of the counters. -/
  counters : String
  deriving DecidableEq, Repr

namespace Layout

def below (root : String) : Layout :=
  ⟨Path.join root "delta"⟩

def key (n : Int) : String :=
  String.ofList (Decimal.signedPadded 20 n)

/-- The number that a name of twenty bytes spells. -/
def number? (name : String) : Option Int :=
  if name.utf8ByteSize = 20 then (Decimal.signedValue? name.toList).bind Decimal.fitting? else none

def hot (l : Layout) : String :=
  Path.join l.counters "hot"

def okDeltas (l : Layout) : String :=
  Path.join l.counters "num"

def okDelta (l : Layout) (deltaNum : Int) : String :=
  Path.join l.okDeltas (key deltaNum)

def writes (l : Layout) : String :=
  Path.join l.counters "write_op"

def write (l : Layout) (sysCn : Int) : String :=
  Path.join l.writes (key sysCn)

end Layout
end DeltaLedger
