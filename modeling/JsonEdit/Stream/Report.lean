import JsonEdit.Stream.Basic

/-!
# Reports

* `Summary.toJson`: the counts of a complete run as a JSON value.
-/

namespace JsonEdit

/-- A count as a JSON number. -/
def countJson (n : Nat) : Json := .num (Number.ofInt n)

/-- The counters as an object. -/
def Stats.toJson (s : Stats) : Json :=
  .obj [("events", countJson s.events), ("nodes", countJson s.nodes),
    ("matched", countJson s.matched), ("renamed", countJson s.renamed),
    ("removed", countJson s.removed), ("replaced", countJson s.replaced),
    ("fragments", countJson s.fragments), ("bytes_emitted", countJson s.bytesEmitted),
    ("documents", countJson s.documents)]

/-- The counts of a complete run as an object. -/
def Summary.toJson (s : Summary) : Json :=
  .obj [("stats", s.stats.toJson), ("input_bytes", countJson s.inputBytes)]

end JsonEdit
