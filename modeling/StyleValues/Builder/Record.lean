import StyleValues.Builder.Basic
import StyleValues.Value.Css

/-!
# Recording constructions

A recording builder writes down every construction and stands for its result by its place in
the record. Replaying the record builds the value again.

## Main definitions

* `Construction`, `Builder.record`: the entries of a record, and the builder that makes them.
* `replay?`: the values that the entries of a record build.
-/

namespace StyleValues

/-- One call of a constructor. Elements of a list are given by their places in the record. -/
inductive Construction
  | dimension (d : Dimension)
  | keyword (name : String)
  | composite (places : List Nat)
  | color (c : Color)

/-- Writes an entry down and returns its place. -/
def Construction.enter (entry : Construction) : StateM (List Construction) Nat :=
  fun record => (record.length, record ++ [entry])

/-- Records every construction, in the order in which they are made. -/
def Builder.record : Builder (StateM (List Construction)) Nat where
  dimension d := (Construction.dimension d).enter
  keyword k := (Construction.keyword k).enter
  composite places := (Construction.composite places).enter
  color c := (Construction.color c).enter

/-- The place of a value in the record of its construction, and the record. -/
def Value.record (v : Value) : Nat × List Construction :=
  (Builder.record.build v).run []

/-- One line on an entry. -/
def Construction.text : Construction → String
  | .dimension d => "dimension " ++ d.css
  | .keyword k => "keyword " ++ k
  | .composite places => "composite [" ++ ", ".intercalate (places.map toString) ++ "]"
  | .color c => "color " ++ c.css

/-- The value that an entry builds from those built before it. -/
def Construction.value? (built : List Value) : Construction → Option Value
  | .dimension d => some (.dimension d)
  | .keyword k => some (.keyword k)
  | .composite places => (places.mapM fun i => built[i]?).map .composite
  | .color c => some (.color c)

/-- The values that the entries of a record build, after those built before. -/
def replay? (built : List Value) : List Construction → Option (List Value)
  | [] => some built
  | entry :: record => do replay? (built ++ [← entry.value? built]) record

end StyleValues
