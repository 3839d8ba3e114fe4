import LastLevel.Scenario.Basic
import LastLevel.Toml.Reader
/-!
# Experiment files

An experiment file is a TOML document whose only key is `scenario`, an array of
tables. Each table holds a label, the kind of scheme, exactly the fields of that
kind, and perhaps a private level. Nothing else is accepted, on any level: a key
that is missing, unknown or of the wrong type refuses the file.

The tables of a private level and of fixed bits may also be written as arrays of
their values, in the order of the fields.
-/

namespace LastLevel.Scenario

open Toml (Value Entries)

/-! ## Fields -/

/-- Number of values of a count or a size. -/
def wide : Nat := Bits.wordSize

/-- Number of values of a bit width or a core count. -/
def narrow : Nat := Nat.pow 2 32

def natural? (bound : Nat) : Value → Option Nat
  | .integer n => if 0 ≤ n ∧ n < bound then some n.toNat else none
  | _ => none

def list? (f : Value → Option α) : Value → Option (List α)
  | .array _ vs => vs.mapM f
  | _ => none

def text? : Value → Option String
  | .text s => some s
  | _ => none

def field? (f : Value → Option α) (key : String) (es : Entries) : Option α := es.lookup key >>= f

/-- Whether a table has no other keys than these. -/
def onlyKeys (keys : List String) (es : Entries) : Bool := es.all fun e => keys.contains e.1

/-! ## Parts of a scenario -/

def fixedBits? : Value → Option FixedBits
  | .table _ es => do
    guard (onlyKeys ["bits", "n_bits"] es)
    some { pattern := ← field? (natural? wide) "bits" es, width := ← field? (natural? narrow) "n_bits" es }
  | .array _ [pattern, width] => do
    some { pattern := ← natural? wide pattern, width := ← natural? narrow width }
  | _ => none

/-- A private level. As an array it may go on after its four values. -/
def level? : Value → Option PrivateLevel
  | .table _ es => do
    guard (onlyKeys ["cores", "cache_size", "associativity", "block_size"] es)
    some {
      cores := ← field? (natural? wide) "cores" es
      cache := {
        size := ← field? (natural? wide) "cache_size" es
        ways := ← field? (natural? wide) "associativity" es
        block := ← field? (natural? wide) "block_size" es } }
  | .array _ (cores :: size :: ways :: block :: _) => do
    some {
      cores := ← natural? wide cores
      cache := { size := ← natural? wide size, ways := ← natural? wide ways, block := ← natural? wide block } }
  | _ => none

def planKeys? : String → Option (List String)
  | "plain" => some ["cache_size", "associativity", "block_size"]
  | "way" => some ["ways", "cache_size", "block_size"]
  | "inter_node" => some ["slices", "slice_size", "associativity", "block_size"]
  | "intra_node" => some ["cache_size", "associativity", "block_size", "fixed_bits"]
  | "cluster_way" => some ["clusters", "ways", "cluster_size", "block_size"]
  | "inter_intra" => some ["cells", "cores", "associativity", "block_size"]
  | _ => none

/-- The geometry whose size has the given key. -/
def geometryAt? (size : String) (es : Entries) : Option Geometry := do
  some {
    size := ← field? (natural? wide) size es
    ways := ← field? (natural? wide) "associativity" es
    block := ← field? (natural? wide) "block_size" es }

def plan? (kind : String) (es : Entries) : Option Plan :=
  match kind with
  | "plain" => (geometryAt? "cache_size" es).map .plain
  | "way" => do
    some (.way (← field? (list? (natural? wide)) "ways" es) (← field? (natural? wide) "cache_size" es)
      (← field? (natural? wide) "block_size" es))
  | "inter_node" => do
    some (.interNode (← field? (list? (natural? wide)) "slices" es) (← geometryAt? "slice_size" es))
  | "intra_node" => do
    some (.intraNode (← geometryAt? "cache_size" es) (← field? (list? fixedBits?) "fixed_bits" es))
  | "cluster_way" => do
    some (.clusterWay (← field? (natural? wide) "clusters" es) (← field? (list? (natural? wide)) "ways" es)
      (← field? (natural? wide) "cluster_size" es) (← field? (natural? wide) "block_size" es))
  | "inter_intra" => do
    some (.interIntra (← field? (list? (list? (natural? wide))) "cells" es)
      (← field? (list? (list? (natural? narrow))) "cores" es)
      (← field? (natural? wide) "associativity" es) (← field? (natural? wide) "block_size" es))
  | _ => none

def scenario? : Value → Option Scenario
  | .table _ es => do
    let kind ← field? text? "scheme" es
    guard (onlyKeys (["label", "scheme", "private"] ++ (← planKeys? kind)) es)
    let level ← match es.lookup "private" with
      | none => some none
      | some v => (level? v).map some
    some { label := ← field? text? "label" es, plan := ← plan? kind es, level }
  | _ => none

/-! ## Files -/

inductive FileError where
  /-- The text is no TOML document, or not one of the required form. -/
  | malformed
  | noScenario
deriving DecidableEq, Repr

def FileError.message : FileError → String
  | malformed => "not an experiment document"
  | noScenario => "no [[scenario]] defined"

def scenarios? (es : Entries) : Option (List Scenario) := do
  guard (onlyKeys ["scenario"] es)
  match es.lookup "scenario" with
  | none => some []
  | some v => list? scenario? v

def readDocument (text : String) : Except FileError (List Scenario) :=
  match Toml.read? text >>= scenarios? with
  | none => .error .malformed
  | some [] => .error .noScenario
  | some ss => .ok ss

end LastLevel.Scenario
