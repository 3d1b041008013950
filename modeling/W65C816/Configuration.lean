import W65C816.Configuration.Datum
import W65C816.Machine.Core

/-!
# Configurations as plain data

Addresses, flags, vector tables and configurations can be written as a `Datum` and read back. A
record may have fields that nobody asks for, but must have those that are asked for. Only a
configuration itself may leave fields out; it then has the standard ones. In a list the fields stand
in the order in which they are written.

Reading what was written gives the same value back, which is the law of each pair here.
-/

namespace W65C816

open Datum

namespace Address

/-- Writes an address. -/
def toDatum (a : Address) : Datum :=
  record [("bank", ofByte a.bank), ("offset", ofWord a.offset)]

/-- Reads an address. -/
def ofDatum? (d : Datum) : Option Address := do
  let d := d.named ["bank", "offset"]
  return ⟨← d.field? "bank" byte?, ← d.field? "offset" word?⟩

/-- An address is read back from its bank and its offset. -/
theorem ofDatum?_toDatum (a : Address) : ofDatum? a.toDatum = some a := by
  simp [ofDatum?, toDatum, field?, fields?, List.lookup_cons, byte?_ofByte, word?_ofWord]

end Address

namespace Status

/-- Writes the flags. -/
def toDatum (s : Status) : Datum :=
  record [("carry", bool s.carry), ("zero", bool s.zero), ("irq_disable", bool s.irqDisable),
    ("decimal", bool s.decimal), ("break_flag", bool s.breakFlag),
    ("accumulator_width", bool s.narrowAccumulator), ("index_width", bool s.narrowIndex),
    ("emulation", bool s.emulation), ("overflow", bool s.overflow), ("sign", bool s.negative)]

/-- Reads the flags. -/
def ofDatum? (d : Datum) : Option Status := do
  let d := d.named ["carry", "zero", "irq_disable", "decimal", "break_flag", "accumulator_width",
    "index_width", "emulation", "overflow", "sign"]
  return {
    carry := ← d.field? "carry" bool?
    zero := ← d.field? "zero" bool?
    irqDisable := ← d.field? "irq_disable" bool?
    decimal := ← d.field? "decimal" bool?
    breakFlag := ← d.field? "break_flag" bool?
    narrowAccumulator := ← d.field? "accumulator_width" bool?
    narrowIndex := ← d.field? "index_width" bool?
    emulation := ← d.field? "emulation" bool?
    overflow := ← d.field? "overflow" bool?
    negative := ← d.field? "sign" bool? }

/-- Flags are read back one by one, not from their packed form. -/
theorem ofDatum?_toDatum (s : Status) : ofDatum? s.toDatum = some s := rfl

end Status

namespace VectorTable

/-- Writes a table. -/
def toDatum (t : VectorTable) : Datum :=
  record [("cop", ofWord t.cop), ("brk", ofWord t.brk), ("abort", ofWord t.abort),
    ("nmi", ofWord t.nmi), ("reset", ofWord t.reset), ("irq", ofWord t.irq)]

/-- Reads a table. -/
def ofDatum? (d : Datum) : Option VectorTable := do
  let d := d.named ["cop", "brk", "abort", "nmi", "reset", "irq"]
  return {
    cop := ← d.field? "cop" word?
    brk := ← d.field? "brk" word?
    abort := ← d.field? "abort" word?
    nmi := ← d.field? "nmi" word?
    reset := ← d.field? "reset" word?
    irq := ← d.field? "irq" word? }

theorem ofDatum?_toDatum (t : VectorTable) : ofDatum? t.toDatum = some t := by
  simp [ofDatum?, toDatum, field?, fields?, List.lookup_cons, word?_ofWord]

end VectorTable

namespace VectorTables

/-- Writes the tables of both modes. -/
def toDatum (t : VectorTables) : Datum :=
  record [("native", t.native.toDatum), ("emulation", t.emulation.toDatum)]

/-- Reads the tables of both modes. -/
def ofDatum? (d : Datum) : Option VectorTables := do
  let d := d.named ["native", "emulation"]
  return {
    native := ← d.field? "native" VectorTable.ofDatum?
    emulation := ← d.field? "emulation" VectorTable.ofDatum? }

theorem ofDatum?_toDatum (t : VectorTables) : ofDatum? t.toDatum = some t := by
  simp [ofDatum?, toDatum, field?, fields?, List.lookup_cons, VectorTable.ofDatum?_toDatum]

end VectorTables

namespace Configuration

/-- Writes a configuration. -/
def toDatum (c : Configuration) : Datum :=
  record [("vectors", c.vectors.toDatum), ("trace", bool c.trace)]

/-- Reads a configuration. What it leaves out is as in the standard one. -/
def ofDatum? (d : Datum) : Option Configuration := do
  let d := d.named ["vectors", "trace"]
  return {
    vectors := ← d.fieldOr? "vectors" VectorTables.ofDatum? standard.vectors
    trace := ← d.fieldOr? "trace" bool? standard.trace }

/-- A configuration is read back as it was written. -/
theorem ofDatum?_toDatum (c : Configuration) : ofDatum? c.toDatum = some c := by
  simp [ofDatum?, toDatum, fieldOr?, fields?, List.lookup_cons, bool?, VectorTables.ofDatum?_toDatum]

end Configuration

end W65C816
