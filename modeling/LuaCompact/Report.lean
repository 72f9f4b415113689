import LuaCompact.Decimal.Binary

namespace LuaCompact

/-- The sizes of a build: how many files, how many bytes before and after. Sums wrap. -/
structure Report where
  files : Int64
  before : Int64
  after : Int64
deriving DecidableEq, Repr

namespace Report

def empty : Report := ⟨0, 0, 0⟩

/-- The report of one file. -/
def ofFile (source result : Bytes) : Report :=
  ⟨1, Int64.ofNat source.length, Int64.ofNat result.length⟩

/-- Two builds as one. -/
def add (r s : Report) : Report :=
  ⟨r.files + s.files, r.before + s.before, r.after + s.after⟩

/-- By how many percent the size went down; nothing can be saved of nothing. -/
def reduction (r : Report) : Float :=
  if r.before = 0 then 0 else (1 - r.after.toFloat / r.before.toFloat) * 100

end Report

/-- A size with its unit. -/
def byteCount (n : Int) : Bytes := Numeral.grouped n ++ utf8 " bytes"

/-- A percentage with one decimal place. -/
def percentage (bits : UInt64) : Bytes :=
  Decimal.fixed 1 (Decimal.Binary.ofBits bits) ++ utf8 "%"

/-- One row of a report. -/
structure Stat where
  label : Bytes
  value : Bytes
deriving DecidableEq, Repr

/-- The rows that tell a size before, a size after and the percentage saved, the last by the bits
of a double. -/
def sizeStats (before after : Int) (reduction : UInt64) : List Stat :=
  [⟨utf8 "Original size", byteCount before⟩, ⟨utf8 "Final size", byteCount after⟩,
    ⟨utf8 "Reduction", percentage reduction⟩]

/-- The rows of a report. -/
def Report.stats (r : Report) : List Stat :=
  sizeStats r.before.toInt r.after.toInt r.reduction.toBits

end LuaCompact
