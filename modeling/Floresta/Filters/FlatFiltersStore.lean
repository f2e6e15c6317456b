import Floresta.Lib.ByteFile
import Floresta.Lib.Fallible
import Floresta.Primitives

/-!
# FlatFiltersStore — block filters in a flat file

The store of `floresta-compact-filters`: a file that starts with the height the node has filters up
to and goes on with one record per filter (height, length, content), and an index file with the
position of the filter of every thousandth block.
-/

namespace Floresta.Filters

open Fallible ByteFile

def MAX_FILTER_SIZE : Nat := 1000000

/-- The height at the start of the filters file. -/
def HEADER_SIZE : Nat := 4

/-- Height and length of a record. -/
def RECORD_HEADER_SIZE : Nat := 8

def INDEX_INTERVAL : Nat := 1000

abbrev BlockFilter := Bytes

/-- `IterableFilterStoreError`, the variants the store raises on files that can be opened. -/
inductive IterableFilterStoreError
  /-- the file ended before the height -/
  | io
  | oversizedBlockFilter
  deriving DecidableEq, Repr

inductive Fault
  | error (e : IterableFilterStoreError)
  /-- the debug assertion of `FiltersIterator::next`, with the height and the length it prints -/
  | debugAssert (height length : UInt32)
  /-- a loop did not end within the given number of rounds -/
  | diverged
  deriving DecidableEq, Repr

structure FlatFiltersStore where
  file : Bytes
  index : Bytes
  deriving DecidableEq, Repr

/-! ## Records -/

/-- The two `read_exact` calls at the start of a record. -/
def readRecordHeader (reader : Bytes) : Option (UInt32 × UInt32 × Bytes) := do
  let (height, reader) ← readExact 4 reader
  let (length, reader) ← readExact 4 reader
  pure (UInt32.ofNat (ofLeBytes height), UInt32.ofNat (ofLeBytes length), reader)

/-- `FiltersIterator::next`, on what is left to read; `debug` says whether the build has debug
assertions. -/
def next (debug : Bool) (reader : Bytes) : Except Fault (Option ((UInt32 × BlockFilter) × Bytes)) :=
  match readRecordHeader reader with
  | none => .ok none
  | some (height, length, reader) => do
      require (debug = true → length.toNat < 1000000) (.debugAssert height length)
      pure ((readExact length.toNat reader).map fun (content, reader) =>
        ((height, content), reader))

/-- Everything the iterator yields. -/
def collect (debug : Bool) : Nat → Bytes → Except Fault (List (UInt32 × BlockFilter))
  | 0, _ => .error .diverged
  | fuel + 1, reader => do
      match ← next debug reader with
      | none => pure []
      | some (item, reader) => do
          let items ← collect debug fuel reader
          pure (item :: items)

/-! ## The index -/

def writeIndexEntry (index : Bytes) (height : UInt32) (offset : Nat) : Bytes :=
  writeAt index (height.toNat / INDEX_INTERVAL * 8) (leBytes 8 offset)

/-- The loop of `build_index`, with the position of the record it is about to read. -/
def buildIndexFrom : Nat → Bytes → Nat → Bytes → Except Fault Bytes
  | 0, _, _, _ => .error .diverged
  | fuel + 1, reader, pos, index =>
    match readRecordHeader reader with
    | none => .ok index
    | some (height, length, reader) =>
      if MAX_FILTER_SIZE < length.toNat then .ok index
      else
        let index :=
          if height.toNat % INDEX_INTERVAL = 0 then writeIndexEntry index height pos
          else index
        buildIndexFrom fuel (reader.drop length.toNat)
          (pos + RECORD_HEADER_SIZE + length.toNat) index

def buildIndex (file index : Bytes) : Except Fault Bytes :=
  buildIndexFrom (file.length + 1) (file.drop HEADER_SIZE) HEADER_SIZE index

/-! ## The store -/

/-- Opens the two files; one that does not exist is empty. -/
def openStore (file index : Bytes) : Except Fault FlatFiltersStore := do
  let isNewIndex := index.length = 0
  let index := writeAt index 0 (leBytes 8 HEADER_SIZE)
  let index ← if isNewIndex then buildIndex file index else pure index
  pure ⟨file, index⟩

def setHeight (s : FlatFiltersStore) (height : UInt32) : FlatFiltersStore :=
  { s with file := writeAt s.file 0 (leBytes 4 height.toNat) }

def getHeight (s : FlatFiltersStore) : Except Fault UInt32 := do
  let (height, _) ← okOr (readExact 4 s.file) (.error .io)
  pure (UInt32.ofNat (ofLeBytes height))

/-- Appends a record; the length is cut to 32 bits before it is checked. -/
def putFilter (s : FlatFiltersStore) (blockFilter : BlockFilter) (height : UInt32) :
    Except Fault FlatFiltersStore := do
  let length := UInt32.ofNat blockFilter.length
  require (length.toNat ≤ MAX_FILTER_SIZE) (.error .oversizedBlockFilter)
  let offset := s.file.length
  let index :=
    if height.toNat % INDEX_INTERVAL = 0 then writeIndexEntry s.index height offset else s.index
  pure ⟨s.file ++ leBytes 4 height.toNat ++ leBytes 4 length.toNat ++ blockFilter, index⟩

/-- The loop of `iter` that walks over the filters below the start; returns what is left to
read. -/
def skipTo (startHeight : UInt32) : Nat → Bytes → Except Fault Bytes
  | 0, _ => .error .diverged
  | fuel + 1, reader =>
    match readRecordHeader reader with
    | none => .ok []
    | some (height, length, rest) =>
      if startHeight ≤ height then .ok reader
      else if MAX_FILTER_SIZE < length.toNat then .error (.error .oversizedBlockFilter)
      else skipTo startHeight fuel (rest.drop length.toNat)

/-- Where `iter` starts to read: the last position written for a block at or before the start. -/
def startPosition (index : Bytes) (startHeight : Option Nat) : Nat :=
  let entries := (chunksExact 8 index).map ofLeBytes
  ((entries.take (startHeight.getD 0 / INDEX_INTERVAL + 1)).reverse.find? fun offset =>
    offset ≠ 0).getD HEADER_SIZE

/-- `iter`: what the iterator has left to read.  The start is a `usize` that is cut to 32 bits for
the comparison with the heights of the records. -/
def iter (s : FlatFiltersStore) (startHeight : Option Nat) : Except Fault Bytes :=
  let reader := s.file.drop (startPosition s.index startHeight)
  skipTo (UInt32.ofNat (startHeight.getD 0)) (reader.length + 1) reader

def items (debug : Bool) (s : FlatFiltersStore) (startHeight : Option Nat) :
    Except Fault (List (UInt32 × BlockFilter)) := do
  let reader ← iter s startHeight
  collect debug (reader.length + 1) reader

end Floresta.Filters
