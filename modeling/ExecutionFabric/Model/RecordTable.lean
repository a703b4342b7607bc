import ExecutionFabric.Model.Records
import Mathlib.Data.List.Sort
import Std.Data.HashMap.Lemmas

/-!
# Record tables

The container of the durable state as it is stored: the records in a vector, and a hash
map from a record's key to its position in that vector.
-/
namespace ExecutionFabric

/-- `IdHasher`: two shifts and a multiplication mix the value. -/
instance {d : IdDomain} : Hashable (Id d) where
  hash id :=
    let x := (id.value ^^^ (id.value >>> 33)) * 0xff51afd7ed558ccd
    x ^^^ (x >>> 33)

instance : Hashable ActionKey where
  hash key := [key.id.value, word key.generation].foldl hashU64 fnvOffsetBasis

/-- A record table with expected constant lookup and stable insertion order. -/
structure RecordTable {α κ : Type} [BEq κ] [Hashable κ] (key : α → κ) where
  records : List α := []
  index : Std.HashMap κ Nat := ∅

namespace RecordTable

variable {α κ : Type} [DecidableEq κ] [Hashable κ] {key : α → κ}

def find (t : RecordTable key) (id : κ) : Option α :=
  match t.index[id]? with
  | none => none
  | some pos => t.records[pos]?

def contains (t : RecordTable key) (id : κ) : Bool := t.index[id]?.isSome

/-- Inserts or replaces. -/
def upsert (t : RecordTable key) (record : α) : RecordTable key :=
  match t.index[key record]? with
  | some pos => { t with records := t.records.set pos record }
  | none =>
    { records := t.records ++ [record]
      index := t.index.insertIfNew (key record) t.records.length }

/-- Erases a record; every later record moves one position down. -/
def erase (t : RecordTable key) (id : κ) : RecordTable key × Bool :=
  match t.index[id]? with
  | none => (t, false)
  | some pos =>
    ({ records := t.records.eraseIdx pos
       index := (t.index.erase id).map fun _ entry => if entry > pos then entry - 1 else entry },
      true)

def size (t : RecordTable key) : Nat := t.records.length

def isEmpty (t : RecordTable key) : Bool := t.records.isEmpty

def insertionOrder (t : RecordTable key) : List α := t.records

def clear (_ : RecordTable key) : RecordTable key := { records := [], index := ∅ }

/-- Ascending by key, whatever the order of the insertions was. -/
def canonicalOrder [LT κ] [DecidableLT κ] (t : RecordTable key) : List α :=
  t.records.insertionSort fun a b => ¬ key b < key a

end RecordTable

end ExecutionFabric
