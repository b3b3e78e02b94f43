import MaelysJson.Code.Common

/-! The set of (parent, key bytes) pairs: an open-addressing table of node
indices. The set stores no key. It asks the owner for the key of an index, so
every operation takes the owner's key function. -/
namespace MaelysJson

structure KeysetKey where
  parent : Option Nat
  bytes : Bytes
  deriving DecidableEq, Repr

/-- `slots` is the table, `none` an empty slot. -/
structure Keyset where
  slots : List (Option Nat)
  capacity : Nat
  count : Nat
  deriving Repr

def keysetMinimumCapacity : Nat := 8

/-- FNV-1a over the bytes, seeded with the parent (`SIZE_MAX` when there is none). -/
def hashKey (key : KeysetKey) : UInt64 :=
  key.bytes.foldl (fun hash byte => (hash ^^^ byte.toUInt64) * 1099511628211)
    (1469598103934665603 ^^^ UInt64.ofNat (key.parent.getD sizeMax))

/-- The probe loop of `findSlot` from `slot`. A table with an empty slot ends
it within `capacity` rounds. -/
def findSlotFrom (keyOf : Nat → KeysetKey) (slots : List (Option Nat)) (mask : Nat)
    (key : KeysetKey) : Nat → Nat → Nat × Bool
  | 0, slot => (slot, false)
  | rounds + 1, slot =>
      match slots.getD slot none with
      | none => (slot, false)
      | some stored =>
          if keyOf stored = key then (slot, true)
          else findSlotFrom keyOf slots mask key rounds ((slot + 1) &&& mask)

/-- The slot holding `key`, or the empty slot where it belongs. -/
def findSlot (keyOf : Nat → KeysetKey) (slots : List (Option Nat)) (capacity : Nat)
    (key : KeysetKey) : Nat × Bool :=
  let mask := capacity - 1
  findSlotFrom keyOf slots mask key capacity ((hashKey key).toNat &&& mask)

/-- `SIZE_MAX + 1` values of `size_t`: arithmetic wraps around. -/
def wrap (n : Nat) : Nat := n % 2 ^ 64

/-- The doubling loop of `keysetCapacity`; after 64 shifts nothing is left. -/
def keysetCapacityFrom (expected : Nat) : Nat → Nat → Nat
  | 0, capacity => capacity
  | rounds + 1, capacity =>
      if capacity < wrap (expected * 2) then
        keysetCapacityFrom expected rounds (wrap (capacity <<< 1))
      else capacity

def keysetCapacity (expected : Nat) : Nat :=
  keysetCapacityFrom expected 64 keysetMinimumCapacity

/-- `sizeof(size_t)`. -/
def sizeOfSize : Nat := 8

def allocateSlots (heap : Heap) (capacity : Nat) : Option (List (Option Nat)) × Heap :=
  let (granted, heap) := heap.request (wrap (capacity * sizeOfSize))
  (if granted then some (List.replicate capacity none) else none, heap)

def keysetInit (heap : Heap) (expected : Nat) : Result × Keyset × Heap :=
  let capacity := keysetCapacity expected
  match allocateSlots heap capacity with
  | (none, heap) => (.errMemory, ⟨[], capacity, 0⟩, heap)
  | (some slots, heap) => (.ok, ⟨slots, capacity, 0⟩, heap)

def keysetContains (keyOf : Nat → KeysetKey) (set : Keyset) (key : KeysetKey) : Bool :=
  (findSlot keyOf set.slots set.capacity key).2

/-- One round of the rehash loop of `grow`. -/
def rehash (keyOf : Nat → KeysetKey) (capacity : Nat) (slots : List (Option Nat)) :
    Option Nat → List (Option Nat)
  | none => slots
  | some stored => slots.set (findSlot keyOf slots capacity (keyOf stored)).1 (some stored)

def keysetGrow (keyOf : Nat → KeysetKey) (set : Keyset) (heap : Heap) : Result × Keyset × Heap :=
  if set.capacity > sizeMax / 2 / sizeOfSize then (.errMemory, set, heap)
  else
    let capacity := set.capacity * 2
    match allocateSlots heap capacity with
    | (none, heap) => (.errMemory, set, heap)
    | (some slots, heap) =>
        (.ok, { set with slots := set.slots.foldl (rehash keyOf capacity) slots, capacity }, heap)

/-- What an insertion leaves: its result, the index it replaced, the set and the heap. -/
structure Inserted where
  result : Result
  previous : Option Nat
  set : Keyset
  heap : Heap

/-- `replace` tells `insertLast`, which passes a place for the previous index,
from `insert`, which passes none. -/
def keysetInsertWith (keyOf : Nat → KeysetKey) (replace : Bool) (set : Keyset) (heap : Heap)
    (index : Nat) : Inserted :=
  let key := keyOf index
  let (slot, found) := findSlot keyOf set.slots set.capacity key
  if found then
    if replace then
      ⟨.ok, set.slots.getD slot none, { set with slots := set.slots.set slot (some index) }, heap⟩
    else ⟨.errDuplicateKey, none, set, heap⟩
  else if (set.count + 1) * 2 > set.capacity then
    match keysetGrow keyOf set heap with
    | (.ok, set, heap) =>
        let slot := (findSlot keyOf set.slots set.capacity key).1
        ⟨.ok, none, { set with slots := set.slots.set slot (some index), count := set.count + 1 },
          heap⟩
    | (result, set, heap) => ⟨result, none, set, heap⟩
  else
    ⟨.ok, none, { set with slots := set.slots.set slot (some index), count := set.count + 1 }, heap⟩

/-- Refuses a key that is present. -/
def keysetInsert (keyOf : Nat → KeysetKey) (set : Keyset) (heap : Heap) (index : Nat) : Inserted :=
  keysetInsertWith keyOf false set heap index

/-- Replaces the stored index of a key that is present. -/
def keysetInsertLast (keyOf : Nat → KeysetKey) (set : Keyset) (heap : Heap) (index : Nat) :
    Inserted :=
  keysetInsertWith keyOf true set heap index

end MaelysJson
