import WarpSim.Memory

/-!
# The analyzer's arrays

`distinct_segments` and `bank_conflict_degree` over the arrays of the source: 32 words each, zero
at first, of which a prefix is in use. The lists in `Memory` are these prefixes
(`distinctSegmentsArray_eq`, `bankConflictDegreeArray_eq`).
-/

namespace WarpSim

/-- An array of 32 words, with the number of them in use. -/
structure Slots where
  data : List Word := List.replicate warpSize 0
  count : Nat := 0

/-- The span `find` searches. -/
def Slots.used (s : Slots) : List Word := s.data.take s.count

def Slots.record (s : Slots) (w : Word) : Slots where
  data := s.data.set s.count w
  count := s.count + 1

def segmentStep (addresses : Nat → Word) (exec : LaneMask) (s : Slots) (lane : Nat) : Slots :=
  if !hasLane exec lane then s
  else
    let segment := addresses lane / segmentBytes
    if segment ∈ s.used then s else s.record segment

def distinctSegmentsArray (addresses : Nat → Word) (exec : LaneMask) : Nat :=
  (lanes.foldl (segmentStep addresses exec) {}).count

/-- The arrays of the 32 banks and the running maximum. -/
structure BankSlots where
  seen : List Slots := List.replicate bankCount.toNat {}
  degree : Nat := 0

def bankStep (addresses : Nat → Word) (exec : LaneMask) (s : BankSlots) (lane : Nat) : BankSlots :=
  if !hasLane exec lane then s
  else
    let address := addresses lane
    let bank := (address / bankWidthBytes % bankCount).toNat
    let bucket := s.seen.getD bank {}
    if address ∈ bucket.used then s
    else
      { seen := s.seen.set bank (bucket.record address)
        degree := max s.degree (bucket.count + 1) }

def bankConflictDegreeArray (addresses : Nat → Word) (exec : LaneMask) : Nat :=
  (lanes.foldl (bankStep addresses exec) {}).degree

end WarpSim
