import WarpSim.Memory

/-!
# The arena

The bump allocator of the Python package over a device's global memory: a call takes the next free
bytes, and an upload copies an array into them. A call may raise, and what the arena is left with
then is part of its result.
-/

namespace WarpSim

/-- What a call raises in Python. -/
inductive Raised where
  | memoryError (message : String)
  | typeError
  | indexError (message : String)
  deriving DecidableEq

/-- `Device.write`. Its offset is a 32-bit integer, and a larger one is no argument for it. -/
def Device.write (global : ByteMemory) (offset : Nat) (data : List (BitVec 8)) :
    Except Raised ByteMemory :=
  if 2 ^ 32 ≤ offset then .error .typeError
  else if global.size < offset + data.length then
    .error (.indexError "write past the end of global memory")
  else .ok ⟨global.bytes.take offset ++ data ++ global.bytes.drop (offset + data.length)⟩

/-- A bump allocator over a device's global memory. -/
structure Arena where
  device : ByteMemory
  alignment : Nat := 128
  next : Nat := 0
  deriving DecidableEq

namespace Arena

def alloc (a : Arena) (nbytes : Nat) : Except Raised Nat × Arena :=
  let offset := a.next
  let a := { a with next := (offset + nbytes + a.alignment - 1) / a.alignment * a.alignment }
  if a.device.size < a.next then
    (.error (.memoryError ("arena exhausted: need " ++ toString a.next ++ " bytes, device has "
      ++ toString a.device.size)), a)
  else (.ok offset, a)

/-- Allocates and copies the bytes of an array; returns the byte offset. -/
def upload (a : Arena) (array : List (BitVec 8)) : Except Raised Nat × Arena :=
  match a.alloc array.length with
  | (.error e, a) => (.error e, a)
  | (.ok offset, a) =>
    match Device.write a.device offset array with
    | .error e => (.error e, a)
    | .ok device => (.ok offset, { a with device := device })

inductive Call where
  | alloc (nbytes : Nat)
  | upload (array : List (BitVec 8))

def Call.nbytes : Call → Nat
  | .alloc nbytes => nbytes
  | .upload array => array.length

def Call.isUpload : Call → Bool
  | .alloc _ => false
  | .upload _ => true

def call (a : Arena) : Call → Except Raised Nat × Arena
  | .alloc nbytes => a.alloc nbytes
  | .upload array => a.upload array

/-- The arena after a sequence of calls. -/
def after (a : Arena) (calls : List Call) : Arena := calls.foldl (fun a c => (a.call c).2) a

/-- What each call of a sequence returns or raises. -/
def results (a : Arena) : List Call → List (Except Raised Nat)
  | [] => []
  | c :: calls => (a.call c).1 :: (a.call c).2.results calls

/-- The offset and the size of each successful call. -/
def granted (a : Arena) : List Call → List (Nat × Nat)
  | [] => []
  | c :: calls =>
    match (a.call c).1 with
    | .error _ => (a.call c).2.granted calls
    | .ok offset => (offset, c.nbytes) :: (a.call c).2.granted calls

end Arena

end WarpSim
