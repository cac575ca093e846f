import WarpSim.Lane

/-!
# Programs

An assembled kernel: encoded words plus what the loader and the disassembler need. A text is the
list of its characters, one for each byte.
-/

namespace WarpSim

abbrev Text := List Char

/-- An assembled kernel. The label map is a map from the 16-bit PCs. -/
structure Program where
  entry : Text := []
  params : List Text := []
  sharedBytes : Word := 0
  words : List (BitVec 64) := []
  labels : Pc → Option Text := fun _ => none

end WarpSim
