import WarpSim.Proofs.Vecadd
import WarpSim.Proofs.Harness
import WarpSim.Proofs.Matmul
import WarpSim.Proofs.Reduce

/-!
# Running the shipped kernels

From the arrays of a Python caller to the arrays that it gets back: what is uploaded is read back
as words, the kernel leaves its output, and the download is the bytes of its golden model.
-/

namespace WarpSim

section Words

theorem length_bytesOf (words : List Word) : (bytesOf words).length = 4 * words.length := by
  induction words with
  | nil => rfl
  | cons w words ih =>
    rw [bytesOf, List.flatMap_cons, List.length_append, ← bytesOf, ih, List.length_cons]
    exact (Nat.add_comm _ _).trans (Nat.mul_succ 4 _).symm

theorem getElem?_bytesOf {d : Nat} (hd : d < 4) : ∀ (words : List Word) (i : Nat),
    (bytesOf words)[4 * i + d]? = words[i]?.map fun w => w.extractLsb' (8 * d) 8
  | [], _ => rfl
  | w :: words, 0 => by
    rw [bytesOf, List.flatMap_cons, Nat.mul_zero, Nat.zero_add, List.getElem?_append_left hd]
    obtain rfl | rfl | rfl | rfl : d = 0 ∨ d = 1 ∨ d = 2 ∨ d = 3 := by omega
    all_goals rfl
  | w :: words, i + 1 => by
    have hle : 4 ≤ 4 * (i + 1) + d := by omega
    have hsub : 4 * (i + 1) + d - 4 = 4 * i + d := by omega
    rw [bytesOf, List.flatMap_cons, List.getElem?_append_right hle, List.getElem?_cons_succ,
      ← getElem?_bytesOf hd words i, bytesOf]
    exact congrArg (fun p => (List.flatMap _ words)[p]?) hsub

variable {g : ByteMemory} {offset n i : Nat}

/-- An uploaded array, word by word. -/
theorem ByteMemory.Holds.word {words : List Word} (h : g.Holds offset (bytesOf words))
    (hi : i < words.length) : g.word (offset + 4 * i) = words[i] := by
  have hbyte : ∀ d < 4, g.byte (offset + 4 * i + d) = words[i].extractLsb' (8 * d) 8 := by
    intro d hd
    rw [ByteMemory.byte, List.getD_eq_getElem?_getD, Nat.add_assoc,
      h _ (by rw [length_bytesOf]; omega), getElem?_bytesOf hd, List.getElem?_eq_getElem hi]
    rfl
  rw [ByteMemory.word, hbyte 3 (by decide), hbyte 2 (by decide), hbyte 1 (by decide),
    show g.byte (offset + 4 * i) = _ from hbyte 0 (by decide)]
  exact BlockMemory.append_bytes _

/-- The words of a download. -/
theorem slice_eq (h : offset + 4 * n ≤ g.size) : (g.bytes.drop offset).take (4 * n)
    = bytesOf ((List.range n).map fun i => g.word (offset + 4 * i)) := by
  refine List.ext_getElem? fun p => ?_
  rcases Nat.lt_or_ge p (4 * n) with hp | hp
  · have hsplit := Nat.div_add_mod p 4
    have hmod := Nat.mod_lt p (show 0 < 4 by decide)
    have hlt : p / 4 < n := by omega
    rw [List.getElem?_take, if_pos hp, List.getElem?_drop, ← hsplit, getElem?_bytesOf hmod,
      List.getElem?_map, List.getElem?_range hlt, Option.map_some, Option.map_some,
      ByteMemory.byte_word g _ hmod, ByteMemory.byte, ← Nat.add_assoc, List.getD_eq_getElem?_getD,
      List.getElem?_eq_getElem (by rw [ByteMemory.size] at h; omega)]
    rfl
  · rw [List.getElem?_take, if_neg (Nat.not_lt.2 hp), List.getElem?_eq_none]
    rw [length_bytesOf, List.length_map, List.length_range]
    exact hp

end Words

/-- The item at a row and a column. -/
def Array2.item (a : Array2) (i j : Nat) : Word := a.items.getD (i * a.columns + j) 0

theorem Array2.word_item {a : Array2} {g : ByteMemory} {offset i j : Nat}
    (h : g.Holds offset (bytesOf a.items)) (hi : i < a.rows) (hj : j < a.columns) :
    g.word (offset + 4 * (i * a.columns + j)) = a.item i j := by
  have hlt : i * a.columns + j < a.items.length := by
    rw [a.length_items]
    exact matrix_index_lt hi hj
  rw [h.word hlt, item, List.getD_eq_getElem?_getD, List.getElem?_eq_getElem hlt, Option.getD_some]

namespace Harness

section Launch

variable {F : FloatOps} {program : Program} {args : List Arg} {grid block : Nat × Nat}
  {g : ByteMemory} {n : Nat}

/-- The device's memory at the launch. -/
structure Ready (args : List Arg) (g : ByteMemory) : Prop where
  size : g.size ≤ 2 ^ 32
  apart : (layout 0 args).Pairwise fun r r' => r.1 + r.2.nbytes ≤ r'.1
  inside : ∀ r ∈ layout 0 args, 128 ∣ r.1 ∧ r.1 + r.2.nbytes ≤ g.size
  offsets : ∀ r ∈ layout 0 args, r.1 < 2 ^ 32
  contents : ∀ r ∈ layout 0 args, ∀ data ∈ r.2.contents, g.Holds r.1 data

theorem Ready.hasBuffer (h : Ready args g) {r : Nat × Arg} (hr : r ∈ layout 0 args)
    (hn : r.2.nbytes = 4 * n) : g.HasBuffer r.1 n := by
  obtain ⟨hdvd, hle⟩ := h.inside r hr
  exact ⟨by omega, by omega⟩

theorem param_lt {offset : Nat} (h : offset < 2 ^ 32) (arg : Arg) : arg.param offset < 2 ^ 32 := by
  rcases arg with _ | _ | value | _
  · exact h
  · exact h
  · rw [Arg.param, Golden.land_mask, Int.toNat_natCast]
    exact (BitVec.ofInt 32 value).isLt
  · exact h

/-- An output argument occupies the bytes that are read back. -/
theorem Arg.nbytes_output {arg : Arg} {out : Output} (h : arg.output? = some out) :
    arg.nbytes = out.nbytes := by
  rcases arg with _ | _ | _ | _ <;> cases h
  rfl

theorem mapM_ok {α β ε : Type} {f : α → Except ε β} {h : α → β} : ∀ {l : List α},
    (∀ a ∈ l, f a = .ok (h a)) → l.mapM f = .ok (l.map h)
  | [], _ => rfl
  | a :: l, hl => by
    obtain ⟨ha, hl⟩ := List.forall_mem_cons.1 hl
    rw [List.mapM_cons, ha, mapM_ok hl]
    rfl

theorem uint32_ok {v : Nat} (h : v < 2 ^ 32) : uint32 v = .ok (BitVec.ofNat 32 v) := if_pos h

theorem read_ok {offset nbytes : Nat} (hoffset : offset < 2 ^ 32) (h : offset + nbytes ≤ g.size) :
    Device.read g offset nbytes = .ok ((g.bytes.drop offset).take nbytes) := by
  rw [Device.read, if_neg (Nat.not_le.2 hoffset), if_neg (Nat.not_lt.2 h)]

/-- The default memory has room for the arguments. -/
theorem prepare_ok (hargs : ∀ arg ∈ args, arg ≠ .other) (hsize : defaultBytes args ≤ 2 ^ 32)
    (hgrid : grid.1 < 2 ^ 32 ∧ grid.2 < 2 ^ 32) (hblock : block.1 < 2 ^ 32 ∧ block.2 < 2 ^ 32) :
    ∃ p, prepare grid block args (defaultBytes args)
        = .ok (p, ⟨BitVec.ofNat 32 grid.1, BitVec.ofNat 32 grid.2⟩,
          ⟨BitVec.ofNat 32 block.1, BitVec.ofNat 32 block.2⟩,
          (layout 0 args).map fun r => BitVec.ofNat 32 (r.2.param r.1))
      ∧ Ready args p.arena.device
      ∧ p.outputs = (layout 0 args).filterMap fun r => r.2.output?.map fun out => (r.1, out) := by
  have hneeded : taken args ≤ 2 ^ 31 := by
    have := taken_le_needed args
    rw [defaultBytes] at hsize
    rw [taken]
    omega
  have hzero : (empty (defaultBytes args)).arena.next + taken args = taken args := Nat.zero_add _
  have hroom : (empty (defaultBytes args)).arena.device.size = defaultBytes args :=
    List.length_replicate
  obtain ⟨p, hp, h⟩ := placeAll_ok args (p := empty (defaultBytes args)) rfl (dvd_zero 128)
    (by rw [← taken, hzero, hroom]; exact taken_le_default args)
    (by rw [← taken, hzero]; omega) hargs
  obtain ⟨hpair, hall⟩ := layout_ordered args (dvd_zero 128)
  have hdevice := h.size.trans hroom
  have hlast : ∀ r ∈ layout 0 args, r.1 + r.2.nbytes ≤ taken args := by
    intro r hr
    exact (hall r hr).2.2.trans_eq (Nat.zero_add _)
  have hready : Ready args p.arena.device := by
    refine ⟨hdevice.trans_le hsize, hpair, fun r hr => ⟨(hall r hr).2.1, ?_⟩, fun r hr => ?_,
      h.contents⟩
    · exact (hlast r hr).trans ((taken_le_default args).trans_eq hdevice.symm)
    · have := hlast r hr
      omega
  have hparams : p.params.mapM uint32
      = .ok ((layout 0 args).map fun r => BitVec.ofNat 32 (r.2.param r.1)) := by
    have heq : p.params = (layout 0 args).map fun r => r.2.param r.1 := h.params
    have hok : ∀ v ∈ p.params, uint32 v = .ok (BitVec.ofNat 32 v) := by
      intro v hv
      rw [heq] at hv
      obtain ⟨r, hr, rfl⟩ := List.mem_map.1 hv
      exact uint32_ok (param_lt (hready.offsets r hr) r.2)
    rw [mapM_ok hok, heq, List.map_map]
    rfl
  refine ⟨p, ?_, hready, h.outputs⟩
  rw [prepare, hp, uint32_ok hgrid.1, uint32_ok hgrid.2, uint32_ok hblock.1, uint32_ok hblock.2]
  show (p.params.mapM uint32 >>= fun params => Except.ok (p, _, _, params)) = _
  rw [hparams]
  rfl

/-- A launch with the default memory returns what the kernel leaves in the outputs. -/
theorem launch_returns {Q : ByteMemory → ByteMemory → Prop} (hargs : ∀ arg ∈ args, arg ≠ .other)
    (hsize : defaultBytes args ≤ 2 ^ 32) (hgrid : grid.1 < 2 ^ 32 ∧ grid.2 < 2 ^ 32)
    (hblock : block.1 < 2 ^ 32 ∧ block.2 < 2 ^ 32)
    (hlaunch : ∀ g, Ready args g → ∃ fuel stats g', Device.launch F program
        ⟨BitVec.ofNat 32 grid.1, BitVec.ofNat 32 grid.2⟩
        ⟨BitVec.ofNat 32 block.1, BitVec.ofNat 32 block.2⟩
        ((layout 0 args).map fun r => BitVec.ofNat 32 (r.2.param r.1)) g fuel = some (.ok stats, g')
      ∧ g'.size = g.size ∧ Q g g') :
    ∃ fuel stats g g', Ready args g ∧ Q g g' ∧ launch F program grid block args none fuel
      = some (.ok ⟨(layout 0 args).filterMap fun r => r.2.output?.map fun out =>
          (g'.bytes.drop r.1).take out.nbytes, stats⟩) := by
  obtain ⟨p, hprepared, hready, heq⟩ := prepare_ok hargs hsize hgrid hblock
  obtain ⟨fuel, stats, g', hlaunch, hsize', hQ⟩ := hlaunch _ hready
  refine ⟨fuel, stats, _, g', hready, hQ, ?_⟩
  have houtputs : p.outputs.mapM (fun o => Device.read g' o.1 o.2.nbytes)
      = .ok ((layout 0 args).filterMap fun r => r.2.output?.map fun out =>
        (g'.bytes.drop r.1).take out.nbytes) := by
    have hok : ∀ o ∈ p.outputs, Device.read g' o.1 o.2.nbytes
        = .ok ((g'.bytes.drop o.1).take o.2.nbytes) := by
      intro o ho
      rw [heq] at ho
      obtain ⟨⟨offset, arg⟩, hr, hmap⟩ := List.mem_filterMap.1 ho
      obtain ⟨out, hout, rfl⟩ := Option.map_eq_some_iff.1 hmap
      have hbytes : arg.nbytes = out.nbytes := arg.nbytes_output hout
      exact read_ok (hready.offsets _ hr) (by rw [hsize', ← hbytes]; exact (hready.inside _ hr).2)
    rw [mapM_ok hok, heq, List.map_filterMap]
    simp only [Option.map_map]
    rfl
  rw [launch, Option.getD_none, hprepared]
  simp only [hlaunch, houtputs]

/-- A launch of an empty grid raises. -/
theorem launch_empty {decoded : List Instruction} (hargs : ∀ arg ∈ args, arg ≠ .other)
    (hsize : defaultBytes args ≤ 2 ^ 32) (hgrid : grid.1 < 2 ^ 32 ∧ grid.2 < 2 ^ 32)
    (hzero : grid.1 * grid.2 = 0) (hblock : block.1 < 2 ^ 32 ∧ block.2 < 2 ^ 32)
    (hdecode : decodeWords 0 program.words = .ok decoded) (fuel : Nat) :
    launch F program grid block args none fuel
      = some (.error (.simFault { message := "empty grid or block" })) := by
  obtain ⟨p, hprepared, -, -⟩ := prepare_ok hargs hsize hgrid hblock
  have hcount : (⟨BitVec.ofNat 32 grid.1, BitVec.ofNat 32 grid.2⟩ : Dim2).count = 0 := by
    rw [Dim2.count, ← BitVec.ofNat_mul, hzero]
    rfl
  rw [launch, Option.getD_none, hprepared]
  simp only [Device.launch, hdecode, hcount, or_true, if_true]

end Launch

end Harness

namespace Kernels

open Harness

/-- A launcher raises when its grid is empty. -/
theorem run_empty {F : FloatOps} {C : FloatChars} {kernel : Text} {floats : List Text}
    {decoded : List Instruction} {shared : Word} {args : List Arg} (grid block : Nat × Nat)
    (hassembly : assembly kernel = some (floats, decoded, shared))
    (hC : ∀ text ∈ floats, C.fromChars text = zeroChars.fromChars text)
    (hargs : ∀ arg ∈ args, arg ≠ .other) (hsize : defaultBytes args ≤ 2 ^ 32)
    (hgrid : grid.1 < 2 ^ 32 ∧ grid.2 < 2 ^ 32) (hzero : grid.1 * grid.2 = 0)
    (hblock : block.1 < 2 ^ 32 ∧ block.2 < 2 ^ 32) (fuel : Nat) :
    run F C kernel grid block args fuel
      = some (.error (.simFault { message := "empty grid or block" })) := by
  obtain ⟨program, hassemble, hprogram⟩ := assembles_of hassembly hC
  rw [run, hassemble]
  exact launch_empty hargs hsize hgrid hzero hblock hprogram.words fuel

/-- A launcher of one output returns the words that its kernel leaves there. -/
theorem run_returns {F : FloatOps} {C : FloatChars} {kernel : Text} {floats : List Text}
    {decoded : List Instruction} {shared : Word} {args : List Arg} {params : List Word}
    {offset : Nat} {words : List Word} (grid block : Nat × Nat)
    (hassembly : assembly kernel = some (floats, decoded, shared))
    (hC : ∀ text ∈ floats, C.fromChars text = zeroChars.fromChars text)
    (hargs : ∀ arg ∈ args, arg ≠ .other) (hsize : defaultBytes args ≤ 2 ^ 32)
    (hgrid : grid.1 < 2 ^ 32 ∧ grid.2 < 2 ^ 32) (hblock : block.1 < 2 ^ 32 ∧ block.2 < 2 ^ 32)
    (hparams : ((layout 0 args).map fun r => BitVec.ofNat 32 (r.2.param r.1)) = params)
    (hout : ((layout 0 args).filterMap fun r => r.2.output?.map fun out => (r.1, out.nbytes))
      = [(offset, 4 * words.length)])
    (hlaunch : ∀ program : Program, program.Decoded decoded shared → ∀ g, Harness.Ready args g →
      ∃ fuel stats g', Device.launch F program ⟨BitVec.ofNat 32 grid.1, BitVec.ofNat 32 grid.2⟩
          ⟨BitVec.ofNat 32 block.1, BitVec.ofNat 32 block.2⟩ params g fuel = some (.ok stats, g')
        ∧ g'.size = g.size
        ∧ (List.range words.length).map (fun i => g'.word (offset + 4 * i)) = words) :
    ∃ fuel stats, run F C kernel grid block args fuel
      = some (.ok ⟨[bytesOf words], stats⟩) := by
  obtain ⟨program, hassemble, hprogram⟩ := assembles_of hassembly hC
  subst hparams
  obtain ⟨fuel, stats, g, g', hg, ⟨hsize', hwords⟩, hreturn⟩ := launch_returns
    (Q := fun g g' => g'.size = g.size
      ∧ (List.range words.length).map (fun i => g'.word (offset + 4 * i)) = words)
    hargs hsize hgrid hblock fun g hg =>
      have ⟨fuel, stats, g', hrun, hsame, hwords⟩ := hlaunch program hprogram g hg
      ⟨fuel, stats, g', hrun, hsame, hsame, hwords⟩
  -- the output lies in the memory
  obtain ⟨r, hr, hr'⟩ := List.mem_filterMap.1 (hout ▸ List.mem_singleton_self _)
  obtain ⟨out, hout', heq⟩ := Option.map_eq_some_iff.1 hr'
  obtain ⟨rfl, hbytes⟩ := Prod.mk.inj heq
  have hroom : r.1 + 4 * words.length ≤ g'.size := by
    have hnbytes : r.2.nbytes = out.nbytes := Arg.nbytes_output hout'
    rw [hsize', ← hbytes, ← hnbytes]
    exact (hg.inside r hr).2
  refine ⟨fuel, stats, ?_⟩
  rw [run, hassemble]
  refine hreturn.trans ?_
  have houtputs : ((layout 0 args).filterMap fun r => r.2.output?.map fun out =>
      (g'.bytes.drop r.1).take out.nbytes) = [(g'.bytes.drop r.1).take (4 * words.length)] := by
    have hslices := congrArg (List.map fun p => (g'.bytes.drop p.1).take p.2) hout
    rw [List.map_filterMap] at hslices
    simp only [Option.map_map] at hslices
    exact hslices
  rw [houtputs, slice_eq hroom, hwords]

section Vecadd

/-- The arguments of both vector additions. -/
def vecaddArgs (a b : List Word) : List Arg :=
  [.array (bytesOf a), .array (bytesOf b), .output (.words a.length),
    .scalar a.length]

/-- The number of a kernel's elements as its parameter. -/
theorem ofNat_scalar (n : Nat) : BitVec.ofNat 32 ((n : Int).land 0xFFFFFFFF).toNat
    = BitVec.ofNat 32 n := by
  rw [Golden.land_mask, Int.toNat_natCast, BitVec.ofNat_toNat, BitVec.setWidth_eq,
    BitVec.ofInt_natCast]

variable {F : FloatOps} {C : FloatChars} {op : Opcode} {f : Word → Word → Word} {kernel : Text}

theorem vecaddArgs_ok (a b : List Word) : ∀ arg ∈ vecaddArgs a b, arg ≠ .other := by
  intro arg harg hother
  simp [vecaddArgs, hother] at harg

/-- A vector addition of arrays of one length returns the sums. -/
theorem run_adding (hop : Adds F op f) (hassembly : assembly kernel = some ([], adding op, 0))
    {a b : List Word} (hlen : b.length = a.length) (hn : 1 ≤ a.length)
    (hsize : defaultBytes (vecaddArgs a b) ≤ 2 ^ 32) :
    ∃ fuel stats,
      run F C kernel (gridFor a.length vecaddBlock) (vecaddBlock, 1) (vecaddArgs a b) fuel
      = some (.ok ⟨[bytesOf (List.zipWith f a b)], stats⟩) := by
  have hannotated := annotated_of_assembly hassembly (show 20 ≤ 65535 by decide) hop.escapes
  have hbytes : 24 * a.length + 768 ≤ 2 ^ 32 := by
    simp only [vecaddArgs, defaultBytes, needed, List.map_cons, List.map_nil, List.sum_cons,
      List.sum_nil, length_bytesOf, Output.nbytes, Output.words] at hsize
    omega
  obtain ⟨x, y, z, v, hlayout⟩ : ∃ x y z v, layout 0 (vecaddArgs a b)
      = [(x, .array (bytesOf a)), (y, .array (bytesOf b)),
        (z, .output (.words a.length)), (v, .scalar a.length)] :=
    ⟨_, _, _, _, rfl⟩
  have hparams : ((layout 0 (vecaddArgs a b)).map fun r => BitVec.ofNat 32 (r.2.param r.1))
      = [BitVec.ofNat 32 x, BitVec.ofNat 32 y, BitVec.ofNat 32 z, BitVec.ofNat 32 a.length] := by
    rw [hlayout, ← ofNat_scalar a.length]
    rfl
  have hgrid : (BitVec.ofNat 32 ((a.length + 128 - 1) / 128)).toNat = (a.length + 127) / 128 :=
    Nat.mod_eq_of_lt (by omega)
  have hwidth : (BitVec.ofNat 32 128).toNat = 128 := rfl
  have hlength : (List.zipWith f a b).length = a.length := by simp [hlen]
  have hout : ((layout 0 (vecaddArgs a b)).filterMap fun r => r.2.output?.map fun out =>
      (r.1, out.nbytes)) = [(z, 4 * (List.zipWith f a b).length)] := by
    rw [hlayout, hlength, Nat.mul_comm]
    rfl
  refine run_returns _ _ hassembly (List.forall_mem_nil _) (vecaddArgs_ok a b) hsize
    (by simp only [gridFor, vecaddBlock]; omega) (by decide) hparams hout
    fun program hprogram g hg => ?_
  have hbuffer : ∀ r ∈ layout 0 (vecaddArgs a b), r.2.nbytes = 4 * a.length →
      g.HasBuffer r.1 a.length := fun r hr => hg.hasBuffer hr
  have hapart := hg.apart
  have hcontents := hg.contents
  rw [hlayout] at hbuffer hapart hcontents
  obtain ⟨hxz, hapart⟩ := List.pairwise_cons.1 hapart
  have hxz := hxz _ (.tail _ (.head _))
  have hyz := (List.pairwise_cons.1 hapart).1 _ (.head _)
  simp only [Arg.nbytes, length_bytesOf, hlen] at hxz hyz
  have hx : g.Holds x (bytesOf a) := hcontents _ (.head _) _ rfl
  have hy : g.Holds y (bytesOf b) := hcontents _ (.tail _ (.head _)) _ rfl
  have hcover : a.length ≤ (BitVec.ofNat 32 ((a.length + 128 - 1) / 128)).toNat
      * (BitVec.ofNat 32 128).toNat := by
    rw [hgrid, hwidth]
    omega
  obtain ⟨fuel, stats, g', hlaunch, hsame, hwords⟩ := launch_adding (F := F) hop hannotated
    hprogram.words hn hcover (by rw [hgrid, hwidth]; omega) hg.size
    (hbuffer _ (.head _) (length_bytesOf a))
    (hbuffer _ (.tail _ (.head _)) ((length_bytesOf b).trans (by rw [hlen])))
    (hbuffer _ (.tail _ (.tail _ (.head _))) (Nat.mul_comm _ 4)) (.inl hxz) (.inl hyz)
  refine ⟨fuel, stats, g', hlaunch, hsame.size, ?_⟩
  refine List.ext_getElem (by simp) fun i hi hi' => ?_
  have hia : i < a.length := hlength ▸ hi'
  rw [List.getElem_map, List.getElem_range, hwords i hia, hx.word hia, hy.word (hlen ▸ hia),
    List.getElem_zipWith]

theorem zipWith_golden (a b : List Word) : List.zipWith (· + ·) a b
    = (Golden.vecaddS32 (a.map BitVec.toInt) (b.map BitVec.toInt)).map (BitVec.ofInt 32) := by
  rw [Golden.vecaddS32, List.zipWith_map, List.map_zipWith]
  congr 1
  funext v w
  rw [Golden.wrap_eq, BitVec.ofInt_toInt, Golden.ofInt_int64, BitVec.ofInt_add, BitVec.ofInt_toInt,
    BitVec.ofInt_toInt]

/-- The launchers of the vector additions return their golden models, on arrays of one length that
are not empty; a launch for empty ones raises. -/
theorem runVecadd_golden (F : FloatOps) (C : FloatChars) {a b : List Word}
    (hlen : b.length = a.length) (hsize : defaultBytes (vecaddArgs a b) ≤ 2 ^ 32) :
    (1 ≤ a.length →
      (∃ fuel stats, runVecadd F C a b fuel
        = some (.ok ⟨[bytesOf (List.zipWith F.add a b)], stats⟩))
      ∧ ∃ fuel stats, runVecaddS32 F C a b fuel
        = some (.ok ⟨[bytesOf ((Golden.vecaddS32 (a.map BitVec.toInt) (b.map BitVec.toInt)).map
            (BitVec.ofInt 32))], stats⟩))
    ∧ (a.length = 0 → ∀ fuel,
      runVecadd F C a b fuel = some (.error (.simFault { message := "empty grid or block" }))
      ∧ runVecaddS32 F C a b fuel
        = some (.error (.simFault { message := "empty grid or block" }))) := by
  constructor
  · intro hn
    rw [← zipWith_golden]
    have hadd : assembly Kernels.vecaddS32 = some ([], adding .add, 0) := assembly_vecadd
    constructor
    · obtain ⟨fuel, stats, h⟩ := run_adding (F := F) (C := C) adds_fAdd assembly_vecaddFloat hlen hn
        hsize
      exact ⟨fuel, stats, h⟩
    · obtain ⟨fuel, stats, h⟩ := run_adding (F := F) (C := C) adds_add hadd hlen hn hsize
      exact ⟨fuel, stats, h⟩
  · intro hzero fuel
    have hempty : gridFor a.length vecaddBlock = (0, 1) := by
      rw [hzero]
      rfl
    have hgrid :
        (gridFor a.length vecaddBlock).1 < 2 ^ 32 ∧ (gridFor a.length vecaddBlock).2 < 2 ^ 32
        ∧ (gridFor a.length vecaddBlock).1 * (gridFor a.length vecaddBlock).2 = 0 := by
      rw [hempty]
      decide
    have hblock : (vecaddBlock, 1).1 < 2 ^ 32 ∧ (vecaddBlock, 1).2 < 2 ^ 32 := by decide
    have hfloat := run_empty (F := F) (C := C) _ (vecaddBlock, 1) assembly_vecaddFloat
      (List.forall_mem_nil _) (vecaddArgs_ok a b) hsize ⟨hgrid.1, hgrid.2.1⟩ hgrid.2.2 hblock fuel
    have hint := run_empty (F := F) (C := C) _ (vecaddBlock, 1) assembly_vecadd
      (List.forall_mem_nil _) (vecaddArgs_ok a b) hsize ⟨hgrid.1, hgrid.2.1⟩ hgrid.2.2 hblock fuel
    exact ⟨hfloat, hint⟩

/-- A difference, a sum that is zero, and one that wraps. -/
theorem runVecadd_golden_three :
    ∃ fuel stats, runVecaddS32 default zeroChars [5, -1, 0x7FFFFFFF] [-7, 1, 1] fuel
      = some (.ok ⟨[[254, 255, 255, 255, 0, 0, 0, 0, 0, 0, 0, 128]], stats⟩) := by
  have hsum : bytesOf ((Golden.vecaddS32 ([(5 : Word), -1, 0x7FFFFFFF].map BitVec.toInt)
      ([(-7 : Word), 1, 1].map BitVec.toInt)).map (BitVec.ofInt 32))
      = [254, 255, 255, 255, 0, 0, 0, 0, 0, 0, 0, 128] := by decide +kernel
  rw [← hsum]
  obtain ⟨fuel, stats, h⟩ := ((runVecadd_golden default zeroChars (a := [5, -1, 0x7FFFFFFF])
    (b := [-7, 1, 1]) rfl (by decide)).1 (by decide)).2
  exact ⟨fuel, stats, h⟩

end Vecadd

section Reduce

/-- The arguments of the block reduction. -/
def reduceArgs (x : List Word) : List Arg :=
  [.array (bytesOf x), .output (.words ((x.length + reduceBlock - 1) / reduceBlock)),
    .scalar x.length]

theorem reduceArgs_ok (x : List Word) : ∀ arg ∈ reduceArgs x, arg ≠ .other := by
  intro arg harg hother
  simp [reduceArgs, hother] at harg

/-- The launcher of the block reduction returns its golden model on an array that is not empty, and
raises for an empty one. -/
theorem runReduce_golden (F : FloatOps) (C : FloatChars) {x : List Word}
    (hsize : defaultBytes (reduceArgs x) ≤ 2 ^ 32) :
    (1 ≤ x.length → ∃ fuel stats, runReduce F C x fuel
      = some (.ok ⟨[bytesOf ((Golden.reduceBlocks (x.map BitVec.toInt)).map (BitVec.ofInt 32))],
        stats⟩))
    ∧ (x.length = 0 → ∀ fuel, runReduce F C x fuel
      = some (.error (.simFault { message := "empty grid or block" }))) := by
  constructor
  · intro hn
    have hlength : (Golden.reduceBlocks (x.map BitVec.toInt)).length = (x.length + 255) / 256 := by
      rw [Golden.reduceBlocks_eq, List.length_map, List.length_range, List.length_map]
    have hbytes : 8 * x.length + 512 ≤ 2 ^ 32 := by
      simp only [reduceArgs, defaultBytes, needed, List.map_cons, List.map_nil, List.sum_cons,
        List.sum_nil, length_bytesOf, Output.nbytes, Output.words] at hsize
      omega
    obtain ⟨a, out, v, hlayout⟩ : ∃ a out v, layout 0 (reduceArgs x)
        = [(a, .array (bytesOf x)),
          (out, .output (.words ((x.length + 255) / 256))),
          (v, .scalar x.length)] := ⟨_, _, _, rfl⟩
    have hparams : ((layout 0 (reduceArgs x)).map fun r => BitVec.ofNat 32 (r.2.param r.1))
        = [BitVec.ofNat 32 a, BitVec.ofNat 32 out, BitVec.ofNat 32 x.length] := by
      rw [hlayout, ← ofNat_scalar x.length]
      rfl
    have hout : ((layout 0 (reduceArgs x)).filterMap fun r => r.2.output?.map fun out =>
        (r.1, out.nbytes)) = [(out,
          4 * ((Golden.reduceBlocks (x.map BitVec.toInt)).map (BitVec.ofInt 32)).length)] := by
      rw [hlayout, List.length_map, hlength, Nat.mul_comm]
      rfl
    obtain ⟨fuel, stats, h⟩ := run_returns (F := F) (C := C) ((x.length + 255) / 256, 1)
      (reduceBlock, 1) assembly_reduce
      (List.forall_mem_nil _) (reduceArgs_ok x) hsize
      (by simp only []; omega) (by decide) hparams hout fun program hprogram g hg => by
        have hbuffer : ∀ {n : Nat}, ∀ r ∈ layout 0 (reduceArgs x), r.2.nbytes = 4 * n →
            g.HasBuffer r.1 n := fun r hr => hg.hasBuffer hr
        have hapart := hg.apart
        have hcontents := hg.contents
        simp only [hlayout] at hbuffer hapart hcontents
        have hapart := (List.pairwise_cons.1 hapart).1 _ (.head _)
        simp only [Arg.nbytes, length_bytesOf] at hapart
        have hx : g.Holds a (bytesOf x) := hcontents _ (.head _) _ rfl
        have hin : g.elements a x.length = x.map BitVec.toInt := by
          refine List.ext_getElem (by simp [ByteMemory.elements]) fun i hi hi' => ?_
          have hix : i < x.length := by rwa [List.length_map] at hi'
          simp only [ByteMemory.elements, List.getElem_map, List.getElem_range, hx.word hix]
        obtain ⟨⟨fuel, stats, g', hlaunch, hsame, hwords⟩, -⟩ := launch_reduceSum (F := F) hprogram
          hn rfl hg.size (hbuffer _ (.head _) (length_bytesOf x))
          (hbuffer _ (.tail _ (.head _)) (Nat.mul_comm _ 4)) (.inl hapart)
        have hsums := elements_reduceSum rfl hwords
        refine ⟨fuel, stats, g', hlaunch, hsame.size, ?_⟩
        rw [← hin, ← hsums, ByteMemory.elements, List.length_map, List.length_map,
          List.length_range, List.map_map]
        exact List.map_congr_left fun i _ => (BitVec.ofInt_toInt).symm
    exact ⟨fuel, stats, h⟩
  · intro hzero fuel
    have hempty : (x.length + reduceBlock - 1) / reduceBlock = 0 := by
      rw [hzero]
      rfl
    have hgrid : ((x.length + reduceBlock - 1) / reduceBlock, 1).1 < 2 ^ 32
        ∧ ((x.length + reduceBlock - 1) / reduceBlock, 1).2 < 2 ^ 32
        ∧ ((x.length + reduceBlock - 1) / reduceBlock, 1).1
          * ((x.length + reduceBlock - 1) / reduceBlock, 1).2 = 0 := by
      rw [hempty]
      decide
    have h := run_empty (F := F) (C := C) _ (reduceBlock, 1) assembly_reduce
      (List.forall_mem_nil _)
      (reduceArgs_ok x) hsize ⟨hgrid.1, hgrid.2.1⟩ hgrid.2.2 (by decide) fuel
    exact h

theorem runReduce_golden_two : ∃ fuel stats, runReduce default zeroChars [5, -1] fuel
    = some (.ok ⟨[[4, 0, 0, 0]], stats⟩) := by
  have hsum :
      bytesOf ((Golden.reduceBlocks ([(5 : Word), -1].map BitVec.toInt)).map (BitVec.ofInt 32))
      = [4, 0, 0, 0] := by decide +kernel
  rw [← hsum]
  obtain ⟨fuel, stats, h⟩ := (runReduce_golden default zeroChars (x := [5, -1]) (by decide)).1
    (by decide)
  exact ⟨fuel, stats, h⟩

end Reduce

section Matmul

/-- The arguments of both matrix products. -/
def matmulArgs (a b : Array2) : List Arg :=
  [.array (bytesOf a.items), .array (bytesOf b.items),
    .output (.words (a.rows * b.columns)), .scalar a.rows, .scalar b.columns,
    .scalar a.columns]

theorem matmulArgs_ok (a b : Array2) : ∀ arg ∈ matmulArgs a b, arg ≠ .other := by
  intro arg harg hother
  simp [matmulArgs, hother] at harg

/-- The grid of both matrix products. -/
def matmulExtent (a b : Array2) : Nat × Nat :=
  ((b.columns + tile - 1) / tile, (a.rows + tile - 1) / tile)

/-- The product, each element accumulated from the left by fused multiply-adds. -/
def product (F : FloatOps) (a b : Array2) : List Word :=
  (List.range (a.rows * b.columns)).map fun q =>
    matmulFold F (a.item (q / b.columns)) (fun l => b.item l (q % b.columns)) a.columns

variable {F : FloatOps} {C : FloatChars} {kernel : Text} {floats : List Text}
  {decoded : List Instruction} {shared : Word} {a b : Array2}

/-- A matrix product returns the elements of the product, each of them finished. -/
theorem run_product (finish : Word → Word)
    (hassembly : assembly kernel = some (floats, decoded, shared))
    (hC : ∀ text ∈ floats, C.fromChars text = zeroChars.fromChars text)
    (hcomputes : ∀ {x y z : Nat} {g : ByteMemory} {program : Program},
      program.Decoded decoded shared → MatmulBuffers x y z a.rows b.columns a.columns g →
      ∃ fuel stats g', Device.launch F program (matrixGrid a.rows b.columns) ⟨16, 16⟩
          (matmulParams x y z a.rows b.columns a.columns) g fuel = some (.ok stats, g')
        ∧ MatrixResult (fun i j => finish (matmulAt F x y b.columns a.columns g i j)) z a.rows
          b.columns g g')
    (hinner : a.columns ≤ b.rows) (hrows : 1 ≤ a.rows) (hcolumns : 1 ≤ b.columns)
    (hk : 1 ≤ a.columns) (hsize : defaultBytes (matmulArgs a b) ≤ 2 ^ 32) :
    ∃ fuel stats, run F C kernel (matmulExtent a b) (tile, tile) (matmulArgs a b) fuel
      = some (.ok ⟨[bytesOf ((product F a b).map finish)], stats⟩) := by
  have hlength : ((product F a b).map finish).length = a.rows * b.columns := by
    rw [List.length_map, product, List.length_map, List.length_range]
  have hright : a.columns * b.columns ≤ b.rows * b.columns := Nat.mul_le_mul_right _ hinner
  have hbytes : 4 * (a.rows * a.columns) + 4 * (b.rows * b.columns) + 4 * (a.rows * b.columns) + 768
      ≤ 2 ^ 32 := by
    simp only [matmulArgs, defaultBytes, needed, List.map_cons, List.map_nil, List.sum_cons,
      List.sum_nil, length_bytesOf, Array2.length_items, Output.nbytes, Output.words] at hsize
    omega
  have hm : a.rows ≤ a.rows * a.columns := Nat.le_mul_of_pos_right _ hk
  have hn : b.columns ≤ a.columns * b.columns := Nat.le_mul_of_pos_left _ hk
  obtain ⟨x, y, z, u, v, w, hlayout⟩ : ∃ x y z u v w, layout 0 (matmulArgs a b)
      = [(x, .array (bytesOf a.items)), (y, .array (bytesOf b.items)),
        (z, .output (.words (a.rows * b.columns))), (u, .scalar a.rows),
        (v, .scalar b.columns), (w, .scalar a.columns)] := ⟨_, _, _, _, _, _, rfl⟩
  have hparams : ((layout 0 (matmulArgs a b)).map fun r => BitVec.ofNat 32 (r.2.param r.1))
      = matmulParams x y z a.rows b.columns a.columns := by
    rw [hlayout, matmulParams, ← ofNat_scalar a.rows, ← ofNat_scalar b.columns,
      ← ofNat_scalar a.columns]
    rfl
  have hout : ((layout 0 (matmulArgs a b)).filterMap fun r => r.2.output?.map fun out =>
      (r.1, out.nbytes)) = [(z, 4 * ((product F a b).map finish).length)] := by
    rw [hlayout, hlength, Nat.mul_comm 4]
    rfl
  refine run_returns _ _ hassembly hC (matmulArgs_ok a b) hsize
    (by simp only [matmulExtent, tile]; omega) (by decide) hparams hout
    fun program hprogram g hg => ?_
  have hbuffer : ∀ {n : Nat}, ∀ r ∈ layout 0 (matmulArgs a b), r.2.nbytes = 4 * n →
      g.HasBuffer r.1 n := fun r hr => hg.hasBuffer hr
  have hapart := hg.apart
  have hcontents := hg.contents
  simp only [hlayout] at hbuffer hapart hcontents
  obtain ⟨hxz, hapart⟩ := List.pairwise_cons.1 hapart
  have hxz := hxz _ (.tail _ (.head _))
  have hyz := (List.pairwise_cons.1 hapart).1 _ (.head _)
  simp only [Arg.nbytes, length_bytesOf, Array2.length_items] at hxz hyz
  have hx : g.Holds x (bytesOf a.items) := hcontents _ (.head _) _ rfl
  have hy : g.Holds y (bytesOf b.items) := hcontents _ (.tail _ (.head _)) _ rfl
  have hleft : g.HasBuffer x (a.rows * a.columns) :=
    hbuffer _ (.head _) (by rw [Arg.nbytes, length_bytesOf, a.length_items])
  have hwhole : g.HasBuffer y (b.rows * b.columns) :=
    hbuffer _ (.tail _ (.head _)) (by rw [Arg.nbytes, length_bytesOf, b.length_items])
  obtain ⟨fuel, stats, g', hlaunch, hsame, helements⟩ := hcomputes hprogram
    { size := hg.size
      rows := hrows
      columns := hcolumns
      inner := hk
      left := hleft
      right := ⟨hwhole.1, by have := hwhole.2; omega⟩
      result := hbuffer _ (.tail _ (.tail _ (.head _))) (Nat.mul_comm _ 4)
      apartLeft := .inl hxz
      apartRight := .inl (by omega) }
  refine ⟨fuel, stats, g', hlaunch, hsame.size, ?_⟩
  refine List.ext_getElem (by simp) fun q hq hq' => ?_
  have hq : q < a.rows * b.columns := hlength ▸ hq'
  have hi : q / b.columns < a.rows := (Nat.div_lt_iff_lt_mul hcolumns).2 hq
  have hj : q % b.columns < b.columns := Nat.mod_lt _ hcolumns
  have hword : g'.word (z + 4 * q)
      = finish (matmulAt F x y b.columns a.columns g (q / b.columns) (q % b.columns)) := by
    have h := helements _ hi _ hj
    rwa [Nat.div_add_mod'] at h
  have hfold : matmulAt F x y b.columns a.columns g (q / b.columns) (q % b.columns)
      = matmulFold F (a.item (q / b.columns)) (fun l => b.item l (q % b.columns)) a.columns :=
    matmulFold_congr fun l hl => ⟨Array2.word_item hx hi hl,
      Array2.word_item hy (Nat.lt_of_lt_of_le hl hinner) hj⟩
  simp only [List.getElem_map, List.getElem_range, hword, hfold, product]

/-- The launchers of the matrix products return the product, the tiled one with the steps that pad
its last tile added to each element. Rows of the right matrix past the columns of the left one do
not count. A launch raises if the product has no elements. -/
theorem runMatmul_product (F : FloatOps) (C : FloatChars)
    (hC : C.fromChars ['0', '.', '0'] = some 0) {a b : Array2} (hinner : a.columns ≤ b.rows)
    (hk : 1 ≤ a.columns) (hsize : defaultBytes (matmulArgs a b) ≤ 2 ^ 32) :
    (1 ≤ a.rows → 1 ≤ b.columns →
      (∃ fuel stats, runMatmulNaive F C a b fuel = some (.ok ⟨[bytesOf (product F a b)], stats⟩))
      ∧ ∃ fuel stats, runMatmulTiled F C a b fuel
        = some (.ok ⟨[bytesOf ((product F a b).map
            (F.fma 0 0)^[16 * tiles a.columns - a.columns])], stats⟩))
    ∧ (a.rows = 0 ∨ b.columns = 0 → ∀ fuel,
      runMatmulNaive F C a b fuel = some (.error (.simFault { message := "empty grid or block" }))
      ∧ runMatmulTiled F C a b fuel
        = some (.error (.simFault { message := "empty grid or block" }))) := by
  have hright : a.columns * b.columns ≤ b.rows * b.columns := Nat.mul_le_mul_right _ hinner
  constructor
  · intro hrows hcolumns
    constructor
    · obtain ⟨fuel, stats, h⟩ := run_product id assembly_matmulNaive (zeros_of hC 1)
        (fun hprogram h => naive_computes (F := F) hprogram.words h) hinner hrows hcolumns hk hsize
      rw [List.map_id] at h
      exact ⟨fuel, stats, h⟩
    · obtain ⟨fuel, stats, h⟩ := run_product (F.fma 0 0)^[16 * tiles a.columns - a.columns]
        assembly_matmulTiled (zeros_of hC 3)
        (fun hprogram h => (tiled_computes (F := F) hprogram h).1) hinner hrows hcolumns hk hsize
      exact ⟨fuel, stats, h⟩
  · intro hzero fuel
    have hbytes : 4 * (a.rows * a.columns) + 4 * (b.rows * b.columns) ≤ 2 ^ 32 := by
      simp only [matmulArgs, defaultBytes, needed, List.map_cons, List.map_nil, List.sum_cons,
        List.sum_nil, length_bytesOf, Array2.length_items] at hsize
      omega
    have hm : a.rows ≤ a.rows * a.columns := Nat.le_mul_of_pos_right _ hk
    have hn : b.columns ≤ a.columns * b.columns := Nat.le_mul_of_pos_left _ hk
    have hgrid : (matmulExtent a b).1 < 2 ^ 32 ∧ (matmulExtent a b).2 < 2 ^ 32 := by
      simp only [matmulExtent, tile]
      omega
    have hempty : (matmulExtent a b).1 * (matmulExtent a b).2 = 0 := by
      rcases hzero with h | h
      · rw [matmulExtent, h]
        exact Nat.mul_zero _
      · rw [matmulExtent, h]
        exact Nat.zero_mul _
    have hnaive := run_empty (F := F) (C := C) _ (tile, tile) assembly_matmulNaive
      (zeros_of hC 1) (matmulArgs_ok a b) hsize hgrid hempty (by decide) fuel
    have htiled := run_empty (F := F) (C := C) _ (tile, tile) assembly_matmulTiled
      (zeros_of hC 3) (matmulArgs_ok a b) hsize hgrid hempty (by decide) fuel
    exact ⟨hnaive, htiled⟩

theorem runMatmul_product_two : ∃ fuel stats,
    runMatmulTiled integerOps zeroChars ⟨2, 3, [1, 2, 3, 4, 5, 6], rfl⟩
        ⟨3, 2, [7, 8, 9, 10, 11, 12], rfl⟩ fuel
      = some (.ok ⟨[[58, 0, 0, 0, 64, 0, 0, 0, 139, 0, 0, 0, 154, 0, 0, 0]], stats⟩) := by
  have hproduct : bytesOf ((product integerOps ⟨2, 3, [1, 2, 3, 4, 5, 6], rfl⟩
      ⟨3, 2, [7, 8, 9, 10, 11, 12], rfl⟩).map (integerOps.fma 0 0)^[16 * tiles 3 - 3])
      = [58, 0, 0, 0, 64, 0, 0, 0, 139, 0, 0, 0, 154, 0, 0, 0] := by decide +kernel
  rw [← hproduct]
  obtain ⟨fuel, stats, h⟩ := ((runMatmul_product integerOps zeroChars rfl
    (a := ⟨2, 3, [1, 2, 3, 4, 5, 6], rfl⟩) (b := ⟨3, 2, [7, 8, 9, 10, 11, 12], rfl⟩) (by decide)
    (by decide) (by decide)).1 (by decide) (by decide)).2
  exact ⟨fuel, stats, h⟩

end Matmul

end Kernels

end WarpSim
