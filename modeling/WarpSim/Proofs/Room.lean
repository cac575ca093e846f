import WarpSim.Proofs.Alone
import WarpSim.Proofs.Counters

/-!
# Room to spare

What happens in some memory happens in more: with further bytes behind the global and the shared
memory, and further parameters behind the table, a launch returns the same and leaves the further
bytes as they are, unless it faulted for want of just these.
-/

namespace WarpSim

/-- The faults of an access past the end. -/
def Lacking (message : String) : Prop :=
  message = "access out of bounds" ∨ message = "parameter ordinal out of range"

/-- A port that does what another one does on a mapped memory, unless that one lacks something. -/
structure MemoryPort.Embeds {σ τ : Type} (port : MemoryPort σ) (port' : MemoryPort τ) (f : σ → τ) :
    Prop where
  load : ∀ {space address lane m r m'}, port.load space address lane m = (r, m') →
    port'.load space address lane (f m) = (r, f m') ∨ ∃ e, r = .error e ∧ Lacking e.message
  store : ∀ {space address value lane m r m'}, port.store space address value lane m = (r, m') →
    port'.store space address value lane (f m) = (r, f m') ∨ ∃ e, r = .error e ∧ Lacking e.message
  onWarpAccess : ∀ space isStore addresses exec m,
    port'.onWarpAccess space isStore addresses exec (f m)
      = f (port.onWarpAccess space isStore addresses exec m)

namespace Warp

section Embeds

variable {F : FloatOps} {σ τ : Type} {port : MemoryPort σ} {port' : MemoryPort τ} {f : σ → τ}

theorem accessLanes_embeds (h : port.Embeds port' f) (i : Instruction) (exec : LaneMask)
    (addresses : Nat → Word) : ∀ (l : List Nat) {w w' : Warp} {m m' : σ} {r : Except Fault Unit},
      accessLanes port i exec addresses l w m = (r, w', m') →
        accessLanes port' i exec addresses l w (f m) = (r, w', f m')
          ∨ ∃ e, r = .error e ∧ Lacking e.message
  | [], w, w', m, m', r, hr => by
    cases hr
    exact .inl rfl
  | lane :: rest, w, w', m, m', r, hr => by
    rw [accessLanes] at hr ⊢
    split_ifs at hr ⊢ with hexec hstore
    · exact accessLanes_embeds h i exec addresses rest hr
    · rcases hs : port.store (accessSpace i.opcode) (addresses lane) (w.registers.read lane i.src1)
        lane m with ⟨e | u, m₁⟩ <;> simp only [hs] at hr
      · cases hr
        rcases h.store hs with hs' | ⟨e', heq, hlack⟩
        · simp only [hs', true_or]
        · cases heq
          exact .inr ⟨_, rfl, hlack⟩
      · rcases h.store hs with hs' | ⟨e', heq, -⟩
        · simp only [hs']
          exact accessLanes_embeds h i exec addresses rest hr
        · cases heq
    · rcases hl : port.load (accessSpace i.opcode) (addresses lane) lane m with ⟨e | v, m₁⟩ <;>
        simp only [hl] at hr
      · cases hr
        rcases h.load hl with hl' | ⟨e', heq, hlack⟩
        · simp only [hl', true_or]
        · cases heq
          exact .inr ⟨_, rfl, hlack⟩
      · rcases h.load hl with hl' | ⟨e', heq, -⟩
        · simp only [hl']
          exact accessLanes_embeds h i exec addresses rest hr
        · cases heq

theorem memoryAccess_embeds (h : port.Embeds port' f) {i : Instruction} {exec : LaneMask}
    {w w' : Warp} {m m' : σ} {r : Except Fault Unit}
    (hr : w.memoryAccess port i exec m = (r, w', m')) :
    w.memoryAccess port' i exec (f m) = (r, w', f m') ∨ ∃ e, r = .error e ∧ Lacking e.message := by
  rw [memoryAccess] at hr ⊢
  split_ifs at hr ⊢ with hexec
  · rw [h.onWarpAccess]
    exact accessLanes_embeds h i exec _ lanes hr
  · exact accessLanes_embeds h i exec _ lanes hr

theorem issue_embeds (h : port.Embeds port' f) {i : Instruction} {w w' : Warp} {m m' : σ}
    {r : Except Fault StepOutcome} (hr : w.issue F port i m = (r, w', m')) :
    w.issue F port' i (f m) = (r, w', f m') ∨ ∃ e, r = .error e ∧ Lacking e.message := by
  rcases LaneState.opcode_cases i.opcode with hop | hop | hop | hop | hop
  · rw [issue_alu F _ hop] at hr ⊢
    cases hr
    exact .inl rfl
  · rw [issue_memory F _ hop] at hr ⊢
    rcases haccess : memoryAccess port i (w.execMask i)
      { w with lastExec := w.execMask i, lastOpcode := i.opcode } m with ⟨e | u, w₁, m₁⟩ <;>
      rw [haccess] at hr <;> cases hr <;>
      rcases memoryAccess_embeds h haccess with haccess' | ⟨e', heq, hlack⟩
    · exact .inl (by rw [haccess'])
    · cases heq
      exact .inr ⟨_, rfl, hlack⟩
    · exact .inl (by rw [haccess'])
    · cases heq
  · simp only [issue, hop] at hr ⊢
    cases hr
    exact .inl rfl
  · simp only [issue, hop] at hr ⊢
    cases hr
    exact .inl rfl
  · simp only [issue, hop] at hr ⊢
    split_ifs at hr ⊢ <;> cases hr <;> exact .inl rfl

/-- A step, on the mapped memory. -/
theorem step_embeds (h : port.Embeds port' f) {program : List Instruction} {w w' : Warp} {m m' : σ}
    {r : Except Fault StepOutcome} (hr : w.step F port program m = (r, w', m')) :
    w.step F port' program (f m) = (r, w', f m') ∨ ∃ e, r = .error e ∧ Lacking e.message := by
  rw [step] at hr ⊢
  rcases hsettle : w.settle program with w₁ | ⟨i, w₁⟩ <;> simp only [hsettle] at hr ⊢
  · cases hr
    exact .inl rfl
  · exact issue_embeds h hr

end Embeds

end Warp

namespace ByteMemory

variable {m : ByteMemory} {address : Word} {lane k : Nat}

/-- The memory with further bytes behind it. -/
def extend (m : ByteMemory) (bytes : List (BitVec 8)) : ByteMemory := ⟨m.bytes ++ bytes⟩

theorem check_ok (h : m.check address lane = .ok ()) : address.toNat + 4 ≤ m.size := by
  rw [check] at h
  split_ifs at h with halign hsize
  exact Nat.not_lt.1 hsize

theorem check_extend (m : ByteMemory) (bytes : List (BitVec 8)) (address : Word) (lane : Nat) :
    (m.extend bytes).check address lane = m.check address lane
      ∨ ∃ e, m.check address lane = .error e ∧ Lacking e.message := by
  have hsize : m.size ≤ (m.extend bytes).size := by
    rw [size, size, extend, List.length_append]
    exact Nat.le_add_right _ _
  rw [check, check]
  split_ifs with halign hsmall hlarge
  · exact .inl rfl
  · exact .inl rfl
  · omega
  · exact .inr ⟨_, rfl, .inl rfl⟩
  · exact .inl rfl

theorem word_extend (h : k + 4 ≤ m.size) (bytes : List (BitVec 8)) :
    (m.extend bytes).word k = m.word k := by
  have hbyte : ∀ d < 4, (m.extend bytes).byte (k + d) = m.byte (k + d) := by
    intro d hd
    have hlt : k + d < m.bytes.length := by
      rw [size] at h
      omega
    rw [byte, byte, extend, List.getD_eq_getElem?_getD, List.getElem?_append_left hlt,
      List.getD_eq_getElem?_getD]
  rw [word, word, hbyte 3 (by decide), hbyte 2 (by decide), hbyte 1 (by decide),
    show (m.extend bytes).byte k = _ from hbyte 0 (by decide)]
  rfl

theorem setWord_extend (h : k + 4 ≤ m.size) (value : Word) (bytes : List (BitVec 8)) :
    (m.extend bytes).setWord k value = (m.setWord k value).extend bytes := by
  rw [size] at h
  simp only [setWord, extend]
  rw [List.set_append_left _ _ (by omega),
    List.set_append_left _ _ (by rw [List.length_set]; omega),
    List.set_append_left _ _ (by rw [List.length_set, List.length_set]; omega),
    List.set_append_left _ _ (by rw [List.length_set, List.length_set, List.length_set]; omega)]

theorem load32_extend (m : ByteMemory) (bytes : List (BitVec 8)) (address : Word) (lane : Nat) :
    (m.extend bytes).load32 address lane = m.load32 address lane
      ∨ ∃ e, m.load32 address lane = .error e ∧ Lacking e.message := by
  rw [load32, load32]
  rcases check_extend m bytes address lane with hcheck | ⟨e, hcheck, hlack⟩
  · rw [hcheck]
    rcases hok : m.check address lane with e | u
    · exact .inl rfl
    · have hword := word_extend (check_ok hok) bytes
      exact .inl (congrArg Except.ok hword)
  · exact .inr ⟨e, by rw [hcheck]; rfl, hlack⟩

theorem store32_extend (m : ByteMemory) (bytes : List (BitVec 8)) (address value : Word)
    (lane : Nat) : (m.extend bytes).store32 address value lane
        = (m.store32 address value lane).map (extend · bytes)
      ∨ ∃ e, m.store32 address value lane = .error e ∧ Lacking e.message := by
  rw [store32, store32]
  rcases check_extend m bytes address lane with hcheck | ⟨e, hcheck, hlack⟩
  · rw [hcheck]
    rcases hok : m.check address lane with e | u
    · exact .inl rfl
    · have hset := setWord_extend (check_ok hok) value bytes
      exact .inl (congrArg Except.ok hset)
  · exact .inr ⟨e, by rw [hcheck]; rfl, hlack⟩

end ByteMemory

/-- What there is beyond some memory: bytes behind the global and the shared one, and parameters
behind the table. -/
structure Room where
  global : List (BitVec 8) := []
  shared : List (BitVec 8) := []
  params : List Word := []

namespace BlockMemory

def extend (x : Room) (m : BlockMemory) : BlockMemory where
  global := m.global.extend x.global
  shared := m.shared.extend x.shared
  params := m.params ++ x.params
  stats := m.stats

theorem load_extend (x : Room) (m : BlockMemory) (space : Space) (address : Word) (lane : Nat) :
    (m.extend x).load space address lane = ((m.load space address lane).1, m.extend x)
      ∨ ∃ e, (m.load space address lane).1 = .error e ∧ Lacking e.message := by
  rcases space with _ | _ | _
  · exact (ByteMemory.load32_extend m.global x.global address lane).imp
      (fun h => congrArg (·, m.extend x) h) id
  · exact (ByteMemory.load32_extend m.shared x.shared address lane).imp
      (fun h => congrArg (·, m.extend x) h) id
  · rw [load, load]
    rcases hparam : m.params[address.toNat]? with _ | w
    · exact .inr ⟨_, rfl, .inr rfl⟩
    · obtain ⟨hlt, -⟩ := List.getElem?_eq_some_iff.1 hparam
      left
      rw [show (m.extend x).params[address.toNat]? = _ from List.getElem?_append_left hlt, hparam]

theorem store_extend (x : Room) (m : BlockMemory) (space : Space) (address value : Word)
    (lane : Nat) : (m.extend x).store space address value lane
        = ((m.store space address value lane).1, (m.store space address value lane).2.extend x)
      ∨ ∃ e, (m.store space address value lane).1 = .error e ∧ Lacking e.message := by
  rcases space with _ | _ | _
  · rw [store, store]
    rcases ByteMemory.store32_extend m.global x.global address value lane with h | ⟨e, h, hlack⟩
    · left
      rw [show (m.extend x).global.store32 address value lane = _ from h]
      rcases m.global.store32 address value lane with e | g <;> rfl
    · exact .inr ⟨e, by rw [h], hlack⟩
  · rw [store, store]
    rcases ByteMemory.store32_extend m.shared x.shared address value lane with h | ⟨e, h, hlack⟩
    · left
      rw [show (m.extend x).shared.store32 address value lane = _ from h]
      rcases m.shared.store32 address value lane with e | g <;> rfl
    · exact .inr ⟨e, by rw [h], hlack⟩
  · exact .inl rfl

/-- A block's accesses in a memory with more room. -/
theorem port_embeds (x : Room) : port.Embeds port (extend x) where
  load := by
    intro space address lane m r m' h
    have hsame : (m.load space address lane).2 = m := by
      rcases space with _ | _ | _
      · rfl
      · rfl
      · rw [load]
        rcases m.params[address.toNat]? with _ | w <;> rfl
    have hr : m.load space address lane = (r, m') := h
    rw [hr] at hsame
    have hload := load_extend x m space address lane
    rw [hr] at hload
    rw [show m' = m from hsame]
    exact hload
  store := by
    intro space address value lane m r m' h
    have hstore := store_extend x m space address value lane
    rw [show m.store space address value lane = (r, m') from h] at hstore
    exact hstore
  onWarpAccess := fun space _ _ _ _ => by cases space <;> rfl

end BlockMemory

section Blocks

variable {F : FloatOps} {program : List Instruction} (x : Room)

def Block.extend (b : Block) : Block := { b with memory := b.memory.extend x }

def Scheduler.extend (s : Scheduler) : Scheduler := { s with memory := s.memory.extend x }

def Progress.extend : Progress → Progress
  | .running event s => .running event (s.extend x)
  | .returned r b => .returned r (b.extend x)

variable (F program) in
theorem Block.turn_extend (b : Block) (i : Nat) (warp : Warp) :
    (b.extend x).turn F program i warp
        = ((b.turn F program i warp).1, (b.turn F program i warp).2.extend x)
      ∨ ∃ f, (b.turn F program i warp).1 = .error f ∧ Lacking f.message := by
  rcases hstep : warp.step F BlockMemory.port program b.memory with ⟨f | outcome, w, m⟩ <;>
    simp only [turn, hstep] <;>
    rcases Warp.step_embeds (BlockMemory.port_embeds x) hstep with hstep' | ⟨e, heq, hlack⟩
  · left
    rw [show warp.step F BlockMemory.port program (b.extend x).memory = _ from hstep']
    rfl
  · cases heq
    exact .inr ⟨_, rfl, hlack⟩
  · left
    rw [show warp.step F BlockMemory.port program (b.extend x).memory = _ from hstep']
    rfl
  · cases heq

variable (F program) in
theorem Scheduler.advance_extend (s : Scheduler) :
    (s.extend x).advance F program = (s.advance F program).extend x
      ∨ ∃ f b, s.advance F program = .returned (.error f) b ∧ Lacking f.message := by
  rw [advance, advance, show (s.extend x).warps[(s.extend x).next]? = s.warps[s.next]? from rfl]
  rcases hwarp : s.warps[s.next]? with _ | warp
  · left
    simp only [show (s.extend x).anyUnfinished = s.anyUnfinished from rfl,
      show (s.extend x).allParked = s.allParked from rfl,
      show (s.extend x).anyRunnable = s.anyRunnable from rfl]
    split_ifs <;> rfl
  · simp only []
    split_ifs with hrun
    · exact .inl rfl
    · rcases Block.turn_extend F program x s.toBlock s.next warp with h | ⟨f, h, hlack⟩
      · left
        rw [show (s.extend x).toBlock.turn F program (s.extend x).next warp = _ from h]
        rcases s.toBlock.turn F program s.next warp with ⟨f | outcome, b⟩ <;> rfl
      · right
        rcases hturn : s.toBlock.turn F program s.next warp with ⟨f' | outcome, b⟩ <;>
          rw [hturn] at h <;> cases h
        exact ⟨_, b, rfl, hlack⟩

theorem Scheduler.run_extend {r : Except Fault Unit} {b : Block} : ∀ {fuel : Nat} {s : Scheduler},
    s.run F program fuel = some (r, b) →
      (s.extend x).run F program fuel = some (r, b.extend x)
        ∨ ∃ f, r = .error f ∧ Lacking f.message
  | 0, s, h => by cases h
  | fuel + 1, s, h => by
    rw [run] at h ⊢
    rcases advance_extend F program x s with hadv | ⟨f, b', hadv, hlack⟩
    · rw [hadv]
      rcases hs : s.advance F program with ⟨event, s'⟩ | ⟨r', b'⟩ <;> rw [hs] at h
      · exact run_extend h
      · cases h
        exact .inl rfl
    · rw [hadv] at h
      cases h
      exact .inr ⟨f, rfl, hlack⟩

end Blocks

def LaunchState.extend (d : LaunchState) (bytes : List (BitVec 8)) : LaunchState :=
  { d with global := d.global.extend bytes }

namespace Launch

variable {F : FloatOps} {l : Launch} {sharedBytes : Word}

/-- The launch with more shared memory and further parameters. -/
def extend (l : Launch) (sharedBytes : Word) (params : List Word) : Launch :=
  { l with sharedBytes := sharedBytes, params := l.params ++ params }

theorem blockMemory_extend (h : l.sharedBytes.toNat ≤ sharedBytes.toNat) (params : List Word)
    (bytes : List (BitVec 8)) (g : ByteMemory) :
    (l.extend sharedBytes params).blockMemory (g.extend bytes) = (l.blockMemory g).extend
      ⟨bytes, List.replicate (sharedBytes.toNat - l.sharedBytes.toNat) 0, params⟩ := by
  have hshared :
    ByteMemory.zeroed sharedBytes.toNat = (ByteMemory.zeroed l.sharedBytes.toNat).extend
      (List.replicate (sharedBytes.toNat - l.sharedBytes.toNat) 0) := by
    rw [ByteMemory.zeroed, ByteMemory.zeroed, ByteMemory.extend, List.replicate_append_replicate,
      Nat.add_sub_cancel' h]
  rw [blockMemory, show (l.extend sharedBytes params).sharedBytes = sharedBytes from rfl, hshared]
  rfl

theorem runBlocks_extend (h : l.sharedBytes.toNat ≤ sharedBytes.toNat) (params : List Word)
    (bytes : List (BitVec 8)) {fuel : Nat} {r : Except Fault Unit} :
    ∀ {order : List Dim2} {d d' : LaunchState}, l.runBlocks F fuel order d = some (r, d') →
      (l.extend sharedBytes params).runBlocks F fuel order (d.extend bytes)
          = some (r, d'.extend bytes)
        ∨ ∃ f, r = .error f ∧ Lacking f.message
  | [], d, d', hrun => by
    cases hrun
    exact .inl rfl
  | ctaid :: order, d, d', hrun => by
    have hmemory := blockMemory_extend h params bytes d.global
    rw [runBlocks] at hrun ⊢
    rcases hblock : runBlock F l.program (l.blockMemory d.global) (l.context ctaid) l.block.count
      d.stats fuel with _ | ⟨r', b⟩
    · rw [hblock] at hrun
      cases hrun
    · rw [hblock] at hrun
      rcases Scheduler.run_extend
        ⟨bytes, List.replicate (sharedBytes.toNat - l.sharedBytes.toNat) 0, params⟩ hblock
        with hblock' | ⟨f, rfl, hlack⟩
      · have hextended : runBlock F (l.extend sharedBytes params).program
            ((l.extend sharedBytes params).blockMemory (d.extend bytes).global)
            ((l.extend sharedBytes params).context ctaid) (l.extend sharedBytes params).block.count
            (d.extend bytes).stats fuel = some (r', b.extend
              ⟨bytes, List.replicate (sharedBytes.toNat - l.sharedBytes.toNat) 0, params⟩) := by
          rw [show (d.extend bytes).global = d.global.extend bytes from rfl, hmemory]
          exact hblock'
        rw [hextended]
        rcases r' with f | u
        · cases hrun
          exact .inl rfl
        · exact runBlocks_extend h params bytes hrun
      · cases hrun
        exact .inr ⟨f, rfl, hlack⟩

end Launch

/-- A launch with more global memory, more shared memory and further parameters returns the same or
faults the same, and leaves the further bytes as they are, unless the launch without them faulted
for want of them. -/
theorem Device.launch_extends {F : FloatOps} {program program' : Program} {grid block : Dim2}
    {params : List Word} {g g' : ByteMemory} {fuel : Nat} {r : Except Fault LaunchStats}
    (hwords : program'.words = program.words)
    (hshared : program.sharedBytes.toNat ≤ program'.sharedBytes.toNat)
    (h : launch F program grid block params g fuel = some (r, g')) (more : List Word)
    (bytes : List (BitVec 8)) :
    launch F program' grid block (params ++ more) ⟨g.bytes ++ bytes⟩ fuel
        = some (r, ⟨g'.bytes ++ bytes⟩)
      ∨ ∃ f, r = .error f ∧ (f.message = "access out of bounds"
        ∨ f.message = "parameter ordinal out of range") := by
  rw [launch] at h ⊢
  rw [hwords]
  rcases hdecode : decodeWords 0 program.words with f | decoded <;> rw [hdecode] at h
  · cases h
    exact .inl rfl
  · simp only [] at h ⊢
    split_ifs at h ⊢ with hempty
    · cases h
      exact .inl rfl
    · rcases hrun : (Launch.ofProgram program decoded grid block params).runBlocks F fuel
        (blockOrder grid) { global := g } with _ | ⟨r', d⟩ <;> rw [hrun] at h
      · cases h
      · rcases Launch.runBlocks_extend (l := .ofProgram program decoded grid block params) hshared
          more bytes hrun with hrun' | ⟨f, rfl, hlack⟩
        · left
          rw [show (Launch.ofProgram program' decoded grid block (params ++ more)).runBlocks F fuel
            (blockOrder grid) { global := ⟨g.bytes ++ bytes⟩ } = _ from hrun']
          rcases r' with f | u <;> cases h <;> rfl
        · cases h
          exact .inr ⟨f, rfl, hlack⟩

/-- The launch of `oddProgram` with three bytes and a parameter to spare. -/
theorem Launch.oddProgram_extends : ∃ s, ∃ g' : ByteMemory,
    Device.launch default oddProgram ⟨1, 1⟩ ⟨40, 1⟩ [7]
      ⟨(ByteMemory.zeroed 160).bytes ++ [1, 2, 3]⟩ 40
      = some (.ok s, ⟨g'.bytes ++ [1, 2, 3]⟩) := by
  have hok : (Device.launch default oddProgram ⟨1, 1⟩ ⟨40, 1⟩ [] (.zeroed 160) 40).any
      (fun r => r.1.isOk) = true := by decide +kernel
  rcases h : Device.launch default oddProgram ⟨1, 1⟩ ⟨40, 1⟩ [] (.zeroed 160) 40
    with _ | ⟨_ | s, g'⟩ <;> rw [h] at hok
  · cases hok
  · cases hok
  · rcases Device.launch_extends (show oddProgram.words = oddProgram.words from rfl)
      (Nat.le_refl _) h
      [7] [1, 2, 3] with h' | ⟨f, hf, -⟩
    · exact ⟨s, g', h'⟩
    · cases hf

end WarpSim
