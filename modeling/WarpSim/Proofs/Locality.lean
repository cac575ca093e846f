import WarpSim.Device
import WarpSim.Proofs.Micro
import Mathlib.Data.List.Basic

/-!
# A step depends on the words it accesses

What a step does to the block's memory is a list of word writes and an addition to the counters
(`step_local`). It does the same from any other memory that is as large and agrees on the words
the step loads. Writes to different words change places freely, and so do the counters.
-/

namespace WarpSim

namespace ByteMemory

variable (m : ByteMemory)

@[simp] theorem size_setWord (k : Nat) (value : Word) : (m.setWord k value).size = m.size := by
  simp [setWord, size]

theorem getElem?_setWord (k : Nat) (value : Word) (j : Nat) :
    (m.setWord k value).bytes[j]? =
      if k ≤ j ∧ j < k + 4 ∧ j < m.size then some (value.extractLsb' (8 * (j - k)) 8)
      else m.bytes[j]? := by
  have hcase : j < k ∨ j = k ∨ j = k + 1 ∨ j = k + 2 ∨ j = k + 3 ∨ k + 4 ≤ j := by omega
  unfold setWord size
  by_cases hj : j < m.bytes.length
  · rcases hcase with h | rfl | rfl | rfl | rfl | h
    · rw [if_neg (by omega)]
      simp only [List.getElem?_set]
      rw [if_neg (by omega), if_neg (by omega), if_neg (by omega), if_neg (by omega)]
    · simp [hj]
    · simp [hj]
    · simp [hj]
    · simp [hj]
    · rw [if_neg (by omega)]
      simp only [List.getElem?_set]
      rw [if_neg (by omega), if_neg (by omega), if_neg (by omega), if_neg (by omega)]
  · rw [if_neg (by omega), List.getElem?_eq_none (by simp; omega), List.getElem?_eq_none (by omega)]

/-- Writes to words apart from each other change places. -/
theorem setWord_comm {k k' : Nat} (h : k + 4 ≤ k' ∨ k' + 4 ≤ k) (v v' : Word) :
    (m.setWord k v).setWord k' v' = (m.setWord k' v').setWord k v := by
  have hbytes : ((m.setWord k v).setWord k' v').bytes = ((m.setWord k' v').setWord k v).bytes := by
    refine List.ext_getElem? fun j => ?_
    simp only [getElem?_setWord, size_setWord]
    by_cases h1 : k' ≤ j ∧ j < k' + 4 ∧ j < m.size
    · rw [if_pos h1, if_neg (by omega), if_pos h1]
    · rw [if_neg h1, if_neg h1]
  calc (m.setWord k v).setWord k' v' = ⟨((m.setWord k v).setWord k' v').bytes⟩ := rfl
    _ = ⟨((m.setWord k' v').setWord k v).bytes⟩ := by rw [hbytes]

theorem word_setWord {k k' : Nat} (h : k + 4 ≤ k' ∨ k' + 4 ≤ k) (v : Word) :
    (m.setWord k v).word k' = m.word k' := by
  have hbyte : ∀ j, j < k ∨ k + 4 ≤ j → (m.setWord k v).byte j = m.byte j := by
    intro j hj
    rw [byte, byte, List.getD_eq_getElem?_getD, List.getD_eq_getElem?_getD, getElem?_setWord,
      if_neg (by omega)]
  rw [word, word, hbyte _ (by omega), hbyte _ (by omega), hbyte _ (by omega), hbyte _ (by omega)]

theorem load32_setWord {address address' : Word} (haligned : address.toNat % 4 = 0)
    (h : address'.toNat / 4 ≠ address.toNat / 4) (v : Word) (lane : Nat) :
    (m.setWord address.toNat v).load32 address' lane = m.load32 address' lane := by
  have hcheck : (m.setWord address.toNat v).check address' lane = m.check address' lane := by
    rw [check, check, size_setWord]
  rw [load32, load32, hcheck]
  rcases hc : m.check address' lane with e | u
  · rfl
  · unfold check at hc
    split_ifs at hc with h1 h2
    rw [not_not] at h1
    show Except.ok _ = Except.ok _
    rw [word_setWord m (by omega)]

end ByteMemory

namespace MemoryStats

theorem onGlobal_eq (s : MemoryStats) (addresses : Nat → Word) (exec : LaneMask) (isStore : Bool) :
    s.onGlobal addresses exec isStore
      = s.add (({} : MemoryStats).onGlobal addresses exec isStore) := by
  unfold onGlobal
  split_ifs <;> simp [add]

theorem onShared_eq (s : MemoryStats) (addresses : Nat → Word) (exec : LaneMask) :
    s.onShared addresses exec = s.add (({} : MemoryStats).onShared addresses exec) := by
  unfold onShared
  split_ifs <;> simp [add]

end MemoryStats

/-- The word a store of one lane writes. -/
structure WordWrite where
  space : Space
  address : Word
  value : Word

namespace BlockMemory

section Write

def write (m : BlockMemory) (w : WordWrite) : BlockMemory :=
  match w.space with
  | .global => { m with global := m.global.setWord w.address.toNat w.value }
  | .shared => { m with shared := m.shared.setWord w.address.toNat w.value }
  | .param => m

def writeAll (m : BlockMemory) (ws : List WordWrite) : BlockMemory := ws.foldl write m

def addStats (m : BlockMemory) (d : MemoryStats) : BlockMemory :=
  { m with stats := m.stats.add d }

/-- Whether two addresses are of the same word. -/
def SameWord (space space' : Space) (address address' : Word) : Prop :=
  space = space' ∧ address.toNat / 4 = address'.toNat / 4

theorem write_comm (m : BlockMemory) {w w' : WordWrite} (h : w.address.toNat % 4 = 0)
    (h' : w'.address.toNat % 4 = 0) (hne : ¬SameWord w.space w'.space w.address w'.address) :
    (m.write w).write w' = (m.write w').write w := by
  obtain ⟨space, address, value⟩ := w
  obtain ⟨space', address', value'⟩ := w'
  simp only [SameWord] at h h' hne
  cases space <;> cases space' <;> simp only [write, true_and, BlockMemory.mk.injEq,
    and_true] at hne ⊢
  · exact ByteMemory.setWord_comm _ (by omega) _ _
  · exact ByteMemory.setWord_comm _ (by omega) _ _

theorem writeAll_write (m : BlockMemory) {ws : List WordWrite} {w : WordWrite}
    (hw : w.address.toNat % 4 = 0) (h : ∀ v ∈ ws, v.address.toNat % 4 = 0
      ∧ ¬SameWord v.space w.space v.address w.address) :
    (m.writeAll ws).write w = (m.write w).writeAll ws := by
  induction ws generalizing m with
  | nil => rfl
  | cons v ws ih =>
    rw [List.forall_mem_cons] at h
    calc ((m.write v).writeAll ws).write w = ((m.write v).write w).writeAll ws := ih _ h.2
      _ = ((m.write w).write v).writeAll ws := by rw [write_comm m h.1.1 hw h.1.2]

theorem writeAll_comm (m : BlockMemory) {ws ws' : List WordWrite}
    (h : ∀ v ∈ ws, v.address.toNat % 4 = 0) (h' : ∀ v ∈ ws', v.address.toNat % 4 = 0)
    (hne : ∀ v ∈ ws, ∀ v' ∈ ws', ¬SameWord v.space v'.space v.address v'.address) :
    (m.writeAll ws).writeAll ws' = (m.writeAll ws').writeAll ws := by
  induction ws' generalizing m with
  | nil => rfl
  | cons w ws' ih =>
    rw [List.forall_mem_cons] at h'
    have hw : (m.writeAll ws).write w = (m.write w).writeAll ws :=
      writeAll_write m h'.1 fun v hv => ⟨h v hv, hne v hv w List.mem_cons_self⟩
    calc ((m.writeAll ws).write w).writeAll ws' = ((m.write w).writeAll ws).writeAll ws' := by
          rw [hw]
      _ = ((m.write w).writeAll ws').writeAll ws :=
          ih _ h'.2 fun v hv v' hv' => hne v hv v' (List.mem_cons_of_mem _ hv')

theorem writeAll_addStats (m : BlockMemory) (ws : List WordWrite) (d : MemoryStats) :
    (m.writeAll ws).addStats d = (m.addStats d).writeAll ws := by
  induction ws generalizing m with
  | nil => rfl
  | cons w ws ih =>
    have hw : (m.write w).addStats d = (m.addStats d).write w := by
      obtain ⟨space, address, value⟩ := w
      cases space <;> rfl
    calc ((m.write w).writeAll ws).addStats d = ((m.write w).addStats d).writeAll ws := ih _
      _ = ((m.addStats d).write w).writeAll ws := by rw [hw]

theorem addStats_comm (m : BlockMemory) (d d' : MemoryStats) :
    (m.addStats d).addStats d' = (m.addStats d').addStats d := by
  simp only [addStats, MemoryStats.add_right_comm m.stats d d']

/-- Memories whose spaces are as large. -/
structure SameShape (m m' : BlockMemory) : Prop where
  global : m'.global.size = m.global.size
  shared : m'.shared.size = m.shared.size

theorem sameShape_write {m m' : BlockMemory} (h : SameShape m m') (w : WordWrite) :
    SameShape m (m'.write w) ∧ SameShape (m.write w) (m'.write w) := by
  obtain ⟨space, address, value⟩ := w
  obtain ⟨h1, h2⟩ := h
  cases space <;> exact ⟨⟨by simp [write, h1], by simp [write, h2]⟩,
    ⟨by simp [write, h1], by simp [write, h2]⟩⟩

theorem sameShape_writeAll {m m' : BlockMemory} (h : SameShape m m') (ws : List WordWrite) :
    SameShape m (m'.writeAll ws) := by
  induction ws generalizing m' with
  | nil => exact h
  | cons w ws ih => exact ih (sameShape_write h w).1

end Write

section Access

theorem load_snd (space : Space) (address : Word) (lane : Nat) (m : BlockMemory) :
    (m.load space address lane).2 = m := by
  cases space with
  | global => rfl
  | shared => rfl
  | param =>
    rw [load]
    split <;> rfl

theorem load_param {m m' : BlockMemory} {address : Word} {lane : Nat}
    (h : m'.params = m.params) :
    (m'.load .param address lane).1 = (m.load .param address lane).1 := by
  rw [load, load, h]
  rcases m.params[address.toNat]? with _ | v <;> rfl

theorem load_write (space : Space) (address : Word) (lane : Nat) (m : BlockMemory) {w : WordWrite}
    (haligned : w.address.toNat % 4 = 0) (hne : ¬SameWord w.space space w.address address) :
    ((m.write w).load space address lane).1 = (m.load space address lane).1 := by
  obtain ⟨space', address', value⟩ := w
  cases space <;> cases space' <;> first
    | exact ByteMemory.load32_setWord _ haligned (fun h => hne ⟨rfl, h.symm⟩) _ _
    | exact load_param rfl
    | rfl

theorem load_writeAll (space : Space) (address : Word) (lane : Nat) (m : BlockMemory)
    {ws : List WordWrite} (h : ∀ v ∈ ws, v.address.toNat % 4 = 0
      ∧ ¬SameWord v.space space v.address address) :
    ((m.writeAll ws).load space address lane).1 = (m.load space address lane).1 := by
  induction ws generalizing m with
  | nil => rfl
  | cons w ws ih =>
    rw [List.forall_mem_cons] at h
    exact (ih (m.write w) h.2).trans (load_write space address lane m h.1.1 h.1.2)

theorem load_addStats (space : Space) (address : Word) (lane : Nat) (m : BlockMemory)
    (d : MemoryStats) :
    ((m.addStats d).load space address lane).1 = (m.load space address lane).1 := by
  cases space with
  | global => rfl
  | shared => rfl
  | param => exact load_param rfl

theorem store_ok {space : Space} {address value : Word} {lane : Nat} {m m' : BlockMemory}
    (h : m.store space address value lane = (.ok (), m')) :
    address.toNat % 4 = 0 ∧ m' = m.write ⟨space, address, value⟩
      ∧ ∀ m₂, SameShape m m₂ →
        m₂.store space address value lane = (.ok (), m₂.write ⟨space, address, value⟩) := by
  have hbytes : ∀ {b b' : ByteMemory}, b.store32 address value lane = .ok b' →
      address.toNat % 4 = 0 ∧ b' = b.setWord address.toNat value ∧ ∀ b₂ : ByteMemory,
        b₂.size = b.size →
          b₂.store32 address value lane = .ok (b₂.setWord address.toNat value) := by
    intro b b' hb
    rw [ByteMemory.store32] at hb
    rcases hc : b.check address lane with e | u <;> rw [hc] at hb <;> cases hb
    have hcheck : ∀ b₂ : ByteMemory, b₂.size = b.size → b₂.check address lane = .ok () := by
      intro b₂ hsize
      rw [← hc, ByteMemory.check, ByteMemory.check, hsize]
    refine ⟨?_, rfl, fun b₂ hsize => by rw [ByteMemory.store32, hcheck b₂ hsize]; rfl⟩
    unfold ByteMemory.check at hc
    split_ifs at hc with h1 h2
    exact not_not.1 h1
  cases space with
  | global =>
    rw [store] at h
    split at h <;> cases h
    obtain ⟨h1, rfl, h3⟩ := hbytes ‹_›
    exact ⟨h1, rfl, fun m₂ hs => by rw [store, h3 m₂.global hs.global]; rfl⟩
  | shared =>
    rw [store] at h
    split at h <;> cases h
    obtain ⟨h1, rfl, h3⟩ := hbytes ‹_›
    exact ⟨h1, rfl, fun m₂ hs => by rw [store, h3 m₂.shared hs.shared]; rfl⟩
  | param => cases h

end Access

end BlockMemory

namespace Warp

section Lanes

variable {i : Instruction} {exec : LaneMask} {addresses : Nat → Word}

open BlockMemory

/-- The stores of the lanes of an instruction are a list of writes. -/
theorem accessLanes_store (hop : isStore i.opcode = true) :
    ∀ (l : List Nat) {w w' : Warp} {m m' : BlockMemory},
      accessLanes BlockMemory.port i exec addresses l w m = (.ok (), w', m') →
        ∃ ws, m' = m.writeAll ws ∧ (∀ v ∈ ws, v.address.toNat % 4 = 0
            ∧ ∃ lane ∈ l, hasLane exec lane = true ∧ v.space = accessSpace i.opcode
              ∧ v.address = addresses lane)
          ∧ ∀ m₂, SameShape m m₂ →
            accessLanes BlockMemory.port i exec addresses l w m₂ = (.ok (), w', m₂.writeAll ws)
  | [], w, w', m, m', h => by
    cases h
    exact ⟨[], rfl, by simp, fun m₂ _ => rfl⟩
  | lane :: l, w, w', m, m', h => by
    rw [accessLanes] at h
    by_cases hl : hasLane exec lane = true
    · rw [if_neg (by simp [hl]), if_pos hop] at h
      rcases hs : m.store (accessSpace i.opcode) (addresses lane)
        (w.registers.read lane i.src1) lane with ⟨e | u, m₁⟩
      · simp only [BlockMemory.port, hs] at h
        cases h
      · obtain ⟨haligned, rfl, hstore⟩ := store_ok hs
        simp only [BlockMemory.port, hs] at h
        obtain ⟨ws, rfl, hws, hrest⟩ := accessLanes_store hop l h
        refine ⟨_ :: ws, rfl, List.forall_mem_cons.2 ⟨⟨haligned, lane, List.mem_cons_self, hl, rfl,
          rfl⟩, fun v hv => ?_⟩, fun m₂ hshape => ?_⟩
        · obtain ⟨h1, lane', h2, h3⟩ := hws v hv
          exact ⟨h1, lane', List.mem_cons_of_mem _ h2, h3⟩
        · rw [accessLanes, if_neg (by simp [hl]), if_pos hop]
          simp only [BlockMemory.port, hstore m₂ hshape]
          exact hrest _ (sameShape_write hshape _).2
    · rw [if_pos (by simp [hl])] at h
      obtain ⟨ws, rfl, hws, hrest⟩ := accessLanes_store hop l h
      refine ⟨ws, rfl, fun v hv => ?_, fun m₂ hshape => ?_⟩
      · obtain ⟨h1, lane', h2, h3⟩ := hws v hv
        exact ⟨h1, lane', List.mem_cons_of_mem _ h2, h3⟩
      · rw [accessLanes, if_pos (by simp [hl])]
        exact hrest m₂ hshape

/-- The loads of the lanes of an instruction leave the memory, and do the same from any memory
that agrees on the words. -/
theorem accessLanes_load (hop : isStore i.opcode = false) :
    ∀ (l : List Nat) {w w' : Warp} {m m' : BlockMemory},
      accessLanes BlockMemory.port i exec addresses l w m = (.ok (), w', m') →
        m' = m ∧ ∀ m₂ : BlockMemory, (∀ lane ∈ l, hasLane exec lane = true →
            (m₂.load (accessSpace i.opcode) (addresses lane) lane).1
              = (m.load (accessSpace i.opcode) (addresses lane) lane).1) →
          accessLanes BlockMemory.port i exec addresses l w m₂ = (.ok (), w', m₂)
  | [], w, w', m, m', h => by
    cases h
    exact ⟨rfl, fun _ _ => rfl⟩
  | lane :: l, w, w', m, m', h => by
    rw [accessLanes] at h
    by_cases hl : hasLane exec lane = true
    · rw [if_neg (by simp [hl]), if_neg (by simp [hop])] at h
      have hsnd := load_snd (accessSpace i.opcode) (addresses lane) lane m
      rcases hs : m.load (accessSpace i.opcode) (addresses lane) lane with ⟨e | v, m₁⟩
      · simp only [BlockMemory.port, hs] at h
        cases h
      · rw [hs] at hsnd
        simp only [] at hsnd
        subst hsnd
        simp only [BlockMemory.port, hs] at h
        obtain ⟨rfl, hrest⟩ := accessLanes_load hop l h
        refine ⟨rfl, fun m₂ hagree => ?_⟩
        rw [List.forall_mem_cons] at hagree
        have h1 := hagree.1 hl
        have h2 := load_snd (accessSpace i.opcode) (addresses lane) lane m₂
        rw [accessLanes, if_neg (by simp [hl]), if_neg (by simp [hop])]
        rcases hs₂ : m₂.load (accessSpace i.opcode) (addresses lane) lane with ⟨r, m₃⟩
        rw [hs₂, hs] at h1
        rw [hs₂] at h2
        simp only [] at h1 h2
        subst h1 h2
        simp only [BlockMemory.port, hs₂]
        exact hrest _ hagree.2
    · rw [if_pos (by simp [hl])] at h
      obtain ⟨rfl, hrest⟩ := accessLanes_load hop l h
      refine ⟨rfl, fun m₂ hagree => ?_⟩
      rw [List.forall_mem_cons] at hagree
      rw [accessLanes, if_pos (by simp [hl])]
      exact hrest m₂ hagree.2

end Lanes

section Step

variable {F : FloatOps} {program : List Instruction}

open BlockMemory

/-- The other instructions do not look at the memory. -/
theorem issue_quiet {σ : Type} (port : MemoryPort σ) {i : Instruction}
    (hop : isMemoryOpcode i.opcode = false) (w : Warp) :
    ∃ r w', ∀ m, w.issue F port i m = (r, w', m) := by
  unfold issue
  simp only []
  split
  · exact ⟨_, _, fun m => rfl⟩
  · exact ⟨_, _, fun m => rfl⟩
  · split_ifs <;> exact ⟨_, _, fun m => rfl⟩
  iterate 5 simp_all [isMemoryOpcode]
  · exact ⟨_, _, fun m => rfl⟩

theorem onWarpAccess_addStats (space : Space) (isStore : Bool) (addresses : Nat → Word)
    (exec : LaneMask) : ∃ d, ∀ m, (if exec ≠ 0 then
      BlockMemory.port.onWarpAccess space isStore addresses exec m else m) = m.addStats d := by
  split_ifs
  · cases space with
    | global =>
      refine ⟨({} : MemoryStats).onGlobal addresses exec isStore, fun m => ?_⟩
      simp only [BlockMemory.port, onWarpAccess, addStats]
      rw [MemoryStats.onGlobal_eq]
    | shared =>
      refine ⟨({} : MemoryStats).onShared addresses exec, fun m => ?_⟩
      simp only [BlockMemory.port, onWarpAccess, addStats]
      rw [MemoryStats.onShared_eq]
    | param => exact ⟨{}, fun m => rfl⟩
  · exact ⟨{}, fun m => rfl⟩

/-- What a step that does not fault does to the memory, from any memory that is as large and
agrees on what the step loads. -/
theorem step_local {w w' : Warp} {m m' : BlockMemory} {outcome : StepOutcome}
    (h : w.step F BlockMemory.port program m = (.ok outcome, w', m')) :
    ∃ ws d, m' = (m.addStats d).writeAll ws
      ∧ (∀ v ∈ ws, v.address.toNat % 4 = 0
        ∧ (⟨v.space, v.address, true⟩ : Access) ∈ w.accesses program)
      ∧ ∀ m₂ : BlockMemory, SameShape m m₂ →
        (∀ a ∈ w.accesses program, a.isStore = false → ∀ lane,
          (m₂.load a.space a.address lane).1 = (m.load a.space a.address lane).1) →
        w.step F BlockMemory.port program m₂ = (.ok outcome, w', (m₂.addStats d).writeAll ws) := by
  unfold step accesses at *
  rcases hs : w.settle program with r | ⟨i, r⟩ <;> simp only [hs] at h ⊢
  · cases h
    exact ⟨[], {}, rfl, by simp, fun m₂ _ _ => rfl⟩
  by_cases hop : isMemoryOpcode i.opcode = true
  · obtain ⟨d, hd⟩ := onWarpAccess_addStats (accessSpace i.opcode) (isStore i.opcode)
      (r.accessAddresses i (r.execMask i)) (r.execMask i)
    have hmem : ∀ lane ∈ lanes, hasLane (r.execMask i) lane = true →
        (⟨accessSpace i.opcode, r.accessAddresses i (r.execMask i) lane, isStore i.opcode⟩ : Access)
          ∈ (lanes.filter (hasLane (r.execMask i))).map fun lane =>
            ⟨accessSpace i.opcode, r.accessAddresses i (r.execMask i) lane, isStore i.opcode⟩ :=
      fun lane h1 h2 => List.mem_map_of_mem (List.mem_filter.2 ⟨h1, h2⟩)
    have haccess : ∀ m, memoryAccess BlockMemory.port i (r.execMask i)
        { r with lastExec := r.execMask i, lastOpcode := i.opcode } m =
        accessLanes BlockMemory.port i (r.execMask i) (r.accessAddresses i (r.execMask i)) lanes
          { r with lastExec := r.execMask i, lastOpcode := i.opcode } (m.addStats d) := by
      intro m
      have haddr :
        ({ r with lastExec := r.execMask i, lastOpcode := i.opcode } : Warp).accessAddresses
          i (r.execMask i) = r.accessAddresses i (r.execMask i) := rfl
      simp only [memoryAccess, haddr, hd]
    rw [issue_memory F BlockMemory.port hop, haccess] at h
    simp only [issue_memory F BlockMemory.port hop, haccess, hop, if_true]
    rcases hacc : accessLanes BlockMemory.port i (r.execMask i)
      (r.accessAddresses i (r.execMask i)) lanes
      { r with lastExec := r.execMask i, lastOpcode := i.opcode } (m.addStats d)
      with ⟨f | u, w₁, m₁⟩ <;> rw [hacc] at h <;> cases h
    cases hst : isStore i.opcode
    · obtain ⟨rfl, hrest⟩ := accessLanes_load hst lanes hacc
      refine ⟨[], d, rfl, by simp, fun m₂ hshape hagree => ?_⟩
      rw [hrest (m₂.addStats d) fun lane h1 h2 => ?_]
      · rfl
      · rw [load_addStats, load_addStats]
        have := hmem lane h1 h2
        rw [hst] at this
        exact hagree _ this rfl lane
    · obtain ⟨ws, rfl, hws, hrest⟩ := accessLanes_store hst lanes hacc
      refine ⟨ws, d, rfl, fun v hv => ?_, fun m₂ hshape _ => ?_⟩
      · obtain ⟨h1, lane, h2, h3, h4, h5⟩ := hws v hv
        refine ⟨h1, ?_⟩
        rw [h4, h5, ← hst]
        exact hmem lane h2 h3
      · rw [hrest (m₂.addStats d) ⟨hshape.global, hshape.shared⟩]
  · rw [Bool.not_eq_true] at hop
    obtain ⟨o, w₁, hquiet⟩ := issue_quiet (F := F) BlockMemory.port hop r
    rw [hquiet] at h
    cases h
    exact ⟨[], {}, rfl, by simp, fun m₂ _ _ => hquiet m₂⟩

end Step

end Warp

end WarpSim
