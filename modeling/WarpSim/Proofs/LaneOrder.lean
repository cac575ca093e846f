import WarpSim.Proofs.Locality

/-!
# A memory instruction in lane order

A memory instruction takes effect on the executing lanes below the first one that faults, or on all
of them (`memoryAccess_lane_ordered`). What it does is said of a set of lanes (`Took`): a load gives
each its word, a store leaves in each word the value of the highest lane that addresses it, and
nothing else changes. The loop adds one lane at a time to the set.
-/

namespace WarpSim

namespace BlockMemory

/-- The bytes behind a space; parameters are not bytes. -/
def bytesOf (m : BlockMemory) : Space → List (BitVec 8)
  | .global => m.global.bytes
  | .shared => m.shared.bytes
  | .param => []

/-- The word at an address, or the parameter with that ordinal. -/
def wordAt (m : BlockMemory) (space : Space) (address : Word) : Word :=
  match space with
  | .global => m.global.word address.toNat
  | .shared => m.shared.word address.toNat
  | .param => m.params.getD address.toNat 0

/-- The accesses that fault: misaligned, past the end, or no such parameter. -/
def Faults (m : BlockMemory) (space : Space) (address : Word) : Prop :=
  match space with
  | .param => ¬address.toNat < m.params.length
  | _ => address.toNat % 4 ≠ 0 ∨ ¬address.toNat + 4 ≤ (m.bytesOf space).length

def faultMessage (space : Space) (address : Word) : String :=
  if space = .param then "parameter ordinal out of range"
  else if address.toNat % 4 ≠ 0 then "misaligned 32-bit access"
  else "access out of bounds"

/-- Memories with the same sizes and parameters. -/
structure SameRoom (m m' : BlockMemory) : Prop where
  bytes : ∀ space, (m'.bytesOf space).length = (m.bytesOf space).length
  params : m'.params = m.params

theorem SameRoom.faults {m m' : BlockMemory} (h : SameRoom m m') (space : Space) (address : Word) :
    m'.Faults space address ↔ m.Faults space address := by
  unfold Faults
  cases space <;> simp only [h.bytes, h.params]

theorem check_fault {b : ByteMemory} {address : Word}
    (h : address.toNat % 4 ≠ 0 ∨ ¬address.toNat + 4 ≤ b.bytes.length) (lane : Nat) :
    b.check address lane = .error
      ⟨if address.toNat % 4 ≠ 0 then "misaligned 32-bit access" else "access out of bounds",
        lane, address⟩ := by
  unfold ByteMemory.check ByteMemory.size
  by_cases h1 : address.toNat % 4 ≠ 0
  · rw [if_pos h1, if_pos h1]
  · rw [if_neg h1, if_pos (by omega), if_neg h1]

theorem check_ok {b : ByteMemory} {address : Word}
    (h : ¬(address.toNat % 4 ≠ 0 ∨ ¬address.toNat + 4 ≤ b.bytes.length)) (lane : Nat) :
    b.check address lane = .ok () := by
  unfold ByteMemory.check ByteMemory.size
  rw [if_neg (by omega), if_neg (by omega)]

variable {m : BlockMemory} {space : Space} {address : Word}

theorem load_fault (h : m.Faults space address) (lane : Nat) :
    m.load space address lane = (.error ⟨faultMessage space address, lane, address⟩, m) := by
  cases space
  case param =>
    unfold load
    simp only [List.getElem?_eq_none (Nat.le_of_not_lt h)]
    rfl
  case global =>
    have hcheck := check_fault (b := m.global) h lane
    simp only [load, ByteMemory.load32, hcheck]
    rfl
  case shared =>
    have hcheck := check_fault (b := m.shared) h lane
    simp only [load, ByteMemory.load32, hcheck]
    rfl

theorem load_ok (h : ¬m.Faults space address) (lane : Nat) :
    m.load space address lane = (.ok (m.wordAt space address), m) := by
  cases space
  case param =>
    have h : address.toNat < m.params.length := not_not.1 h
    unfold load wordAt
    simp only [List.getElem?_eq_getElem h, List.getD_eq_getElem?_getD, Option.getD_some]
  case global =>
    have hcheck := check_ok (b := m.global) h lane
    simp only [load, ByteMemory.load32, hcheck]
    rfl
  case shared =>
    have hcheck := check_ok (b := m.shared) h lane
    simp only [load, ByteMemory.load32, hcheck]
    rfl

theorem store_fault (hs : space ≠ .param) (h : m.Faults space address) (value : Word)
    (lane : Nat) :
    m.store space address value lane = (.error ⟨faultMessage space address, lane, address⟩, m) := by
  cases space
  case param => exact absurd rfl hs
  case global =>
    have hcheck := check_fault (b := m.global) h lane
    simp only [store, ByteMemory.store32, hcheck]
    rfl
  case shared =>
    have hcheck := check_fault (b := m.shared) h lane
    simp only [store, ByteMemory.store32, hcheck]
    rfl

theorem store_write (hs : space ≠ .param) (h : ¬m.Faults space address) (value : Word)
    (lane : Nat) :
    m.store space address value lane = (.ok (), m.write ⟨space, address, value⟩) := by
  cases space
  case param => exact absurd rfl hs
  case global =>
    have hcheck := check_ok (b := m.global) h lane
    simp only [store, ByteMemory.store32, hcheck]
    rfl
  case shared =>
    have hcheck := check_ok (b := m.shared) h lane
    simp only [store, ByteMemory.store32, hcheck]
    rfl

section Write

/-- A word is its four bytes. -/
theorem append_bytes (v : Word) : v.extractLsb' 24 8 ++ v.extractLsb' 16 8 ++ v.extractLsb' 8 8
    ++ v.extractLsb' 0 8 = v := by
  apply BitVec.eq_of_getLsbD_eq
  intro k hk
  simp only [BitVec.getLsbD_append, BitVec.getLsbD_extractLsb']
  split_ifs <;> grind

theorem word_setWord_self (b : ByteMemory) {k : Nat} (h : k + 4 ≤ b.bytes.length) (v : Word) :
    (b.setWord k v).word k = v := by
  have hbyte : ∀ d < 4, (b.setWord k v).byte (k + d) = v.extractLsb' (8 * d) 8 := by
    intro d hd
    rw [ByteMemory.byte, List.getD_eq_getElem?_getD, ByteMemory.getElem?_setWord, ByteMemory.size,
      if_pos (by omega), Nat.add_sub_cancel_left, Option.getD_some]
  rw [ByteMemory.word, hbyte 3 (by decide), hbyte 2 (by decide), hbyte 1 (by decide),
    show (b.setWord k v).byte k = _ from hbyte 0 (by decide)]
  exact append_bytes v

variable (value : Word) {space' : Space} {address' : Word}

theorem getElem?_write {j : Nat}
    (h : ¬(space = space' ∧ address.toNat ≤ j ∧ j < address.toNat + 4)) :
    ((m.write ⟨space, address, value⟩).bytesOf space')[j]? = (m.bytesOf space')[j]? := by
  cases space <;> cases space' <;> try rfl
  all_goals
    simp only [true_and] at h
    simp only [write, bytesOf]
    rw [ByteMemory.getElem?_setWord, if_neg (fun hj => h ⟨hj.1, hj.2.1⟩)]

theorem sameRoom_write : SameRoom m (m.write ⟨space, address, value⟩) := by
  refine ⟨fun space' => ?_, ?_⟩
  · cases space <;> cases space' <;> simp [write, bytesOf, ByteMemory.setWord]
  · cases space <;> rfl

theorem wordAt_write_self (hs : space ≠ .param) (h : ¬m.Faults space address) :
    (m.write ⟨space, address, value⟩).wordAt space address = value := by
  cases space
  case param => exact absurd rfl hs
  all_goals exact word_setWord_self _ (not_not.1 (not_or.1 h).2) value

theorem wordAt_write_ne (h : ¬m.Faults space address) (h' : ¬m.Faults space address')
    (hne : address' ≠ address) :
    (m.write ⟨space, address, value⟩).wordAt space address' = m.wordAt space address' := by
  have hne' : address'.toNat ≠ address.toNat := fun he => hne (BitVec.eq_of_toNat_eq he)
  cases space
  case param => rfl
  all_goals
    simp only [Faults, not_or, not_not] at h h'
    refine ByteMemory.word_setWord _ ?_ value
    show address.toNat + 4 ≤ _ ∨ _ + 4 ≤ address.toNat
    omega

end Write

/-- Loads see the bytes and the parameters only. -/
theorem wordAt_congr {m' : BlockMemory} (hbytes : ∀ space, m'.bytesOf space = m.bytesOf space)
    (hparams : m'.params = m.params) (space : Space) (address : Word) :
    m'.wordAt space address = m.wordAt space address := by
  cases space
  case param => simp only [wordAt, hparams]
  case global =>
    have := hbytes .global
    simp only [bytesOf] at this
    simp only [wordAt, ByteMemory.word, ByteMemory.byte, this]
  case shared =>
    have := hbytes .shared
    simp only [bytesOf] at this
    simp only [wordAt, ByteMemory.word, ByteMemory.byte, this]

end BlockMemory

namespace Warp

section Took

/-- The address a lane would access: the ordinal of a parameter, or `ra + off` modulo 2^32. -/
def laneAddress (w : Warp) (i : Instruction) (lane : Nat) : Word :=
  if accessSpace i.opcode = .param then i.imm else w.registers.general lane i.src0 + i.imm

def LaneFaults (w : Warp) (m : BlockMemory) (i : Instruction) (lane : Nat) : Prop :=
  m.Faults (accessSpace i.opcode) (w.laneAddress i lane)

/-- The lanes `done` have done their access, in lane order, and nothing else has happened. -/
structure Took (i : Instruction) (w : Warp) (m : BlockMemory) (done : Nat → Prop) (w' : Warp)
    (m' : BlockMemory) : Prop where
  warp : w' = { w with registers := w'.registers }
  predicates : w'.registers.predicates = w.registers.predicates
  loaded : isStore i.opcode = false → ∀ lane, done lane →
    w'.registers.general lane i.dst = m.wordAt (accessSpace i.opcode) (w.laneAddress i lane)
  kept : ∀ lane r, w'.registers.general lane r = w.registers.general lane r
    ∨ isStore i.opcode = false ∧ done lane ∧ r = i.dst
  stored : isStore i.opcode = true → ∀ lane, done lane →
    (∀ lane', done lane' → w.laneAddress i lane' = w.laneAddress i lane → lane' ≤ lane) →
      m'.wordAt (accessSpace i.opcode) (w.laneAddress i lane) = w.registers.general lane i.src1
  room : m.SameRoom m'
  bytes : ∀ space j, (m'.bytesOf space)[j]? = (m.bytesOf space)[j]?
    ∨ isStore i.opcode = true ∧ space = accessSpace i.opcode
      ∧ ∃ lane, done lane ∧ (w.laneAddress i lane).toNat ≤ j ∧ j < (w.laneAddress i lane).toNat + 4

variable {i : Instruction} {w w₁ : Warp} {m m₁ : BlockMemory} {done done' : Nat → Prop}

theorem Took.congr (h : Took i w m done w₁ m₁) (hdone : ∀ lane, done lane ↔ done' lane) :
    Took i w m done' w₁ m₁ :=
  (funext fun lane => propext (hdone lane) : done = done') ▸ h

theorem took_none (hbytes : ∀ space, m₁.bytesOf space = m.bytesOf space)
    (hparams : m₁.params = m.params) : Took i w m (fun _ => False) w m₁ where
  warp := rfl
  predicates := rfl
  loaded := fun _ _ h => h.elim
  kept := fun _ _ => .inl rfl
  stored := fun _ _ h => h.elim
  room := ⟨fun space => by rw [hbytes], hparams⟩
  bytes := fun space _ => .inl (by rw [hbytes])

theorem Took.makeFault_eq (h : Took i w m done w₁ m₁) (message : String) (lane : Nat)
    (address : Word) : w₁.makeFault message lane address = w.makeFault message lane address := by
  rw [h.warp]
  rfl

/-- One more lane loads. -/
theorem Took.load (h : Took i w m done w₁ m₁) (hop : isStore i.opcode = false) (a : Nat) :
    Took i w m (fun lane => done lane ∨ lane = a)
      { w₁ with
        registers := w₁.registers.write a i.dst
          (m₁.wordAt (accessSpace i.opcode) (w.laneAddress i a)) } m₁ := by
  have hbytes : ∀ space, m₁.bytesOf space = m.bytesOf space := fun space =>
    List.ext_getElem? fun j => (h.bytes space j).resolve_right fun hs => by simp [hop] at hs
  refine ⟨?_, h.predicates, fun _ lane hlane => ?_, fun lane r => ?_, fun hs => ?_, h.room,
    fun space j => .inl (by rw [hbytes])⟩
  · rw [h.warp]
  · show (if lane = a ∧ i.dst = i.dst then _ else _ : Word) = _
    by_cases ha : lane = a
    · rw [if_pos ⟨ha, rfl⟩, BlockMemory.wordAt_congr hbytes h.room.params, ha]
    · rw [if_neg fun hc => ha hc.1]
      exact h.loaded hop lane (hlane.resolve_right ha)
  · show (if lane = a ∧ r = i.dst then _ else _ : Word) = _ ∨ _
    by_cases ha : lane = a ∧ r = i.dst
    · exact .inr ⟨hop, .inr ha.1, ha.2⟩
    · rw [if_neg ha]
      exact (h.kept lane r).imp id fun hk => ⟨hk.1, .inl hk.2.1, hk.2.2⟩
  · rw [hop] at hs
    cases hs

/-- One more lane stores, a higher one than those before. -/
theorem Took.store (h : Took i w m done w₁ m₁) (hop : isStore i.opcode = true)
    (hspace : accessSpace i.opcode ≠ .param) {a : Nat} (ha : ¬LaneFaults w m i a)
    (hlt : ∀ lane, done lane → lane < a) (hok : ∀ lane, done lane → ¬LaneFaults w m i lane) :
    Took i w m (fun lane => done lane ∨ lane = a) w₁
      (m₁.write ⟨accessSpace i.opcode, w.laneAddress i a, w.registers.general a i.src1⟩) := by
  have hfaults : ∀ lane, ¬LaneFaults w m i lane →
      ¬m₁.Faults (accessSpace i.opcode) (w.laneAddress i lane) := fun lane hl hf =>
    hl ((h.room.faults _ _).1 hf)
  have hroom : BlockMemory.SameRoom m₁ (m₁.write ⟨accessSpace i.opcode, w.laneAddress i a,
      w.registers.general a i.src1⟩) := BlockMemory.sameRoom_write _
  refine ⟨h.warp, h.predicates, fun hl => ?_, fun lane r => ?_, fun _ lane hlane hmax => ?_,
    ⟨fun space => (hroom.bytes space).trans (h.room.bytes space),
      hroom.params.trans h.room.params⟩, fun space j => ?_⟩
  · rw [hop] at hl
    cases hl
  · exact (h.kept lane r).imp id fun hk => ⟨hk.1, .inl hk.2.1, hk.2.2⟩
  · by_cases he : lane = a
    · rw [he]
      exact BlockMemory.wordAt_write_self _ hspace (hfaults a ha)
    · have hdone := hlane.resolve_right he
      have hne : w.laneAddress i lane ≠ w.laneAddress i a := fun hc => by
        have := hmax a (.inr rfl) hc.symm
        have := hlt lane hdone
        omega
      rw [BlockMemory.wordAt_write_ne _ (hfaults a ha) (hfaults lane (hok lane hdone)) hne]
      exact h.stored hop lane hdone fun lane' hl' => hmax lane' (.inl hl')
  · by_cases hc : accessSpace i.opcode = space ∧ (w.laneAddress i a).toNat ≤ j
        ∧ j < (w.laneAddress i a).toNat + 4
    · exact .inr ⟨hop, hc.1.symm, a, .inr rfl, hc.2⟩
    · rw [BlockMemory.getElem?_write _ hc]
      exact (h.bytes space j).imp id fun ⟨h1, h2, lane, hl, hj⟩ => ⟨h1, h2, lane, .inl hl, hj⟩

end Took

section Run

variable {i : Instruction} {w w₁ : Warp} {m m₁ : BlockMemory} {exec : LaneMask} {lane : Nat}
  {l : List Nat} {done : Nat → Prop}

theorem accessAddresses_eq (h : hasLane exec lane = true) :
    w.accessAddresses i exec lane = w.laneAddress i lane :=
  if_pos h

theorem isStore_space (hop : isStore i.opcode = true) : accessSpace i.opcode ≠ .param := by
  unfold isStore at hop
  simp only [Bool.or_eq_true, beq_iff_eq] at hop
  rcases hop with h | h <;> rw [h] <;> decide

/-- The loop stops at a lane that faults, with nothing done for it. -/
theorem accessLanes_fault (h : Took i w m done w₁ m₁) (hl : hasLane exec lane = true)
    (hf : LaneFaults w m i lane) :
    accessLanes BlockMemory.port i exec (w.accessAddresses i exec) (lane :: l) w₁ m₁
      = (.error (w.makeFault
          (BlockMemory.faultMessage (accessSpace i.opcode) (w.laneAddress i lane)) lane
          (w.laneAddress i lane)), w₁, m₁) := by
  have hf₁ : m₁.Faults (accessSpace i.opcode) (w.laneAddress i lane) := (h.room.faults _ _).2 hf
  rw [accessLanes, accessAddresses_eq hl, hl, if_neg (by decide)]
  by_cases hop : isStore i.opcode = true
  · have hstore : BlockMemory.port.store _ _ _ _ _ = _ := BlockMemory.store_fault
      (isStore_space hop) hf₁ (w₁.registers.read lane i.src1) lane
    rw [if_pos hop, hstore]
    simp only [h.makeFault_eq]
  · have hload : BlockMemory.port.load _ _ _ _ = _ := BlockMemory.load_fault hf₁ lane
    rw [if_neg hop, hload]
    simp only [h.makeFault_eq]

/-- The loop goes on from a lane that does not fault, having done its access. -/
theorem accessLanes_next (h : Took i w m done w₁ m₁) (hl : hasLane exec lane = true)
    (hf : ¬LaneFaults w m i lane) (hlt : ∀ lane', done lane' → lane' < lane)
    (hok : ∀ lane', done lane' → ¬LaneFaults w m i lane') :
    ∃ w₂ m₂, Took i w m (fun lane' => done lane' ∨ lane' = lane) w₂ m₂
      ∧ accessLanes BlockMemory.port i exec (w.accessAddresses i exec) (lane :: l) w₁ m₁
        = accessLanes BlockMemory.port i exec (w.accessAddresses i exec) l w₂ m₂ := by
  have hf₁ : ¬m₁.Faults (accessSpace i.opcode) (w.laneAddress i lane) := fun hc =>
    hf ((h.room.faults _ _).1 hc)
  by_cases hop : isStore i.opcode = true
  · have hvalue : w₁.registers.read lane i.src1 = w.registers.general lane i.src1 :=
      (h.kept lane i.src1).resolve_right fun hc => by simp [hop] at hc
    have hstore : BlockMemory.port.store _ _ _ _ _ = _ := BlockMemory.store_write
      (isStore_space hop) hf₁ (w.registers.general lane i.src1) lane
    refine ⟨_, _, h.store hop (isStore_space hop) hf hlt hok, ?_⟩
    rw [accessLanes, accessAddresses_eq hl, hl, if_neg (by decide), if_pos hop, hvalue, hstore]
  · have hload : BlockMemory.port.load _ _ _ _ = _ := BlockMemory.load_ok hf₁ lane
    refine ⟨_, _, h.load (by simpa using hop) lane, ?_⟩
    rw [accessLanes, accessAddresses_eq hl, hl, if_neg (by decide), if_neg hop, hload]

/-- The loop over a list of lanes, in order and above the lanes done. -/
theorem accessLanes_took (exec : LaneMask) : ∀ (l : List Nat) {done : Nat → Prop} {w₁ : Warp}
    {m₁ : BlockMemory},
    Took i w m done w₁ m₁ → l.Pairwise (· < ·) → (∀ x ∈ l, ∀ y, done y → y < x) →
    (∀ y, done y → ¬LaneFaults w m i y) → ∃ r w₂ m₂,
      accessLanes BlockMemory.port i exec (w.accessAddresses i exec) l w₁ m₁ = (r, w₂, m₂)
      ∧ ((∀ x ∈ l, hasLane exec x = true → ¬LaneFaults w m i x) → r = .ok ()
        ∧ Took i w m (fun y => done y ∨ y ∈ l ∧ hasLane exec y = true) w₂ m₂)
      ∧ ∀ k ∈ l, hasLane exec k = true → LaneFaults w m i k →
        (∀ x ∈ l, x < k → hasLane exec x = true → ¬LaneFaults w m i x) →
          r = .error (w.makeFault
            (BlockMemory.faultMessage (accessSpace i.opcode) (w.laneAddress i k)) k
            (w.laneAddress i k))
          ∧ Took i w m (fun y => done y ∨ (y ∈ l ∧ y < k) ∧ hasLane exec y = true) w₂ m₂
  | [], done, w₁, m₁, h, _, _, _ =>
    ⟨_, _, _, rfl, fun _ => ⟨rfl, h.congr (by simp)⟩, fun k hk => by cases hk⟩
  | lane :: l, done, w₁, m₁, h, hsorted, hlt, hok => by
    obtain ⟨hhead, hsorted⟩ := List.pairwise_cons.1 hsorted
    have hlane := hlt lane List.mem_cons_self
    by_cases hl : hasLane exec lane = true
    · by_cases hf : LaneFaults w m i lane
      · refine ⟨_, _, _, accessLanes_fault h hl hf,
          fun hall => absurd hf (hall lane List.mem_cons_self hl), fun k hk hek hfk hmin => ?_⟩
        obtain rfl : lane = k := by
          rcases List.mem_cons.1 hk with rfl | hk
          · rfl
          · exact absurd hf (hmin lane List.mem_cons_self (hhead k hk) hl)
        refine ⟨rfl, h.congr fun y => ⟨.inl, fun hy => hy.resolve_right ?_⟩⟩
        rintro ⟨⟨hy, hlt'⟩, -⟩
        rcases List.mem_cons.1 hy with rfl | hy
        · omega
        · have := hhead y hy
          omega
      · obtain ⟨w₂, m₂, htook, heq⟩ := accessLanes_next (l := l) h hl hf hlane hok
        have hlt₂ : ∀ x ∈ l, ∀ y, done y ∨ y = lane → y < x := by
          rintro x hx y (hy | rfl)
          · exact hlt x (List.mem_cons_of_mem _ hx) y hy
          · exact hhead x hx
        have hok₂ : ∀ y, done y ∨ y = lane → ¬LaneFaults w m i y := by
          rintro y (hy | rfl)
          · exact hok y hy
          · exact hf
        obtain ⟨r, w', m', hrun, hall, hfirst⟩ := accessLanes_took exec l htook hsorted hlt₂ hok₂
        refine ⟨r, w', m', heq.trans hrun, fun hno => ?_, fun k hk hek hfk hmin => ?_⟩
        · obtain ⟨hr, ht⟩ := hall fun x hx => hno x (List.mem_cons_of_mem _ hx)
          refine ⟨hr, ht.congr fun y => ?_⟩
          rw [List.mem_cons]
          grind
        · have hne : k ≠ lane := fun he => hf (he ▸ hfk)
          have hmem := (List.mem_cons.1 hk).resolve_left hne
          have hlt' := hhead k hmem
          obtain ⟨hr, ht⟩ := hfirst k hmem hek hfk fun x hx => hmin x (List.mem_cons_of_mem _ hx)
          refine ⟨hr, ht.congr fun y => ?_⟩
          rw [List.mem_cons]
          grind
    · have hskip : accessLanes BlockMemory.port i exec (w.accessAddresses i exec) (lane :: l) w₁ m₁
          = accessLanes BlockMemory.port i exec (w.accessAddresses i exec) l w₁ m₁ := by
        rw [accessLanes, Bool.eq_false_iff.2 hl, if_pos (by decide)]
      obtain ⟨r, w', m', hrun, hall, hfirst⟩ := accessLanes_took exec l h hsorted
        (fun x hx => hlt x (List.mem_cons_of_mem _ hx)) hok
      refine ⟨r, w', m', hskip.trans hrun, fun hno => ?_, fun k hk hek hfk hmin => ?_⟩
      · obtain ⟨hr, ht⟩ := hall fun x hx => hno x (List.mem_cons_of_mem _ hx)
        refine ⟨hr, ht.congr fun y => ?_⟩
        rw [List.mem_cons]
        grind
      · have hne : k ≠ lane := fun he => hl (he ▸ hek)
        have hmem := (List.mem_cons.1 hk).resolve_left hne
        obtain ⟨hr, ht⟩ := hfirst k hmem hek hfk fun x hx => hmin x (List.mem_cons_of_mem _ hx)
        refine ⟨hr, ht.congr fun y => ?_⟩
        rw [List.mem_cons]
        grind

theorem pairwise_lanes : lanes.Pairwise (· < ·) :=
  List.pairwise_lt_range

/-- The analyzer sees an access before the lanes do it, and changes only its counters. -/
theorem took_analyzed (i : Instruction) (w : Warp) (m : BlockMemory) (exec : LaneMask) :
    Took i w m (fun _ => False) w (if exec ≠ 0 then
      BlockMemory.port.onWarpAccess (accessSpace i.opcode) (isStore i.opcode)
        (w.accessAddresses i exec) exec m else m) := by
  obtain ⟨d, hd⟩ := onWarpAccess_addStats (accessSpace i.opcode) (isStore i.opcode)
    (w.accessAddresses i exec) exec
  rw [hd]
  exact took_none (fun space => by cases space <;> rfl) rfl

end Run

section Main

/-- The outcome of a memory instruction on the executing lanes. -/
structure LaneOrdered (i : Instruction) (exec : LaneMask) (w : Warp) (m : BlockMemory)
    (r : Except Fault Unit) (w' : Warp) (m' : BlockMemory) : Prop where
  done : (∀ lane, hasLane exec lane = true → ¬LaneFaults w m i lane) →
    r = .ok () ∧ Took i w m (fun lane => hasLane exec lane = true) w' m'
  first : ∀ k, hasLane exec k = true → LaneFaults w m i k →
    (∀ lane < k, hasLane exec lane = true → ¬LaneFaults w m i lane) →
      r = .error
        { message := BlockMemory.faultMessage (accessSpace i.opcode) (w.laneAddress i k)
          block := w.context.ctaid.y * w.context.nctaid.x + w.context.ctaid.x
          warp := w.warpId
          lane := k
          pc := w.pc
          address := w.laneAddress i k }
      ∧ Took i w m (fun lane => hasLane exec lane = true ∧ lane < k) w' m'

theorem memoryAccess_ordered (i : Instruction) (exec : LaneMask) (w : Warp) (m : BlockMemory) :
    ∃ r w' m', memoryAccess BlockMemory.port i exec w m = (r, w', m')
      ∧ LaneOrdered i exec w m r w' m' := by
  obtain ⟨r, w', m', hrun, hall, hfirst⟩ := accessLanes_took exec lanes
    (took_analyzed i w m exec) pairwise_lanes (fun _ _ _ h => h.elim) (fun _ h => h.elim)
  refine ⟨r, w', m', hrun, fun hno => ?_, fun k hek hfk hmin => ?_⟩
  · obtain ⟨hr, ht⟩ := hall fun x _ => hno x
    refine ⟨hr, ht.congr fun y => ⟨fun h => (h.resolve_left not_false).2, fun h => ?_⟩⟩
    exact .inr ⟨hasLane_mem_lanes h, h⟩
  · obtain ⟨hr, ht⟩ := hfirst k (hasLane_mem_lanes hek) hek hfk fun x _ => hmin x
    refine ⟨hr, ht.congr fun y => ⟨fun h => ?_, fun h => ?_⟩⟩
    · obtain ⟨⟨-, hlt⟩, hy⟩ := h.resolve_left not_false
      exact ⟨hy, hlt⟩
    · exact .inr ⟨⟨hasLane_mem_lanes h.1, h.2⟩, h.1⟩

/-- Memory instructions are lane-ordered and their faults precise: on any mask, and in a step on
the lanes whose guard holds. -/
theorem memory_lane_ordered {i : Instruction} (hop : isMemoryOpcode i.opcode = true) (w : Warp)
    (m : BlockMemory) :
    (∀ exec, ∃ r w' m', memoryAccess BlockMemory.port i exec w m = (r, w', m')
      ∧ LaneOrdered i exec w m r w' m')
    ∧ ∀ F : FloatOps, ∃ r w' m',
      LaneOrdered i (w.execMask i) { w with lastExec := w.execMask i, lastOpcode := i.opcode } m r
        w' m'
      ∧ w.issue F BlockMemory.port i m = match r with
        | .error f => (.error f, w', m')
        | .ok () => (.ok .issued, { w' with pc := w'.pc + 1 }, m') := by
  refine ⟨fun exec => memoryAccess_ordered i exec w m, fun F => ?_⟩
  obtain ⟨r, w', m', hrun, hordered⟩ := memoryAccess_ordered i (w.execMask i)
    { w with lastExec := w.execMask i, lastOpcode := i.opcode } m
  refine ⟨r, w', m', hordered, ?_⟩
  rw [issue_memory F BlockMemory.port hop, hrun]
  rcases r with f | ⟨⟩ <;> rfl

/-- Three lanes store the words 0, 1 and 2 of a memory of two words. -/
def threeStores : Warp where
  active := 7
  live := 7
  registers := { general := fun lane r => if r = 0 then BitVec.ofNat 32 (4 * lane) else 9 }

theorem threeStores_ordered :
    let i : Instruction := { opcode := .stGlobal, src1 := 1, immFlag := true }
    let m : BlockMemory := { global := .zeroed 8, shared := .zeroed 0, params := [] }
    ∃ w' m', memoryAccess BlockMemory.port i 7 threeStores m
        = (.error { message := "access out of bounds", lane := 2, address := 8 }, w', m')
      ∧ m'.global.word 0 = 9 ∧ m'.global.word 4 = 9 := by
  intro i m
  have hfit : ∀ lane < 2, ¬LaneFaults threeStores m i lane := by
    intro lane hlt
    have h01 : lane = 0 ∨ lane = 1 := by omega
    rcases h01 with rfl | rfl <;> exact not_or.2 ⟨by decide, by decide⟩
  obtain ⟨r, w', m', hrun, hordered⟩ :=
    (memory_lane_ordered (i := i) rfl threeStores m).1 7
  obtain ⟨hr, ht⟩ := hordered.first 2 (by decide) (.inr (by decide)) fun lane hlt _ => hfit lane hlt
  have hword : ∀ lane < 2, m'.wordAt .global (threeStores.laneAddress i lane) = 9 := by
    intro lane hlt
    refine ht.stored rfl lane ?_ fun lane' hl' he => ?_
    · have h01 : lane = 0 ∨ lane = 1 := by omega
      rcases h01 with rfl | rfl <;> decide
    · have h01 : (lane = 0 ∨ lane = 1) ∧ (lane' = 0 ∨ lane' = 1) := by omega
      rcases h01 with ⟨rfl | rfl, rfl | rfl⟩ <;> first | omega | exact absurd he (by decide)
  refine ⟨w', m', ?_, hword 0 (by decide), hword 1 (by decide)⟩
  rw [hrun, hr]
  congr 2
  decide

end Main

end Warp

end WarpSim
