import WarpSim.Lib.LeadsTo
import WarpSim.Proofs.Barrier
import WarpSim.Proofs.LaneOrder
import WarpSim.Proofs.LaneRefinement

/-!
# A lane alone

Between two barriers a lane sees some words of memory and stores to some, and no other lane stores
to what it sees. So what it does there it does over a memory of its own, which is like the
block's on the words it sees.
-/

namespace WarpSim

/-- The words a lane may load between two barriers, and those it may store. -/
structure Footprint where
  loads : Space → Word → Prop
  stores : Space → Word → Prop

def Footprint.Sees (fp : Footprint) (space : Space) (address : Word) : Prop :=
  fp.loads space address ∨ fp.stores space address

namespace BlockMemory

section Wrote

variable {m m' m₀ μ : BlockMemory} {space : Space} {address : Word} {P : Space → Word → Prop}
  {fp : Footprint}

theorem wordAt_write_other {w : WordWrite} (hw : w.address.toNat % 4 = 0)
    (ha : address.toNat % 4 = 0) (hne : ¬(w.space = space ∧ w.address = address)) :
    (m.write w).wordAt space address = m.wordAt space address := by
  obtain ⟨space', address', value⟩ := w
  simp only [] at hw hne
  have hapart : space' = space → address'.toNat + 4 ≤ address.toNat
      ∨ address.toNat + 4 ≤ address'.toNat := by
    intro hs
    have : address'.toNat ≠ address.toNat := fun he => hne ⟨hs, BitVec.eq_of_toNat_eq he⟩
    omega
  cases space <;> cases space' <;> try rfl
  all_goals exact ByteMemory.word_setWord _ (hapart rfl) value

/-- Words of the given ones were written, and accesses counted. -/
inductive Wrote (P : Space → Word → Prop) (m : BlockMemory) : BlockMemory → Prop
  | refl : Wrote P m m
  | write {m' : BlockMemory} (h : Wrote P m m') (w : WordWrite) (hP : P w.space w.address)
      (haligned : w.address.toNat % 4 = 0) : Wrote P m (m'.write w)
  | count {m' : BlockMemory} (h : Wrote P m m') (d : MemoryStats) : Wrote P m (m'.addStats d)

theorem SameRoom.refl (m : BlockMemory) : SameRoom m m := ⟨fun _ => rfl, rfl⟩

theorem SameRoom.trans {m m' m'' : BlockMemory} (h : SameRoom m m') (h' : SameRoom m' m'') :
    SameRoom m m'' :=
  ⟨fun space => (h'.bytes space).trans (h.bytes space), h'.params.trans h.params⟩

theorem SameRoom.symm (h : SameRoom m m') : SameRoom m' m :=
  ⟨fun space => (h.bytes space).symm, h.params.symm⟩

theorem sameRoom_addStats (m : BlockMemory) (d : MemoryStats) : SameRoom m (m.addStats d) :=
  ⟨fun space => by cases space <;> rfl, rfl⟩

theorem Wrote.trans {m m' m'' : BlockMemory} (h : Wrote P m m') (h' : Wrote P m' m'') :
    Wrote P m m'' := by
  induction h' with
  | refl => exact h
  | write _ w hP haligned ih => exact ih.write w hP haligned
  | count _ d ih => exact ih.count d

theorem Wrote.mono {P' : Space → Word → Prop} (hP : ∀ space a, P space a → P' space a)
    (h : Wrote P m m') : Wrote P' m m' := by
  induction h with
  | refl => exact .refl
  | write _ w h haligned ih => exact ih.write w (hP _ _ h) haligned
  | count _ d ih => exact ih.count d

theorem Wrote.room (h : Wrote P m m') : SameRoom m m' := by
  induction h with
  | refl => exact .refl m
  | write _ w _ _ ih => exact ih.trans (sameRoom_write w.value)
  | count _ d ih => exact ih.trans (sameRoom_addStats _ d)

theorem Wrote.wordAt (h : Wrote P m m') (ha : address.toNat % 4 = 0) (hP : ¬P space address) :
    m'.wordAt space address = m.wordAt space address := by
  induction h with
  | refl => rfl
  | write _ w h haligned ih =>
    rw [wordAt_write_other haligned ha fun ⟨hs, hw⟩ => hP (by rwa [← hs, ← hw]), ih]
  | count _ d ih => rw [← ih]; cases space <;> rfl

/-- Outside the given words every byte is as it was. -/
theorem Wrote.byte (h : Wrote P m m') (space : Space) (j : Nat) :
    (m'.bytesOf space)[j]? = (m.bytesOf space)[j]?
      ∨ ∃ a, P space a ∧ a.toNat % 4 = 0 ∧ a.toNat ≤ j ∧ j < a.toNat + 4 := by
  induction h with
  | refl => exact .inl rfl
  | write _ w hP haligned ih =>
    by_cases hw : w.space = space ∧ w.address.toNat ≤ j ∧ j < w.address.toNat + 4
    · obtain ⟨rfl, hw⟩ := hw
      exact .inr ⟨w.address, hP, haligned, hw⟩
    · rwa [getElem?_write w.value hw]
  | count _ d ih => cases space <;> exact ih

/-- Memories as large as each other, alike on the words a lane sees. -/
structure Alike (fp : Footprint) (m m' : BlockMemory) : Prop where
  room : SameRoom m m'
  words : ∀ space a, fp.Sees space a → a.toNat % 4 = 0 → m'.wordAt space a = m.wordAt space a

theorem Alike.refl (fp : Footprint) (m : BlockMemory) : Alike fp m m :=
  ⟨.refl m, fun _ _ _ _ => rfl⟩

/-- What others write, where the lane sees nothing of it. -/
theorem Alike.wrote (h : Alike fp μ m) (hw : Wrote P m m')
    (hP : ∀ space a, P space a → ¬fp.Sees space a) : Alike fp μ m' :=
  ⟨h.room.trans hw.room, fun space a hs ha => by
    rw [hw.wordAt ha fun hp => hP space a hp hs, h.words space a hs ha]⟩

/-- What the lane writes itself. -/
theorem Alike.write (h : Alike fp μ m) {w : WordWrite} (hs : w.space ≠ .param)
    (hw : ¬m.Faults w.space w.address) : Alike fp (μ.write w) (m.write w) := by
  obtain ⟨space', address', value⟩ := w
  simp only [] at hs hw
  have hw' : ¬μ.Faults space' address' := by rwa [← h.room.faults]
  have haligned : address'.toNat % 4 = 0 := by
    cases space'
    case param => exact absurd rfl hs
    all_goals exact not_not.1 (not_or.1 hw).1
  refine ⟨(sameRoom_write _).symm.trans (h.room.trans (sameRoom_write _)),
    fun space a hsees ha => ?_⟩
  by_cases hself : space' = space ∧ address' = a
  · obtain ⟨rfl, rfl⟩ := hself
    rw [wordAt_write_self _ hs hw, wordAt_write_self _ hs hw']
  · rw [wordAt_write_other haligned ha hself, wordAt_write_other haligned ha hself,
      h.words space a hsees ha]

end Wrote

end BlockMemory

section Meets

/-- Lanes that part at the branch `i` at `pc` have met at its recorded PC before any barrier. -/
def MeetsBefore (program : List Instruction) (pc : Pc) (i : Instruction) : Prop :=
  ∀ q j, program[q]? = some j → j.opcode = .barSync → i.reconvergencePc ≠ noReconvergence
    ∧ ∀ l, Walk (Succ program) (pcVertex program pc) l (some q) →
      pcVertex program i.reconvergencePc ∈ l

end Meets

namespace LaneState

section Step

variable (F : FloatOps) (ctx : LaneContext) (program : List Instruction) (lane : Nat)
  (fp : Footprint) (outcome : Pc → Bool)

/-- What the lane is about to do is within its footprint, and goes the way every lane goes at a
branch whose lanes might not meet before a barrier. -/
structure Allowed (s : LaneState) : Prop where
  memory : ∀ pc i, s.pc = some pc → program[pc.toNat]? = some i → s.guardHolds i = true →
    Warp.isMemoryOpcode i.opcode = true → Warp.accessSpace i.opcode ≠ .param →
      if Warp.isStore i.opcode then fp.stores (Warp.accessSpace i.opcode) (s.address i)
      else fp.Sees (Warp.accessSpace i.opcode) (s.address i)
  branch : ∀ pc i, s.pc = some pc → program[pc.toNat]? = some i → i.opcode = .bra →
    i.guard.present = true → MeetsBefore program pc i ∨ s.guardHolds i = outcome pc

/-- A step of the lane over a memory of its own. -/
def Alone (x y : LaneState × BlockMemory) : Prop :=
  x.1.Allowed program fp outcome ∧ x.1.step F BlockMemory.port ctx program lane x.2 = some y

variable {F ctx program lane fp outcome}

/-- An access that succeeds addresses a word that is there. -/
theorem not_faults_of_access {i : Instruction} {s t : LaneState} {m m' : BlockMemory}
    (h : s.access BlockMemory.port i lane m = some (t, m')) :
    ¬m.Faults (Warp.accessSpace i.opcode) (s.address i) := by
  intro hf
  rw [access] at h
  by_cases hop : Warp.isStore i.opcode = true
  · have hs := Warp.isStore_space hop
    simp only [hop, if_true, BlockMemory.port, BlockMemory.store_fault hs hf] at h
    cases h
  · simp only [hop, Bool.false_eq_true, if_false, BlockMemory.port, BlockMemory.load_fault hf] at h
    cases h

/-- An access over a memory like the lane's own does the same to the lane, and to the memory at
most a store within the footprint. -/
theorem access_alike {i : Instruction} {s t : LaneState} {μ μ' m : BlockMemory}
    (hspace : Warp.accessSpace i.opcode ≠ .param →
      if Warp.isStore i.opcode then fp.stores (Warp.accessSpace i.opcode) (s.address i)
      else fp.Sees (Warp.accessSpace i.opcode) (s.address i))
    (h : s.access BlockMemory.port i lane μ = some (t, μ')) (hm : BlockMemory.Alike fp μ m) :
    ∃ m', s.access BlockMemory.port i lane m = some (t, m') ∧ BlockMemory.Alike fp μ' m'
      ∧ BlockMemory.Wrote fp.stores m m' := by
  have hf := not_faults_of_access h
  have hf' : ¬m.Faults (Warp.accessSpace i.opcode) (s.address i) := by rwa [hm.room.faults]
  rw [access] at h ⊢
  by_cases hop : Warp.isStore i.opcode = true
  · have hs := Warp.isStore_space hop
    have hstores := hspace hs
    have haligned : (s.address i).toNat % 4 = 0 := by
      unfold BlockMemory.Faults at hf
      split at hf
      · exact absurd ‹_› hs
      · exact not_not.1 (not_or.1 hf).1
    simp only [hop, if_true] at hstores
    simp only [hop, if_true, BlockMemory.port, BlockMemory.store_write hs hf, Option.some.injEq,
      Prod.mk.injEq] at h
    obtain ⟨rfl, rfl⟩ := h
    simp only [hop, if_true, BlockMemory.port, BlockMemory.store_write hs hf']
    exact ⟨_, rfl, hm.write hs hf', BlockMemory.Wrote.refl.write _ hstores haligned⟩
  · simp only [hop, Bool.false_eq_true, if_false, BlockMemory.port, BlockMemory.load_ok hf,
      Option.some.injEq, Prod.mk.injEq] at h
    obtain ⟨rfl, rfl⟩ := h
    have hword : m.wordAt (Warp.accessSpace i.opcode) (s.address i)
        = μ.wordAt (Warp.accessSpace i.opcode) (s.address i) := by
      by_cases hs : Warp.accessSpace i.opcode = .param
      · rw [hs, BlockMemory.wordAt, BlockMemory.wordAt, hm.room.params]
      · have hsees := hspace hs
        simp only [hop, Bool.false_eq_true, if_false] at hsees
        refine hm.words _ _ hsees ?_
        unfold BlockMemory.Faults at hf
        split at hf
        · exact absurd ‹_› hs
        · exact not_not.1 (not_or.1 hf).1
    simp only [hop, Bool.false_eq_true, if_false, BlockMemory.port, BlockMemory.load_ok hf', hword]
    exact ⟨m, rfl, hm, .refl⟩

theorem opcode_cases (op : Opcode) : isAluOpcode op = true ∨ Warp.isMemoryOpcode op = true
    ∨ op = .bra ∨ op = .exit ∨ op = .barSync := by
  cases op <;> simp [isAluOpcode, Warp.isMemoryOpcode]

/-- An instruction other than a load or store is the same over every memory. -/
theorem execute_quiet {σ : Type} {port : MemoryPort σ} {i : Instruction}
    (hop : Warp.isMemoryOpcode i.opcode = false) (s : LaneState) (pc : Pc) :
    ∃ r : Option LaneState, ∀ m, s.execute F port ctx i pc lane m = r.map fun t => (t, m) := by
  rcases opcode_cases i.opcode with halu | hmem | hcase | hcase | hcase
  · exact ⟨some ((s.executeAlu F i lane ctx).moveTo (pc + 1)),
      execute_alu F port ctx halu pc lane s⟩
  · rw [hmem] at hop
    cases hop
  · exact ⟨some (s.moveTo i.branchTarget), fun m => by simp [execute, hcase]⟩
  · exact ⟨some { s with pc := none }, fun m => by simp [execute, hcase]⟩
  · exact ⟨none, fun m => by simp [execute, hcase]⟩

/-- A step of the lane alone is its step over any memory alike. -/
theorem alone_alike {s t : LaneState} {μ μ' m : BlockMemory}
    (h : Alone F ctx program lane fp outcome (s, μ) (t, μ')) (hm : BlockMemory.Alike fp μ m) :
    ∃ m', s.step F BlockMemory.port ctx program lane m = some (t, m')
      ∧ BlockMemory.Alike fp μ' m' ∧ BlockMemory.Wrote fp.stores m m' := by
  obtain ⟨hallowed, hstep⟩ := h
  simp only [] at hallowed hstep
  have hsame : ∀ {t'}, some (t', μ) = some (t, μ') → ∃ m', some (t', m) = some (t, m')
      ∧ BlockMemory.Alike fp μ' m' ∧ BlockMemory.Wrote fp.stores m m' := by
    intro t' heq
    cases heq
    exact ⟨m, rfl, hm, .refl⟩
  rcases hpc : s.pc with _ | pc
  · rw [step, hpc] at hstep
    cases hstep
  rcases hi : program[pc.toNat]? with _ | i
  · simp only [step, hpc, hi] at hstep
    cases hstep
  rw [Warp.step_at hpc hi] at hstep ⊢
  by_cases hg : s.guardHolds i = true
  · simp only [hg, if_true] at hstep ⊢
    by_cases hmem : Warp.isMemoryOpcode i.opcode = true
    · rw [execute_memory F _ ctx hmem] at hstep ⊢
      rcases haccess : s.access BlockMemory.port i lane μ with _ | ⟨t', μ''⟩
      · rw [haccess] at hstep
        cases hstep
      · rw [haccess] at hstep
        cases hstep
        obtain ⟨m', h1, h2, h3⟩ :=
          access_alike (hallowed.memory pc i hpc hi hg hmem) haccess hm
        rw [h1]
        exact ⟨m', rfl, h2, h3⟩
    · have hquiet : ∃ r : Option LaneState, ∀ m,
          s.execute F BlockMemory.port ctx i pc lane m = r.map fun t => (t, m) :=
        execute_quiet (by simpa using hmem) s pc
      obtain ⟨r, hr⟩ := hquiet
      rw [hr] at hstep ⊢
      rcases r with _ | t'
      · cases hstep
      · exact hsame hstep
  · simp only [hg, Bool.false_eq_true, if_false] at hstep ⊢
    exact hsame hstep

end Step

end LaneState

end WarpSim
