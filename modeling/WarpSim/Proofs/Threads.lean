import WarpSim.Proofs.Plans
import WarpSim.Proofs.Routes
import WarpSim.Proofs.Straight

/-!
# A kernel means its threads

Where no two threads of a launch race, what a thread does between two barriers does not depend on
what the others do meanwhile. So the launch leaves the memory that its threads leave one after
another: the blocks in any order, and in each interval the threads of a block in any order.
-/

namespace WarpSim

namespace LaneState

section Recorded

variable (F : FloatOps) (ctx : LaneContext) (program : List Instruction) (lane : Nat)

/-- The access of the next step to global or shared memory, if there is one. -/
def accesses (s : LaneState) : List Access :=
  match s.pc with
  | none => []
  | some pc =>
    match program[pc.toNat]? with
    | none => []
    | some i =>
      if s.guardHolds i && Warp.isMemoryOpcode i.opcode && Warp.accessSpace i.opcode != .param then
        [⟨Warp.accessSpace i.opcode, s.address i, Warp.isStore i.opcode⟩]
      else []

def branches (s : LaneState) : List (Pc × Bool) :=
  match s.pc with
  | none => []
  | some pc =>
    match program[pc.toNat]? with
    | none => []
    | some i => if i.opcode == .bra && i.guard.present then [(pc, s.guardHolds i)] else []

/-- What the lane does in its first `n` steps, one list for each. -/
def recorded {α : Type} (record : LaneState → List α) : Nat → LaneState → BlockMemory → List α
  | 0, _, _ => []
  | n + 1, s, m =>
    match s.step F BlockMemory.port ctx program lane m with
    | none => []
    | some (t, m') => record s ++ recorded record n t m'

def atBarrier (s : LaneState) : Bool :=
  match s.pc with
  | none => false
  | some pc => program[pc.toNat]?.any fun i => i.opcode == .barSync

def release (s : LaneState) : LaneState :=
  match s.pc with
  | none => s
  | some pc => s.moveTo (pc + 1)

end Recorded

section Leads

variable {F : FloatOps} {ctx : LaneContext} {program : List Instruction} {lane : Nat}
  {fp : Footprint} {outcome : Pc → Bool} {s t : LaneState} {m : BlockMemory} {n : Nat}

theorem atBarrier_iff : s.atBarrier program = true ↔ ∃ pc i, s.pc = some pc
    ∧ program[pc.toNat]? = some i ∧ i.opcode = .barSync := by
  rw [atBarrier]
  rcases s.pc with _ | pc
  · simp
  · rcases hi : program[pc.toNat]? with _ | i <;> simp [hi]

theorem step_atBarrier (hunguarded : ∀ i ∈ program, i.opcode = .barSync → i.guard.present = false)
    (h : s.atBarrier program = true) (m : BlockMemory) :
    s.step F BlockMemory.port ctx program lane m = none := by
  obtain ⟨pc, i, hpc, hi, hop⟩ := atBarrier_iff.1 h
  rw [Warp.step_at hpc hi, if_pos (guardHolds_of_absent
    (hunguarded i (List.mem_of_getElem? hi) hop)), execute, hop]

/-- A lane with footprint and outcomes as recorded is a lane alone. -/
theorem leads_steps : ∀ {n : Nat} {s : LaneState} {m : BlockMemory},
    (∀ a ∈ recorded F ctx program lane (accesses program) n s m,
      if a.isStore then fp.stores a.space a.address else fp.loads a.space a.address) →
    (∀ b ∈ recorded F ctx program lane (branches program) n s m,
      (∀ i, program[b.1.toNat]? = some i → MeetsBefore program b.1 i) ∨ b.2 = outcome b.1) →
    ∃ k ≤ n, Leads (Alone F ctx program lane fp outcome) k (s, m)
      (s.steps F BlockMemory.port ctx program lane n m)
  | 0, s, m, _, _ => ⟨0, Nat.le_refl 0, .refl _⟩
  | n + 1, s, m, hfp, hway => by
    rw [recorded] at hfp hway
    rw [steps]
    rcases hstep : s.step F BlockMemory.port ctx program lane m with _ | ⟨t, m'⟩ <;>
      simp only [hstep] at hfp hway
    · exact ⟨0, Nat.zero_le _, .refl _⟩
    · obtain ⟨k, hk, hleads⟩ := leads_steps (fun a ha => hfp a (List.mem_append_right _ ha))
        fun b hb => hway b (List.mem_append_right _ hb)
      refine ⟨k + 1, Nat.succ_le_succ hk, .head ⟨⟨?_, ?_⟩, hstep⟩ hleads⟩
      · intro pc i hpc hi hguard hop hspace
        have hpc : s.pc = some pc := hpc
        have hguard : s.guardHolds i = true := hguard
        have ha : ⟨Warp.accessSpace i.opcode, s.address i, Warp.isStore i.opcode⟩
            ∈ s.accesses program := by
          simp only [accesses, hpc, hi, hguard, hop, Bool.and_self, Bool.true_and, bne_iff_ne,
            ne_eq, hspace, not_false_eq_true, if_true, List.mem_singleton]
        have := hfp _ (List.mem_append_left _ ha)
        simp only [] at this
        split_ifs at this ⊢ with hstore
        · exact this
        · exact .inl this
      · intro pc i hpc hi hop hguard
        have hpc : s.pc = some pc := hpc
        have hb : (pc, s.guardHolds i) ∈ s.branches program := by
          simp only [branches, hpc, hi, hop, hguard, beq_self_eq_true, Bool.and_self, if_true,
            List.mem_singleton]
        exact (hway _ (List.mem_append_left _ hb)).imp (fun h => h i hi) id

theorem recorded_aligned : ∀ {n : Nat} {s : LaneState} {m : BlockMemory} {a : Access},
    a ∈ recorded F ctx program lane (accesses program) n s m →
      a.space ≠ .param ∧ a.address.toNat % 4 = 0
  | 0, s, m, a, h => by cases h
  | n + 1, s, m, a, h => by
    rw [recorded] at h
    rcases hstep : s.step F BlockMemory.port ctx program lane m with _ | ⟨t, m'⟩ <;>
      simp only [hstep] at h
    · cases h
    rcases List.mem_append.1 h with h | h
    · rw [accesses] at h
      rw [step] at hstep
      rcases hpc : s.pc with _ | pc <;> simp only [hpc] at h hstep
      · cases h
      rcases hi : program[pc.toNat]? with _ | i <;> simp only [hi] at h hstep
      · cases h
      split_ifs at h with hcond
      · simp only [Bool.and_eq_true, bne_iff_ne, ne_eq] at hcond
        obtain ⟨⟨hguard, hop⟩, hspace⟩ := hcond
        rw [hguard, if_pos rfl, execute_memory F _ _ hop] at hstep
        rcases haccess : s.access BlockMemory.port i lane m with _ | x <;> rw [haccess] at hstep
        · cases hstep
        have hok := not_faults_of_access haccess
        rw [List.mem_singleton.1 h]
        refine ⟨hspace, ?_⟩
        simp only []
        unfold BlockMemory.Faults at hok
        split at hok
        · exact absurd ‹_› hspace
        · exact not_not.1 (not_or.1 hok).1
      · cases h
    · exact recorded_aligned h

theorem leads_alike {x y : LaneState × BlockMemory}
    (h : Leads (Alone F ctx program lane fp outcome) n x y) : ∀ {m : BlockMemory},
    BlockMemory.Alike fp x.2 m → ∃ m',
      Leads (Alone F ctx program lane fp outcome) n (x.1, m) (y.1, m')
      ∧ BlockMemory.Alike fp y.2 m' ∧ BlockMemory.Wrote fp.stores m m' := by
  induction h with
  | refl x => exact fun {m} hm => ⟨m, .refl _, hm, .refl⟩
  | head hxy rest ih =>
    intro m hm
    obtain ⟨m₁, hstep, hm₁, hwrote⟩ := alone_alike hxy hm
    obtain ⟨m', hleads, hm', hwrote'⟩ := ih hm₁
    exact ⟨m', .head ⟨hxy.1, hstep⟩ hleads, hm', hwrote.trans hwrote'⟩

theorem steps_of_leads {x y : LaneState × BlockMemory}
    (h : Leads (Alone F ctx program lane fp outcome) n x y) : ∀ {k : Nat}, n ≤ k →
    y.1.step F BlockMemory.port ctx program lane y.2 = none →
      x.1.steps F BlockMemory.port ctx program lane k x.2 = y := by
  induction h with
  | refl x =>
    intro k _ hstep
    cases k with
    | zero => rfl
    | succ k => rw [steps, hstep]
  | head hxy rest ih =>
    intro k hk hstep
    obtain ⟨k, rfl⟩ := Nat.exists_eq_succ_of_ne_zero (Nat.ne_zero_of_lt hk)
    rw [Nat.succ_eq_add_one, steps, hxy.2]
    exact ih (Nat.le_of_succ_le_succ hk) hstep

end Leads

end LaneState

namespace Launch

section Stages

/-- The threads of a block as they begin an interval, and the memory there. -/
structure Stage where
  lane : Nat → LaneState
  memory : BlockMemory

variable (F : FloatOps) (l : Launch)

def thread (c : Dim2) (t n : Nat) (s : LaneState) (m : BlockMemory) : LaneState × BlockMemory :=
  s.steps F BlockMemory.port (threadContext (l.context c) t) l.program (t % 32) n m

/-- One thread goes through its interval while the others wait. -/
def turn (c : Dim2) (steps : Nat → Nat) (p : Stage) (t : Nat) : Stage where
  lane := Function.update p.lane t (l.thread F c t (steps t) (p.lane t) p.memory).1.release
  memory := (l.thread F c t (steps t) (p.lane t) p.memory).2

/-- A block at the beginning of an interval, if its threads took turns in the ones before. -/
def stage (c : Dim2) (steps : Nat → Nat → Nat) (threads : Nat → List Nat) (g : ByteMemory) :
    Nat → Stage
  | 0 => ⟨fun _ => .fresh, l.blockMemory g⟩
  | i + 1 => (threads i).foldl (l.turn F c (steps i)) (stage c steps threads g i)

/-- The global memory after the listed blocks, each of so many barriers, if their threads took
turns. -/
def inTurn (barriers : Nat) (steps : Dim2 → Nat → Nat → Nat) (threads : Dim2 → Nat → List Nat)
    (order : List Dim2) (g : ByteMemory) : ByteMemory :=
  order.foldl (fun g c => (l.stage F c (steps c) (threads c) g (barriers + 1)).memory.global) g

variable (steps : Dim2 → Nat → Nat → Nat) (g : ByteMemory)

/-- A block of the launch at the beginning of an interval, over the launch's first memory. -/
def begins (c : Dim2) (i : Nat) : Stage :=
  l.stage F c (steps c) (fun _ => List.range l.block.count.toNat) g i

def recorded {α : Type} (record : LaneState → List α) (c : Dim2) (i t : Nat) : List α :=
  ((l.begins F steps g c i).lane t).recorded F (threadContext (l.context c) t) l.program (t % 32)
    record (steps c i t) (l.begins F steps g c i).memory

def ends (c : Dim2) (i t : Nat) : LaneState × BlockMemory :=
  l.thread F c t (steps c i t) ((l.begins F steps g c i).lane t) (l.begins F steps g c i).memory

/-- Every thread comes to so many barriers, and its run is over after the last. In an interval no
thread stores to a word that another of its block accesses, and in the whole launch none stores to a
word of global memory that a thread of another block accesses. -/
structure RaceFree (barriers : Nat) (order : List Dim2) : Prop where
  arrives : ∀ c ∈ order, ∀ i < barriers, ∀ t < l.block.count.toNat,
    (l.ends F steps g c i t).1.atBarrier l.program = true
  ended : ∀ c ∈ order, ∀ t < l.block.count.toNat,
    (l.ends F steps g c barriers t).1.ended l.program = true
  uniform : ∀ c ∈ order, ∀ i ≤ barriers, ∀ t < l.block.count.toNat, ∀ u < l.block.count.toNat,
    ∀ a ∈ l.recorded F steps g (LaneState.branches l.program) c i t,
    ∀ b ∈ l.recorded F steps g (LaneState.branches l.program) c i u, a.1 = b.1 →
      a.2 = b.2 ∨ ∀ j, l.program[a.1.toNat]? = some j → MeetsBefore l.program a.1 j
  block : ∀ c ∈ order, ∀ i ≤ barriers, ∀ t < l.block.count.toNat, ∀ u < l.block.count.toNat,
    ∀ a ∈ l.recorded F steps g (LaneState.accesses l.program) c i t,
    ∀ b ∈ l.recorded F steps g (LaneState.accesses l.program) c i u,
      a.isStore = true → a.space = b.space → a.address = b.address → t = u
  launch : ∀ c ∈ order, ∀ c' ∈ order, ∀ i ≤ barriers, ∀ i' ≤ barriers,
    ∀ t < l.block.count.toNat, ∀ u < l.block.count.toNat,
    ∀ a ∈ l.recorded F steps g (LaneState.accesses l.program) c i t,
    ∀ b ∈ l.recorded F steps g (LaneState.accesses l.program) c' i' u,
      a.isStore = true → a.space = .global → b.space = .global → a.address = b.address → c = c'

variable {F l steps g} in
theorem RaceFree.perm {barriers : Nat} {order order' : List Dim2}
    (h : l.RaceFree F steps g barriers order) (hperm : order'.Perm order) :
    l.RaceFree F steps g barriers order' where
  arrives := fun c hc => h.arrives c (hperm.mem_iff.1 hc)
  ended := fun c hc => h.ended c (hperm.mem_iff.1 hc)
  uniform := fun c hc => h.uniform c (hperm.mem_iff.1 hc)
  block := fun c hc => h.block c (hperm.mem_iff.1 hc)
  launch := fun c hc c' hc' => h.launch c (hperm.mem_iff.1 hc) c' (hperm.mem_iff.1 hc')

end Stages

section Alone

variable {F : FloatOps} {l : Launch} {steps : Dim2 → Nat → Nat → Nat} {g : ByteMemory}
  {barriers : Nat} {order : List Dim2} {c : Dim2} {i t u : Nat} {outcome : Pc → Bool}

variable (F l steps g) in
/-- The words that a thread accesses in an interval. -/
def footprint (c : Dim2) (i t : Nat) : Footprint where
  loads := fun space a =>
    ⟨space, a, false⟩ ∈ l.recorded F steps g (LaneState.accesses l.program) c i t
  stores := fun space a =>
    ⟨space, a, true⟩ ∈ l.recorded F steps g (LaneState.accesses l.program) c i t

theorem footprint_sees {space : Space} {a : Word} (h : (footprint F l steps g c i t).Sees space a) :
    ∃ b ∈ l.recorded F steps g (LaneState.accesses l.program) c i t,
      b.space = space ∧ b.address = a :=
  h.elim (fun h => ⟨_, h, rfl, rfl⟩) fun h => ⟨_, h, rfl, rfl⟩

theorem footprint_aligned {space : Space} {a : Word}
    (h : (footprint F l steps g c i t).stores space a) : a.toNat % 4 = 0 :=
  (LaneState.recorded_aligned h).2

theorem RaceFree.apart (hr : l.RaceFree F steps g barriers order) (hc : c ∈ order)
    (hi : i ≤ barriers) (ht : t < l.block.count.toNat) (hu : u < l.block.count.toNat) (hne : t ≠ u)
    (space : Space) (a : Word) (hst : (footprint F l steps g c i t).stores space a) :
    ¬(footprint F l steps g c i u).Sees space a := by
  intro hsees
  obtain ⟨b, hb, hspace, haddr⟩ := footprint_sees hsees
  exact hne (hr.block c hc i hi t ht u hu _ hst b hb rfl hspace.symm haddr.symm)

/-- Values that are given consistently are those of a function. -/
theorem exists_assigned {ι α β : Type} [Inhabited β] (P : ι → α → Prop) (v : ι → α → β)
    (h : ∀ i j a, P i a → P j a → v i a = v j a) : ∃ f : α → β, ∀ i a, P i a → f a = v i a := by
  have hone : ∀ a, ∃ b, ∀ i, P i a → b = v i a := by
    intro a
    by_cases hsome : ∃ i, P i a
    · obtain ⟨i, hi⟩ := hsome
      exact ⟨v i a, fun j hj => h i j a hi hj⟩
    · exact ⟨default, fun i hi => absurd ⟨i, hi⟩ hsome⟩
  choose f hf using hone
  exact ⟨f, fun i a => hf a i⟩

theorem RaceFree.exists_outcome (hr : l.RaceFree F steps g barriers order) (hc : c ∈ order)
    (hi : i ≤ barriers) : ∃ outcome : Pc → Bool, ∀ t < l.block.count.toNat,
      ∀ b ∈ l.recorded F steps g (LaneState.branches l.program) c i t,
        (∀ j, l.program[b.1.toNat]? = some j → MeetsBefore l.program b.1 j)
          ∨ b.2 = outcome b.1 := by
  obtain ⟨outcome, houtcome⟩ := exists_assigned
    (fun (x : Nat × Bool) (pc : Pc) => (x.1 < l.block.count.toNat
      ∧ (pc, x.2) ∈ l.recorded F steps g (LaneState.branches l.program) c i x.1)
      ∧ ¬∀ j, l.program[pc.toNat]? = some j → MeetsBefore l.program pc j)
    (fun x _ => x.2) fun x y pc hx hy =>
      (hr.uniform c hc i hi x.1 hx.1.1 y.1 hy.1.1 _ hx.1.2 _ hy.1.2 rfl).resolve_right hx.2
  refine ⟨outcome, fun t ht b hb => or_iff_not_imp_left.2 fun hmeets => ?_⟩
  exact (houtcome (t, b.2) b.1 ⟨⟨ht, hb⟩, hmeets⟩).symm

theorem RaceFree.stopped (hr : l.RaceFree F steps g barriers order)
    (hunguarded : ∀ i ∈ l.program, i.opcode = .barSync → i.guard.present = false) (hc : c ∈ order)
    (hi : i ≤ barriers) (ht : t < l.block.count.toNat) (m : BlockMemory) :
    (l.ends F steps g c i t).1.step F BlockMemory.port (threadContext (l.context c) t) l.program
      (t % 32) m = none := by
  rcases Nat.lt_or_eq_of_le hi with hlt | rfl
  · exact LaneState.step_atBarrier hunguarded (hr.arrives c hc i hlt t ht) m
  · exact LaneState.step_ended (hr.ended c hc t ht) m

/-- A thread does the same in an interval over any memory like that one where it looks. -/
theorem RaceFree.thread (hr : l.RaceFree F steps g barriers order)
    (hunguarded : ∀ i ∈ l.program, i.opcode = .barSync → i.guard.present = false) (hc : c ∈ order)
    (hi : i ≤ barriers) (ht : t < l.block.count.toNat)
    (houtcome : ∀ b ∈ l.recorded F steps g (LaneState.branches l.program) c i t,
      (∀ j, l.program[b.1.toNat]? = some j → MeetsBefore l.program b.1 j) ∨ b.2 = outcome b.1)
    {m : BlockMemory}
    (hm : BlockMemory.Alike (footprint F l steps g c i t) (l.begins F steps g c i).memory m) :
    ∃ k m', Leads (LaneState.Alone F (threadContext (l.context c) t) l.program (t % 32)
        (footprint F l steps g c i t) outcome) k ((l.begins F steps g c i).lane t, m)
        ((l.ends F steps g c i t).1, m')
      ∧ l.thread F c t (steps c i t) ((l.begins F steps g c i).lane t) m
        = ((l.ends F steps g c i t).1, m')
      ∧ BlockMemory.Wrote (footprint F l steps g c i t).stores m m'
      ∧ ∀ space a, (footprint F l steps g c i t).stores space a →
        m'.wordAt space a = (l.ends F steps g c i t).2.wordAt space a := by
  have hfootprint : ∀ a ∈ l.recorded F steps g (LaneState.accesses l.program) c i t,
      if a.isStore then (footprint F l steps g c i t).stores a.space a.address
      else (footprint F l steps g c i t).loads a.space a.address := by
    intro a ha
    obtain ⟨space, address, isStore⟩ := a
    cases isStore <;> exact ha
  obtain ⟨k, hk, hleads⟩ := LaneState.leads_steps hfootprint houtcome
  obtain ⟨m', hleads', halike, hwrote⟩ := LaneState.leads_alike hleads hm
  exact ⟨k, m', hleads', LaneState.steps_of_leads hleads' hk (hr.stopped hunguarded hc hi ht m'),
    hwrote, fun space a hst => halike.words space a (.inr hst) (footprint_aligned hst)⟩

end Alone

section Blocks

variable {F : FloatOps} {l : Launch} {steps : Dim2 → Nat → Nat → Nat} {g g' : ByteMemory}
  {barriers : Nat} {order : List Dim2} {c : Dim2} {i : Nat}
  {word : Dim2 → Nat → Space → Word → Word}

variable (F l steps g) in
/-- What the words that the threads of a block store in an interval hold at its end. -/
def Holds (order : List Dim2) (barriers : Nat) (word : Dim2 → Nat → Space → Word → Word) : Prop :=
  ∀ c ∈ order, ∀ i ≤ barriers, ∀ t < l.block.count.toNat, ∀ space a,
    (footprint F l steps g c i t).stores space a →
      (l.ends F steps g c i t).2.wordAt space a = word c i space a

theorem RaceFree.exists_word (hr : l.RaceFree F steps g barriers order) :
    ∃ word, Holds F l steps g order barriers word := by
  obtain ⟨word, hword⟩ := exists_assigned
    (fun (x : Dim2 × Nat × Nat) (y : Dim2 × Nat × Space × Word) => x.1 ∈ order ∧ x.2.1 ≤ barriers
      ∧ x.2.2 < l.block.count.toNat ∧ x.1 = y.1 ∧ x.2.1 = y.2.1
      ∧ (footprint F l steps g x.1 x.2.1 x.2.2).stores y.2.2.1 y.2.2.2)
    (fun x y => (l.ends F steps g x.1 x.2.1 x.2.2).2.wordAt y.2.2.1 y.2.2.2)
    fun x y a hx hy => by
      obtain ⟨c, i, t⟩ := x
      obtain ⟨c', i', u⟩ := y
      obtain ⟨hc, hi, ht, rfl, rfl, hst⟩ := hx
      obtain ⟨-, -, hu, rfl, rfl, hst'⟩ := hy
      rw [hr.block _ hc _ hi t ht u hu _ hst _ hst' rfl rfl rfl]
  refine ⟨fun c i space a => word (c, i, space, a), fun c hc i hi t ht space a hst => ?_⟩
  exact (hword (c, i, t) (c, i, space, a) ⟨hc, hi, ht, rfl, rfl, hst⟩).symm

variable (F l steps g) in
def StoredIn (c : Dim2) (i : Nat) (space : Space) (a : Word) : Prop :=
  ∃ t < l.block.count.toNat, (footprint F l steps g c i t).stores space a

variable (F l steps g) in
def blockFootprint (barriers : Nat) (c : Dim2) : Footprint where
  loads := fun space a =>
    ∃ i ≤ barriers, ∃ t < l.block.count.toNat, (footprint F l steps g c i t).loads space a
  stores := fun space a => ∃ i ≤ barriers, StoredIn F l steps g c i space a

theorem alike_thread {m m' : BlockMemory}
    (h : BlockMemory.Alike (blockFootprint F l steps g barriers c) m m')
    (hi : i ≤ barriers) {t : Nat} (ht : t < l.block.count.toNat) :
    BlockMemory.Alike (footprint F l steps g c i t) m m' :=
  ⟨h.room, fun space a hsees => h.words space a
    (hsees.imp (fun h => ⟨i, hi, t, ht, h⟩) fun h => ⟨i, hi, t, ht, h⟩)⟩

variable (F l steps g) in
/-- The memories that a block which began with the global memory `g'` may have at the beginning of
an interval. -/
inductive Reached (word : Dim2 → Nat → Space → Word → Word) (c : Dim2) (g' : ByteMemory) :
    Nat → BlockMemory → Prop
  | start : Reached word c g' 0 (l.blockMemory g')
  | next {i : Nat} {m m' : BlockMemory} (h : Reached word c g' i m)
      (hwrote : BlockMemory.Wrote (StoredIn F l steps g c i) m m')
      (hwords : ∀ space a, StoredIn F l steps g c i space a →
        m'.wordAt space a = word c i space a) :
      Reached word c g' (i + 1) m'

theorem Reached.alike {m : BlockMemory}
    (hstart : BlockMemory.Alike (blockFootprint F l steps g barriers c) (l.blockMemory g)
      (l.blockMemory g')) (h : Reached F l steps g word c g i m) :
    ∀ {m' : BlockMemory}, Reached F l steps g word c g' i m' →
      BlockMemory.Alike (blockFootprint F l steps g barriers c) m m' := by
  induction h with
  | start =>
    intro m' h'
    cases h'
    exact hstart
  | @next i _ _ h hwrote hwords ih =>
    intro m' h'
    cases h' with
    | next h' hwrote' hwords' =>
      have halike := ih h'
      refine ⟨hwrote.room.symm.trans (halike.room.trans hwrote'.room), fun space a hsees ha => ?_⟩
      by_cases hst : StoredIn F l steps g c i space a
      · rw [hwords space a hst, hwords' space a hst]
      · rw [hwrote.wordAt ha hst, hwrote'.wordAt ha hst, halike.words space a hsees ha]

/-- Threads that take turns store what they do over the memory at the beginning of the interval. -/
theorem RaceFree.turns (hr : l.RaceFree F steps g barriers order)
    (hunguarded : ∀ i ∈ l.program, i.opcode = .barSync → i.guard.present = false)
    (hword : Holds F l steps g order barriers word) (hc : c ∈ order) (hi : i ≤ barriers)
    {m₀ : BlockMemory} (hm₀ : BlockMemory.Alike (blockFootprint F l steps g barriers c)
      (l.begins F steps g c i).memory m₀) :
    ∀ (rest done : List Nat) {p : Stage}, (done ++ rest).Nodup →
      (∀ t ∈ done ++ rest, t < l.block.count.toNat) →
      (∀ t ∈ done, p.lane t = (l.ends F steps g c i t).1.release) →
      (∀ t ∈ rest, p.lane t = (l.begins F steps g c i).lane t) →
      BlockMemory.Wrote (fun space a => ∃ t ∈ done, (footprint F l steps g c i t).stores space a) m₀
        p.memory →
      (∀ t ∈ done, ∀ space a, (footprint F l steps g c i t).stores space a →
        p.memory.wordAt space a = word c i space a) →
      (∀ t ∈ done ++ rest, (rest.foldl (l.turn F c (steps c i)) p).lane t
          = (l.ends F steps g c i t).1.release)
        ∧ BlockMemory.Wrote
          (fun space a => ∃ t ∈ done ++ rest, (footprint F l steps g c i t).stores space a) m₀
          (rest.foldl (l.turn F c (steps c i)) p).memory
        ∧ ∀ t ∈ done ++ rest, ∀ space a, (footprint F l steps g c i t).stores space a →
          (rest.foldl (l.turn F c (steps c i)) p).memory.wordAt space a = word c i space a
  | [], done, p, _, _, hdone, _, hwrote, hwords => by
    rw [List.append_nil]
    exact ⟨hdone, hwrote, hwords⟩
  | t :: rest, done, p, hnodup, hlt, hdone, hrest, hwrote, hwords => by
    have ht : t < l.block.count.toNat := hlt t (List.mem_append_right _ List.mem_cons_self)
    have hother : ∀ u ∈ done, u < l.block.count.toNat ∧ u ≠ t := by
      intro u hu
      rw [List.nodup_append] at hnodup
      exact ⟨hlt u (List.mem_append_left _ hu), hnodup.2.2 u hu t List.mem_cons_self⟩
    have hfresh : t ∉ rest := by
      rw [List.nodup_append, List.nodup_cons] at hnodup
      exact hnodup.2.1.1
    have hm : BlockMemory.Alike (footprint F l steps g c i t) (l.begins F steps g c i).memory
        p.memory :=
      (alike_thread hm₀ hi ht).wrote hwrote fun space a ⟨u, hu, hst⟩ =>
        hr.apart hc hi (hother u hu).1 ht (hother u hu).2 space a hst
    obtain ⟨outcome, houtcome⟩ := hr.exists_outcome hc hi
    obtain ⟨k, m', -, hthread, hwrote', hwords'⟩ :=
      hr.thread hunguarded hc hi ht (houtcome t ht) hm
    have hturn : l.turn F c (steps c i) p t
        = ⟨Function.update p.lane t (l.ends F steps g c i t).1.release, m'⟩ := by
      rw [turn, hrest t List.mem_cons_self, hthread]
    have happend : done ++ t :: rest = (done ++ [t]) ++ rest := by rw [List.append_cons]
    rw [happend] at hnodup hlt ⊢
    rw [List.foldl_cons, hturn]
    refine hr.turns hunguarded hword hc hi hm₀ rest (done ++ [t]) hnodup hlt ?_ ?_ ?_ ?_
    · intro u hu
      rcases List.mem_append.1 hu with hu | hu
      · exact (Function.update_of_ne (hother u hu).2 _ _).trans (hdone u hu)
      · obtain rfl := List.mem_singleton.1 hu
        exact Function.update_self ..
    · intro u hu
      exact (Function.update_of_ne (fun (h : u = t) => hfresh (h ▸ hu)) _ _).trans
        (hrest u (List.mem_cons_of_mem t hu))
    · exact (hwrote.mono fun space a ⟨u, hu, hst⟩ => ⟨u, List.mem_append_left _ hu, hst⟩).trans
        (hwrote'.mono fun space a hst =>
          ⟨t, List.mem_append_right _ (List.mem_singleton_self t), hst⟩)
    · intro u hu space a hst
      rcases List.mem_append.1 hu with hu | hu
      · exact (hwrote'.wordAt (footprint_aligned hst) fun hst' =>
          hr.apart hc hi (hother u hu).1 ht (hother u hu).2 space a hst (.inr hst')).trans
          (hwords u hu space a hst)
      · obtain rfl := List.mem_singleton.1 hu
        exact (hwords' space a hst).trans (hword c hc i hi u ht space a hst)

theorem RaceFree.turns_reached (hr : l.RaceFree F steps g barriers order)
    (hunguarded : ∀ i ∈ l.program, i.opcode = .barSync → i.guard.present = false)
    (hword : Holds F l steps g order barriers word) (hc : c ∈ order) (hi : i ≤ barriers)
    (hstart : BlockMemory.Alike (blockFootprint F l steps g barriers c) (l.blockMemory g)
      (l.blockMemory g')) (hbegins : Reached F l steps g word c g i (l.begins F steps g c i).memory)
    {p : Stage} (hp : Reached F l steps g word c g' i p.memory)
    (hlane : ∀ t < l.block.count.toNat, p.lane t = (l.begins F steps g c i).lane t)
    {threads : List Nat} (hthreads : threads.Perm (List.range l.block.count.toNat)) :
    Reached F l steps g word c g' (i + 1) (threads.foldl (l.turn F c (steps c i)) p).memory
      ∧ ∀ t < l.block.count.toNat, (threads.foldl (l.turn F c (steps c i)) p).lane t
        = (l.ends F steps g c i t).1.release := by
  have hmem : ∀ t, t ∈ threads ↔ t < l.block.count.toNat := fun t =>
    hthreads.mem_iff.trans List.mem_range
  obtain ⟨hlanes, hwrote, hwords⟩ := hr.turns hunguarded hword hc hi (hbegins.alike hstart hp)
    threads [] (p := p) (hthreads.nodup_iff.2 List.nodup_range) (fun t => (hmem t).1)
    (fun _ ht => absurd ht List.not_mem_nil) (fun t ht => hlane t ((hmem t).1 ht)) .refl
    fun _ ht => absurd ht List.not_mem_nil
  refine ⟨.next hp ?_ ?_, fun t ht => hlanes t ((hmem t).2 ht)⟩
  · exact hwrote.mono fun space a ⟨t, ht, hst⟩ => ⟨t, (hmem t).1 ht, hst⟩
  · exact fun space a ⟨t, ht, hst⟩ => hwords t ((hmem t).2 ht) space a hst

/-- However the threads of a block take turns, they come to the same lanes and the same words. -/
theorem RaceFree.stage_reached (hr : l.RaceFree F steps g barriers order)
    (hunguarded : ∀ i ∈ l.program, i.opcode = .barSync → i.guard.present = false)
    (hword : Holds F l steps g order barriers word) (hc : c ∈ order) :
    ∀ {i : Nat}, i ≤ barriers + 1 → ∀ {g' : ByteMemory} {threads : Nat → List Nat},
      BlockMemory.Alike (blockFootprint F l steps g barriers c) (l.blockMemory g)
        (l.blockMemory g') →
      (∀ j ≤ barriers, (threads j).Perm (List.range l.block.count.toNat)) →
      Reached F l steps g word c g' i (l.stage F c (steps c) threads g' i).memory
        ∧ ∀ t < l.block.count.toNat,
          (l.stage F c (steps c) threads g' i).lane t = (l.begins F steps g c i).lane t
  | 0, _, g', threads, _, _ => ⟨.start, fun _ _ => rfl⟩
  | i + 1, hi, g', threads, hstart, hthreads => by
    have hi' : i ≤ barriers := Nat.le_of_succ_le_succ hi
    have hbegins : Reached F l steps g word c g i (l.begins F steps g c i).memory :=
      (hr.stage_reached hunguarded hword hc (Nat.le_of_succ_le hi) (.refl _ _) fun _ _ => .refl _).1
    obtain ⟨hreached, hlane⟩ :=
      hr.stage_reached hunguarded hword hc (Nat.le_of_succ_le hi) hstart hthreads
    have hnext := hr.turns_reached hunguarded hword hc hi' hstart hbegins hreached hlane
      (hthreads i hi')
    refine ⟨hnext.1, fun t ht => (hnext.2 t ht).trans ?_⟩
    exact ((hr.turns_reached hunguarded hword hc hi' (.refl _ _) hbegins hbegins (fun _ _ => rfl)
      (.refl _)).2 t ht).symm

theorem RaceFree.begins_reached (hr : l.RaceFree F steps g barriers order)
    (hunguarded : ∀ i ∈ l.program, i.opcode = .barSync → i.guard.present = false)
    (hword : Holds F l steps g order barriers word) (hc : c ∈ order) (hi : i ≤ barriers + 1) :
    Reached F l steps g word c g i (l.begins F steps g c i).memory :=
  (hr.stage_reached hunguarded hword hc hi (.refl _ _) fun _ _ => .refl _).1

theorem Reached.wrote {m : BlockMemory} (h : Reached F l steps g word c g' i m)
    (hi : i ≤ barriers + 1) :
    BlockMemory.Wrote (blockFootprint F l steps g barriers c).stores (l.blockMemory g') m := by
  induction h with
  | start => exact .refl
  | @next i _ _ _ hwrote _ ih =>
    exact (ih (Nat.le_of_succ_le hi)).trans
      (hwrote.mono fun _ _ hst => ⟨i, Nat.le_of_succ_le_succ hi, hst⟩)

variable (F l steps g word) in
def threadOutline (barriers : Nat) (outcome : Nat → Pc → Bool) (c : Dim2) (g' : ByteMemory) :
    Outline where
  barriers := barriers
  footprint := footprint F l steps g c
  value := word c
  entry := fun i t s => s = (l.begins F steps g c i).lane t
  memory := Reached F l steps g word c g'
  outcome := outcome

theorem RaceFree.exists_sound (hr : l.RaceFree F steps g barriers order)
    (hannotated : Warp.Annotated l.program)
    (hunguarded : ∀ i ∈ l.program, i.opcode = .barSync → i.guard.present = false)
    (hword : Holds F l steps g order barriers word) (hc : c ∈ order)
    (hstart : BlockMemory.Alike (blockFootprint F l steps g barriers c) (l.blockMemory g)
      (l.blockMemory g')) :
    ∃ outcome, (threadOutline F l steps g word barriers outcome c g').Sound F l.program
      (l.context c) l.block.count.toNat := by
  have hall : ∀ i, ∃ outcome : Pc → Bool, i ≤ barriers → ∀ t < l.block.count.toNat,
      ∀ b ∈ l.recorded F steps g (LaneState.branches l.program) c i t,
        (∀ j, l.program[b.1.toNat]? = some j → MeetsBefore l.program b.1 j)
          ∨ b.2 = outcome b.1 := by
    intro i
    by_cases hi : i ≤ barriers
    · obtain ⟨outcome, houtcome⟩ := hr.exists_outcome hc hi
      exact ⟨outcome, fun _ => houtcome⟩
    · exact ⟨fun _ => false, fun h => absurd h hi⟩
  choose outcome houtcome using hall
  refine ⟨outcome, hannotated, hunguarded, fun _ _ _ _ => footprint_aligned,
    fun i hi t ht u hu hne => hr.apart hc hi ht hu hne, ?_, ?_⟩
  · rintro i hi t ht s m hm rfl
    have hbegins := hr.begins_reached hunguarded hword hc (Nat.le_succ_of_le hi)
    obtain ⟨k, m', hleads, -, -, hwords⟩ := hr.thread hunguarded hc hi ht (houtcome i hi t ht)
      (alike_thread (hbegins.alike hstart hm) hi ht)
    refine ⟨k, _, hleads, fun space a hst => (hwords space a hst).trans
      (hword c hc i hi t ht space a hst), ?_⟩
    split_ifs with hlt
    · obtain ⟨pc, j, hpc, hj, hop⟩ := LaneState.atBarrier_iff.1 (hr.arrives c hc i hlt t ht)
      refine ⟨pc, j, hpc, hj, hop, ?_⟩
      have hrelease := (hr.turns_reached hunguarded hword hc hi (.refl _ _) hbegins hbegins
        (fun _ _ => rfl) (.refl _)).2 t ht
      rw [LaneState.release, hpc] at hrelease
      exact hrelease.symm
    · obtain rfl : i = barriers := Nat.le_antisymm hi (Nat.not_lt.1 hlt)
      exact hr.ended c hc t ht
  · exact fun i _ m m' hm hwrote hstored =>
      .next hm hwrote fun space a ⟨t, ht, hst⟩ => hstored t ht space a hst

theorem RaceFree.alike (hr : l.RaceFree F steps g barriers order) {value : Word → Word}
    {done rest : List Dim2} (hnodup : order.Nodup) (heq : order = done ++ c :: rest)
    (h : Stores (OutOf (fun c => (blockFootprint F l steps g barriers c).stores .global) done) value
      g g') :
    BlockMemory.Alike (blockFootprint F l steps g barriers c) (l.blockMemory g)
      (l.blockMemory g') := by
  refine ⟨⟨fun space => ?_, rfl⟩, fun space a hsees ha => ?_⟩
  · rcases space with _ | _ | _
    · exact h.size
    · rfl
    · rfl
  · rcases space with _ | _ | _
    · refine h.word_other (fun a ⟨_, _, _, _, _, _, hst⟩ => footprint_aligned hst) ha ?_
      rintro a' ⟨c', hc', i', hi', t', ht', hst⟩ heq'
      have hmem : c' ∈ order ∧ c ∈ order := by
        rw [heq]
        exact ⟨List.mem_append_left _ hc', List.mem_append_right _ List.mem_cons_self⟩
      have hsame : ∃ i ≤ barriers, ∃ t < l.block.count.toNat,
          (footprint F l steps g c i t).Sees .global a :=
        hsees.elim (fun ⟨i, hi, t, ht, h⟩ => ⟨i, hi, t, ht, .inl h⟩)
          fun ⟨i, hi, t, ht, h⟩ => ⟨i, hi, t, ht, .inr h⟩
      obtain ⟨i, hi, t, ht, hseen⟩ := hsame
      obtain ⟨b, hb, hspace, haddr⟩ := footprint_sees hseen
      have := hr.launch c' hmem.1 c hmem.2 i' hi' i hi t' ht' t ht _ hst b hb rfl rfl hspace
        ((BitVec.eq_of_toNat_eq heq').trans haddr.symm)
      rw [heq, List.nodup_append] at hnodup
      exact hnodup.2.2 c' hc' c List.mem_cons_self this
    · rfl
    · rfl

variable (F l steps g) in
/-- What the words of global memory that a block of the launch stores hold in the end. -/
def Leaves (barriers : Nat) (order : List Dim2) (value : Word → Word) : Prop :=
  ∀ c ∈ order, ∀ a, (blockFootprint F l steps g barriers c).stores .global a →
    (l.begins F steps g c (barriers + 1)).memory.wordAt .global a = value a

theorem RaceFree.blocks (hr : l.RaceFree F steps g barriers order) {c' : Dim2} (hc : c ∈ order)
    (hc' : c' ∈ order) {a : Word} (h : (blockFootprint F l steps g barriers c).stores .global a)
    (h' : (blockFootprint F l steps g barriers c').stores .global a) : c = c' := by
  obtain ⟨i, hi, t, ht, hst⟩ := h
  obtain ⟨i', hi', u, hu, hst'⟩ := h'
  exact hr.launch c hc c' hc' i hi i' hi' t ht u hu _ hst _ hst' rfl rfl rfl rfl

theorem RaceFree.exists_value (hr : l.RaceFree F steps g barriers order) :
    ∃ value, Leaves F l steps g barriers order value := by
  obtain ⟨value, hvalue⟩ := exists_assigned
    (fun c a => c ∈ order ∧ (blockFootprint F l steps g barriers c).stores .global a)
    (fun c a => (l.begins F steps g c (barriers + 1)).memory.wordAt .global a)
    fun c c' a hc hc' => by rw [hr.blocks hc.1 hc'.1 hc.2 hc'.2]
  exact ⟨value, fun c hc a hst => (hvalue c a ⟨hc, hst⟩).symm⟩

theorem RaceFree.leaves (hr : l.RaceFree F steps g barriers order)
    (hunguarded : ∀ i ∈ l.program, i.opcode = .barSync → i.guard.present = false)
    (hword : Holds F l steps g order barriers word) {value : Word → Word}
    (hvalue : Leaves F l steps g barriers order value) (hc : c ∈ order)
    (hstart : BlockMemory.Alike (blockFootprint F l steps g barriers c) (l.blockMemory g)
      (l.blockMemory g')) {m : BlockMemory} (hm : Reached F l steps g word c g' (barriers + 1) m) :
    Stores ((blockFootprint F l steps g barriers c).stores .global) value g' m.global := by
  refine stores_of_wrote (hm.wrote (Nat.le_refl _)) (fun _ ha => ha) fun a ha => ?_
  have haligned : a.toNat % 4 = 0 := by
    obtain ⟨i, -, t, -, hst⟩ := ha
    exact footprint_aligned hst
  rw [← hvalue c hc a ha]
  exact ((hr.begins_reached hunguarded hword hc (Nat.le_refl _)).alike hstart hm).words .global a
    (.inr ha) haligned

/-- Every block of a launch without races returns, and leaves what its threads do in turn. -/
theorem RaceFree.blockwise (hr : l.RaceFree F steps g barriers order)
    (hannotated : Warp.Annotated l.program)
    (hunguarded : ∀ i ∈ l.program, i.opcode = .barSync → i.guard.present = false)
    (hword : Holds F l steps g order barriers word) {value : Word → Word}
    (hvalue : Leaves F l steps g barriers order value) (hpos : l.block.count ≠ 0)
    (hfits : l.block.count.toNat ≤ 2 ^ 32 - 32) (hnodup : order.Nodup) :
    Blockwise F l barriers (fun c => (blockFootprint F l steps g barriers c).stores .global) value g
      order := by
  refine ⟨hpos, hnodup, fun c a ⟨_, _, _, _, hst⟩ => footprint_aligned hst,
    fun c hc c' hc' hne a ha ha' => hne (hr.blocks hc hc' ha ha'), fun done c rest heq d h => ?_⟩
  have hc : c ∈ order := by rw [heq]; simp
  have hstart := hr.alike hnodup heq h
  obtain ⟨outcome, hsound⟩ := hr.exists_sound hannotated hunguarded hword hc hstart
  have hpos' : 0 < l.block.count.toNat :=
    Nat.pos_of_ne_zero fun hz => hpos (BitVec.eq_of_toNat_eq hz)
  obtain ⟨log, s, b, m₁, hrun, hret, hcount, hm₁, hwrote, hstored⟩ :=
    hsound.returns hfits hpos' (m := l.blockMemory d.global) .start (fun _ _ => rfl) d.stats
  refine ⟨log, s, b, hrun, hret, hcount, hr.leaves hunguarded hword hvalue hc hstart ?_⟩
  exact .next hm₁ hwrote fun space a ⟨t, ht, hst⟩ => hstored t ht space a hst

theorem RaceFree.inTurn (hr : l.RaceFree F steps g barriers order)
    (hunguarded : ∀ i ∈ l.program, i.opcode = .barSync → i.guard.present = false)
    (hword : Holds F l steps g order barriers word) {value : Word → Word}
    (hvalue : Leaves F l steps g barriers order value) (hnodup : order.Nodup)
    {threads : Dim2 → Nat → List Nat}
    (hthreads : ∀ c ∈ order, ∀ i ≤ barriers,
      (threads c i).Perm (List.range l.block.count.toNat)) :
    ∀ (rest done : List Dim2) {g' : ByteMemory}, order = done ++ rest →
      Stores (OutOf (fun c => (blockFootprint F l steps g barriers c).stores .global) done)
        value g g' →
      Stores (OutOf (fun c => (blockFootprint F l steps g barriers c).stores .global) order) value g
        (l.inTurn F barriers steps threads rest g')
  | [], done, g', heq, h => by
    rw [List.append_nil] at heq
    rwa [heq]
  | c :: rest, done, g', heq, h => by
    have hc : c ∈ order := by rw [heq]; simp
    have hstart := hr.alike hnodup heq h
    obtain ⟨hreached, -⟩ := hr.stage_reached hunguarded hword hc (Nat.le_refl _) hstart
      (hthreads c hc)
    have hsnoc := h.snoc (hr.leaves hunguarded hword hvalue hc hstart hreached)
      (fun c a ⟨_, _, _, _, hst⟩ => footprint_aligned hst) fun c' hc' a ha' ha => by
        have hc'order : c' ∈ order := by rw [heq]; exact List.mem_append_left _ hc'
        obtain rfl := hr.blocks hc'order hc ha' ha
        rw [heq, List.nodup_append] at hnodup
        exact hnodup.2.2 c' hc' c' List.mem_cons_self rfl
    exact hr.inTurn hunguarded hword hvalue hnodup hthreads rest (done ++ [c])
      (by rw [heq, List.append_cons]) hsnoc

end Blocks

end Launch

namespace Device

/-- A launch whose threads do not race returns, and leaves the memory that its threads leave one
after another: the blocks in any order, and in each interval between barriers the threads of a
block in any order. Every block completes as many barriers as its threads come to. -/
theorem launch_inTurn {F : FloatOps} {program : Program} {decoded : List Instruction}
    {grid block : Dim2} {params : List Word} {g : ByteMemory} {barriers : Nat}
    {steps : Dim2 → Nat → Nat → Nat} (hdecode : decodeWords 0 program.words = .ok decoded)
    (hannotated : Warp.Annotated decoded)
    (hunguarded : ∀ i ∈ decoded, i.opcode = .barSync → i.guard.present = false)
    (hgrid : grid.count ≠ 0) (hblock : block.count ≠ 0)
    (hfits : block.count.toNat ≤ 2 ^ 32 - 32)
    (hrace : (Launch.ofProgram program decoded grid block params).RaceFree F steps g barriers
      (blockOrder grid)) :
    (∃ fuel stats g', launch F program grid block params g fuel = some (.ok stats, g')
      ∧ ∀ order threads, order.Perm (blockOrder grid) →
        (∀ c ∈ order, ∀ i ≤ barriers, (threads c i).Perm (List.range block.count.toNat)) →
        (Launch.ofProgram program decoded grid block params).inTurn F barriers steps threads order g
          = g')
    ∧ ∀ ctaid s, Begins F program grid block params g ctaid s →
      ∃ log s' b, Scheduler.Run F decoded s log s' ∧ s'.advance F decoded = .returned (.ok ()) b
        ∧ Scheduler.completions log = barriers := by
  obtain ⟨word, hword⟩ := hrace.exists_word
  obtain ⟨value, hvalue⟩ := hrace.exists_value
  obtain ⟨⟨fuel, stats, g', hlaunch, hstores⟩, hbarriers⟩ := launch_blockwise hdecode hgrid
    (hrace.blockwise hannotated hunguarded hword hvalue hblock hfits (nodup_blockOrder grid))
  refine ⟨⟨fuel, stats, g', hlaunch, fun order threads hperm hthreads => ?_⟩, hbarriers⟩
  have hturn := (hrace.perm hperm).inTurn hunguarded (fun c hc => hword c (hperm.mem_iff.1 hc))
    (fun c hc => hvalue c (hperm.mem_iff.1 hc)) (hperm.nodup_iff.2 (nodup_blockOrder grid)) hthreads
    order [] (List.nil_append order).symm Launch.stores_nil
  have hiff : ∀ a, Launch.OutOf (fun c => (Launch.blockFootprint F
      (.ofProgram program decoded grid block params) steps g barriers c).stores .global) order a
      ↔ Launch.OutOf (fun c => (Launch.blockFootprint F
        (.ofProgram program decoded grid block params) steps g barriers c).stores .global)
        (blockOrder grid) a := fun a =>
    ⟨fun ⟨c, hc, ha⟩ => ⟨c, hperm.mem_iff.1 hc, ha⟩, fun ⟨c, hc, ha⟩ => ⟨c, hperm.mem_iff.2 hc, ha⟩⟩
  rw [funext fun a => propext (hiff a)] at hturn
  exact hturn.unique hstores

/-- Two threads exchange their numbers through shared memory. -/
def swapProgram : List Instruction :=
  [{ opcode := .movSreg }, rri .shl 1 0 2, stShared 1 0, barSync, rri .xor 2 1 4,
    rri .ldShared 3 2 0, stGlobal 1 3, { opcode := .exit }]

def swapKernel : Program := { words := swapProgram.map packWord, sharedBytes := 8 }

/-- Before the barrier the second thread goes first, and after it the first one. -/
theorem swapKernel_inTurn : ∃ fuel stats, launch default swapKernel ⟨1, 1⟩ ⟨2, 1⟩ []
    ⟨[7, 7, 7, 7, 7, 7, 7, 7]⟩ fuel = some (.ok stats, ⟨[1, 0, 0, 0, 0, 0, 0, 0]⟩) := by
  have hannotated : Warp.Annotated swapProgram :=
    ⟨by decide, by decide +kernel, escapes_of_rank (fun pc => 8 - pc) (by decide)⟩
  have hbranches : ∀ c ∈ blockOrder ⟨1, 1⟩, ∀ i ≤ 1, ∀ t < 2,
      (Launch.ofProgram swapKernel swapProgram ⟨1, 1⟩ ⟨2, 1⟩ []).recorded default (fun _ _ _ => 8)
        ⟨[7, 7, 7, 7, 7, 7, 7, 7]⟩ (LaneState.branches swapProgram) c i t = [] := by
    decide +kernel
  have hone : ∀ c ∈ blockOrder ⟨1, 1⟩, c = ⟨0, 0⟩ := by decide
  have hrace : (Launch.ofProgram swapKernel swapProgram ⟨1, 1⟩ ⟨2, 1⟩ []).RaceFree default
      (fun _ _ _ => 8) ⟨[7, 7, 7, 7, 7, 7, 7, 7]⟩ 1 (blockOrder ⟨1, 1⟩) :=
    { arrives := by decide +kernel
      ended := by decide +kernel
      uniform := fun c hc i hi t ht u _ a ha => by
        rw [show (Launch.ofProgram swapKernel swapProgram ⟨1, 1⟩ ⟨2, 1⟩ []).program = swapProgram
          from rfl, hbranches c hc i hi t ht] at ha
        cases ha
      block := by decide +kernel
      launch := fun c hc c' hc' => by
        intros
        exact (hone c hc).trans (hone c' hc').symm }
  obtain ⟨⟨fuel, stats, g', hlaunch, hturn⟩, -⟩ := launch_inTurn (by decide) hannotated (by decide)
    (by decide) (by decide) (by decide) hrace
  have hmem : (Launch.ofProgram swapKernel swapProgram ⟨1, 1⟩ ⟨2, 1⟩ []).inTurn default 1
      (fun _ _ _ => 8) (fun _ i => if i = 0 then [1, 0] else [0, 1]) [⟨0, 0⟩]
      ⟨[7, 7, 7, 7, 7, 7, 7, 7]⟩ = ⟨[1, 0, 0, 0, 0, 0, 0, 0]⟩ := by decide +kernel
  refine ⟨fuel, stats, hlaunch.trans ?_⟩
  rw [← hturn [⟨0, 0⟩] (fun _ i => if i = 0 then [1, 0] else [0, 1]) (by decide) (by decide), hmem]

end Device

end WarpSim
