import WarpSim.Lib.Interleave
import WarpSim.Proofs.Counters
import WarpSim.Proofs.Schedules

/-!
# The order of the blocks does not matter

What a block does depends on the global memory only through the words it loads, and it leaves a
list of word writes and a sum of counters. Blocks that store to no word another one accesses can
be executed in any order.
-/

namespace WarpSim

/-- The global words that the events of a block load and store. -/
def globalAccesses (log : List Event) : List Access :=
  log.flatMap fun
    | .stepped _ _ accesses => accesses.filter fun a => a.space = .global
    | _ => []

/-- What each of the listed blocks loads from and stores to global memory, in the order in which
they are executed. -/
def Launch.globalAccesses (F : FloatOps) (l : Launch) (fuel : Nat) :
    List Dim2 → LaunchState → List (Dim2 × List Access)
  | [], _ => []
  | ctaid :: order, d =>
    match (l.startBlock ctaid d).run F l.program fuel with
    | some (.ok (), b) =>
      (ctaid, WarpSim.globalAccesses ((l.startBlock ctaid d).runFor F l.program fuel).1)
        :: l.globalAccesses F fuel order (l.finishBlock b)
    | _ => []

/-- No block stores to a global word that another block loads or stores. -/
def BlocksApart (accesses : List (Dim2 × List Access)) : Prop :=
  ∀ x ∈ accesses, ∀ y ∈ accesses, x.1 ≠ y.1 → ∀ a ∈ x.2, ∀ b ∈ y.2, ¬a.Clobbers b

namespace ByteMemory

/-- The global writes among a list of writes. -/
def setAll (g : ByteMemory) (ws : List WordWrite) : ByteMemory :=
  ws.foldl (fun g v => if v.space = .global then g.setWord v.address.toNat v.value else g) g

theorem setAll_cons (g : ByteMemory) (v : WordWrite) (ws : List WordWrite) :
    g.setAll (v :: ws)
      = (if v.space = .global then g.setWord v.address.toNat v.value else g).setAll ws :=
  rfl

theorem setAll_append (g : ByteMemory) (ws ws' : List WordWrite) :
    g.setAll (ws ++ ws') = (g.setAll ws).setAll ws' :=
  List.foldl_append

@[simp] theorem size_setAll (ws : List WordWrite) :
    ∀ g : ByteMemory, (g.setAll ws).size = g.size := by
  induction ws with
  | nil => exact fun _ => rfl
  | cons v ws ih =>
    intro g
    rw [setAll_cons, ih]
    split_ifs
    · exact size_setWord g _ _
    · rfl

/-- The bytes of the words that no write goes to stay. -/
theorem getElem?_setAll {ws : List WordWrite} {j : Nat} : ∀ {g : ByteMemory},
    (∀ v ∈ ws, v.address.toNat % 4 = 0 ∧ (v.space = .global → v.address.toNat / 4 ≠ j / 4)) →
      (g.setAll ws).bytes[j]? = g.bytes[j]? := by
  induction ws with
  | nil => exact fun _ => rfl
  | cons v ws ih =>
    intro g h
    obtain ⟨⟨haligned, hne⟩, hws⟩ := List.forall_mem_cons.1 h
    rw [setAll_cons, ih hws]
    split_ifs with hv
    · have := hne hv
      rw [getElem?_setWord, if_neg (by omega)]
    · rfl

theorem setAll_setWord {ws : List WordWrite} {k : Nat} (hk : k % 4 = 0) (value : Word) :
    ∀ {g : ByteMemory}, (∀ v ∈ ws, v.address.toNat % 4 = 0
        ∧ (v.space = .global → v.address.toNat / 4 ≠ k / 4)) →
      (g.setWord k value).setAll ws = (g.setAll ws).setWord k value := by
  induction ws with
  | nil => exact fun _ => rfl
  | cons v ws ih =>
    intro g h
    obtain ⟨⟨haligned, hne⟩, hws⟩ := List.forall_mem_cons.1 h
    rw [setAll_cons, setAll_cons]
    split_ifs with hv
    · have := hne hv
      rw [setWord_comm g (by omega), ih hws]
    · exact ih hws

/-- Writes to different words change places. -/
theorem setAll_comm {ws ws' : List WordWrite} (hws : ∀ v ∈ ws, v.address.toNat % 4 = 0)
    (hne : ∀ v ∈ ws, ∀ v' ∈ ws', v'.address.toNat % 4 = 0 ∧ (v.space = .global →
      v'.space = .global → v'.address.toNat / 4 ≠ v.address.toNat / 4)) :
    ∀ g : ByteMemory, (g.setAll ws).setAll ws' = (g.setAll ws').setAll ws := by
  induction ws with
  | nil => exact fun _ => rfl
  | cons v ws ih =>
    intro g
    rw [List.forall_mem_cons] at hws hne
    rw [setAll_cons, setAll_cons, ih hws.2 hne.2]
    split_ifs with hv
    · rw [setAll_setWord hws.1 _ fun v' hv' => ⟨(hne.1 v' hv').1, (hne.1 v' hv').2 hv⟩]
    · rfl

end ByteMemory

namespace BlockMemory

/-- Two memories of a block that differ at most in global words outside `words`. -/
structure AgreeOn (words : Set Nat) (m m₂ : BlockMemory) : Prop where
  shared : m₂.shared = m.shared
  params : m₂.params = m.params
  stats : m₂.stats = m.stats
  size : m₂.global.size = m.global.size
  bytes : ∀ j, j / 4 ∈ words → m₂.global.bytes[j]? = m.global.bytes[j]?

section Agree

variable {words : Set Nat} {m m₂ : BlockMemory}

theorem AgreeOn.write (h : AgreeOn words m m₂) (v : WordWrite) :
    AgreeOn words (m.write v) (m₂.write v) := by
  obtain ⟨h1, h2, h3, h4, h5⟩ := h
  rcases hs : v.space with _ | _ | _ <;> simp only [BlockMemory.write, hs]
  · refine ⟨h1, h2, h3, by simpa using h4, fun j hj => ?_⟩
    simp only [ByteMemory.getElem?_setWord, h4, h5 j hj]
  · exact ⟨by simp only [h1], h2, h3, h4, h5⟩
  · exact ⟨h1, h2, h3, h4, h5⟩

theorem AgreeOn.writeAll (ws : List WordWrite) : ∀ {m m₂ : BlockMemory}, AgreeOn words m m₂ →
    AgreeOn words (m.writeAll ws) (m₂.writeAll ws) := by
  induction ws with
  | nil => exact id
  | cons v ws ih => exact fun h => ih (h.write v)

theorem AgreeOn.addStats (h : AgreeOn words m m₂) (d : MemoryStats) :
    AgreeOn words (m.addStats d) (m₂.addStats d) :=
  ⟨h.shared, h.params, congrArg (·.add d) h.stats, h.size, h.bytes⟩

theorem AgreeOn.load (h : AgreeOn words m m₂) {space : Space} {address : Word} (lane : Nat)
    (hmem : space = .global → address.toNat / 4 ∈ words) :
    (m₂.load space address lane).1 = (m.load space address lane).1 := by
  cases space with
  | global =>
    have hcheck : m₂.global.check address lane = m.global.check address lane := by
      rw [ByteMemory.check, ByteMemory.check, h.size]
    show m₂.global.load32 address lane = m.global.load32 address lane
    rw [ByteMemory.load32, ByteMemory.load32, hcheck]
    rcases hc : m.global.check address lane with e | u
    · rfl
    · have haligned : address.toNat % 4 = 0 := by
        unfold ByteMemory.check at hc
        split_ifs at hc with h1
        exact not_not.1 h1
      have hbyte :
        ∀ k < 4, m₂.global.byte (address.toNat + k) = m.global.byte (address.toNat + k) := by
        intro k hk
        rw [ByteMemory.byte, ByteMemory.byte, List.getD_eq_getElem?_getD,
          List.getD_eq_getElem?_getD, h.bytes]
        rw [show (address.toNat + k) / 4 = address.toNat / 4 by omega]
        exact hmem rfl
      have hword : m₂.global.word address.toNat = m.global.word address.toNat := by
        rw [ByteMemory.word, ByteMemory.word, hbyte 3 (by omega), hbyte 2 (by omega),
          hbyte 1 (by omega), show address.toNat = address.toNat + 0 from rfl, hbyte 0 (by omega)]
      show Except.ok _ = Except.ok _
      rw [hword]
  | shared =>
    show m₂.shared.load32 address lane = m.shared.load32 address lane
    rw [h.shared]
  | param => exact load_param h.params

theorem global_writeAll (ws : List WordWrite) :
    ∀ m : BlockMemory, (m.writeAll ws).global = m.global.setAll ws := by
  induction ws with
  | nil => exact fun _ => rfl
  | cons v ws ih =>
    intro m
    refine (ih (m.write v)).trans ?_
    rcases hs : v.space with _ | _ | _ <;> simp [BlockMemory.write, ByteMemory.setAll, hs]

end Agree

end BlockMemory

@[simp] theorem globalAccesses_append (log log' : List Event) :
    globalAccesses (log ++ log') = globalAccesses log ++ globalAccesses log' :=
  List.flatMap_append

theorem globalAccesses_cons (event : Event) (log : List Event) :
    globalAccesses (event :: log) = globalAccesses [event] ++ globalAccesses log :=
  globalAccesses_append [event] log

namespace Scheduler

variable {F : FloatOps} {program : List Instruction}

section Replay

/-- Two schedulers in the same place, over memories that agree on some global words. -/
structure Alike (words : Set Nat) (s s₂ : Scheduler) : Prop where
  warps : s₂.warps = s.warps
  next : s₂.next = s.next
  anyRunnable : s₂.anyRunnable = s.anyRunnable
  memory : BlockMemory.AgreeOn words s.memory s₂.memory

/-- From a scheduler like `s` over global words that agree, the same events, writes and counts. -/
def Replays (F : FloatOps) (program : List Instruction) (s s' : Scheduler) (log : List Event)
    (ws : List WordWrite) (δ : LaunchStats) : Prop :=
  ∀ words : Set Nat, (∀ a ∈ globalAccesses log, a.address.toNat / 4 ∈ words) →
    ∀ s₂, Alike words s s₂ → ∃ s₂', Run F program s₂ log s₂' ∧ Alike words s' s₂'
      ∧ s₂'.memory.global = s₂.memory.global.setAll ws
      ∧ s₂'.stats = s₂.stats.add δ

/-- The writes are among the stores of the events. -/
def Stores (log : List Event) (ws : List WordWrite) : Prop :=
  ∀ v ∈ ws, v.address.toNat % 4 = 0
    ∧ (v.space = .global → (⟨.global, v.address, true⟩ : Access) ∈ globalAccesses log)

theorem advance_replays {s s' : Scheduler} {event : Event}
    (h : s.advance F program = .running event s') :
    ∃ ws δ, δ.Full ∧ Stores [event] ws ∧ Replays F program s s' [event] ws δ := by
  cases advance_cases h with
  | skip warp hwarp hrun =>
    refine ⟨[], {}, LaunchStats.full_empty, nofun, fun words _ s₂ hs₂ => ?_⟩
    obtain ⟨h1, h2, h3, h4⟩ := hs₂
    refine ⟨{ s₂ with next := s₂.next + 1 }, .cons ?_ (.nil _), ⟨h1, congrArg (· + 1) h2, h3, h4⟩,
      rfl, (LaunchStats.add_empty _).symm⟩
    rw [advance, h1, h2, hwarp]
    simp [hrun]
  | release hend hunfinished hparked =>
    refine ⟨[], { barriersCompleted := 1 }, rfl, nofun, fun words _ s₂ hs₂ => ?_⟩
    obtain ⟨h1, h2, h3, h4⟩ := hs₂
    refine ⟨s₂.release.newPass, .cons ?_ (.nil _), ⟨?_, rfl, rfl, h4⟩, rfl, ?_⟩
    · have hu : s₂.anyUnfinished = s.anyUnfinished := by rw [Block.anyUnfinished, h1]; rfl
      have hp : s₂.allParked = s.allParked := by rw [Block.allParked, h1]; rfl
      rw [advance, h1, h2, hend]
      simp [hu, hp, hunfinished, hparked]
    · show s₂.release.warps = s.release.warps
      rw [Block.release, Block.release, h1]
    · show { s₂.stats with barriersCompleted := s₂.stats.barriersCompleted + 1 } = _
      simp only [LaunchStats.add, LaunchStats.mapIdx_zero, MemoryStats.add_zero, Nat.add_zero,
        BitVec.ofNat_eq_ofNat, BitVec.add_zero]
  | pass hend hparked hrunnable =>
    refine ⟨[], {}, LaunchStats.full_empty, nofun, fun words _ s₂ hs₂ => ?_⟩
    obtain ⟨h1, h2, h3, h4⟩ := hs₂
    refine ⟨s₂.newPass, .cons ?_ (.nil _), ⟨h1, rfl, rfl, h4⟩, rfl,
      (LaunchStats.add_empty _).symm⟩
    have hu : s₂.anyUnfinished = s.anyUnfinished := by rw [Block.anyUnfinished, h1]; rfl
    have hp : s₂.allParked = s.allParked := by rw [Block.allParked, h1]; rfl
    have hunfinished : s.anyUnfinished = true := by
      by_contra hu
      rw [advance, hend] at h
      simp [hu] at h
    rw [advance, h1, h2, hend, h3]
    simp [hu, hp, hunfinished, hparked, hrunnable]
  | step warp w' outcome m' hwarp hrun hstep =>
    obtain ⟨ws, d, rfl, hws, hlocal⟩ := Warp.step_local hstep
    refine ⟨ws, if outcome ≠ .finished then ({} : LaunchStats).countIssue w' else {}, ?_, ?_, ?_⟩
    · split_ifs
      · exact LaunchStats.full_countIssue LaunchStats.full_empty w'
      · exact LaunchStats.full_empty
    · intro v hv
      obtain ⟨haligned, hmem⟩ := hws v hv
      refine ⟨haligned, fun hglobal => ?_⟩
      rw [hglobal] at hmem
      simp [globalAccesses, hmem]
    · intro words hwords s₂ hs₂
      obtain ⟨h1, h2, h3, h4⟩ := hs₂
      have hstep₂ := hlocal s₂.memory ⟨h4.size, congrArg ByteMemory.size h4.shared⟩
        fun a ha _ lane => h4.load lane fun hglobal =>
          hwords a (by simp [globalAccesses, ha, hglobal])
      refine ⟨{ warps := s₂.warps.set s₂.next w'
                memory := (s₂.memory.addStats d).writeAll ws
                stats := if outcome ≠ .finished then s₂.stats.countIssue w' else s₂.stats
                next := s₂.next + 1
                anyRunnable := true }, .cons ?_ (.nil _), ⟨?_, ?_, rfl, ?_⟩, ?_, ?_⟩
      · rw [advance, h1, h2, hwarp]
        simp only [hrun, Bool.not_true, Bool.false_eq_true, if_false, Block.turn, hstep₂]
        rw [h1]
      · simp only [h1, h2]
      · simp only [h2]
      · exact (h4.addStats d).writeAll ws
      · exact BlockMemory.global_writeAll ws _
      · simp only []
        split_ifs
        · exact LaunchStats.countIssue_add _ w'
        · exact (LaunchStats.add_empty _).symm

theorem run_replays {s s' : Scheduler} {log : List Event} (hrun : Run F program s log s') :
    ∃ ws δ, δ.Full ∧ Stores log ws ∧ Replays F program s s' log ws δ := by
  induction hrun with
  | nil s =>
    refine ⟨[], {}, LaunchStats.full_empty, nofun, fun words _ s₂ hs₂ => ?_⟩
    exact ⟨s₂, .nil s₂, hs₂, rfl, (LaunchStats.add_empty _).symm⟩
  | @cons s s₁ s' event log hadv _ ih =>
    obtain ⟨ws, δ, hfull, hws, hfirst⟩ := advance_replays hadv
    obtain ⟨ws', δ', hfull', hws', hrest⟩ := ih
    refine ⟨ws ++ ws', δ.add δ', hfull.add δ', ?_, ?_⟩
    · intro v hv
      rw [globalAccesses_cons]
      rcases List.mem_append.1 hv with hv | hv
      · exact ⟨(hws v hv).1, fun hg => List.mem_append_left _ ((hws v hv).2 hg)⟩
      · exact ⟨(hws' v hv).1, fun hg => List.mem_append_right _ ((hws' v hv).2 hg)⟩
    · intro words hwords s₂ hs₂
      rw [globalAccesses_cons] at hwords
      obtain ⟨s₃, hrun₃, hs₃, hglobal₃, hstats₃⟩ :=
        hfirst words (fun a ha => hwords a (List.mem_append_left _ ha)) s₂ hs₂
      obtain ⟨s₄, hrun₄, hs₄, hglobal₄, hstats₄⟩ :=
        hrest words (fun a ha => hwords a (List.mem_append_right _ ha)) s₃ hs₃
      refine ⟨s₄, hrun₃.append hrun₄, hs₄, ?_, ?_⟩
      · rw [hglobal₄, hglobal₃, ByteMemory.setAll_append]
      · rw [hstats₄, hstats₃, LaunchStats.add_assoc hfull hfull']

end Replay

end Scheduler

namespace Launch

variable {F : FloatOps} {l : Launch}

/-- One block of a launch run to completion, with its global accesses. -/
def takeBlock (F : FloatOps) (l : Launch) (fuel : Nat) (ctaid : Dim2) (d : LaunchState) :
    Option (List Access × LaunchState) :=
  match (l.startBlock ctaid d).run F l.program fuel with
  | some (.ok (), b) =>
    some (WarpSim.globalAccesses ((l.startBlock ctaid d).runFor F l.program fuel).1,
      l.finishBlock b)
  | _ => none

section Block

theorem takeBlock_of_run {fuel : Nat} {ctaid : Dim2} {d : LaunchState} {log : List Event}
    {s : Scheduler} {b : Block} (hrun : Scheduler.Run F l.program (l.startBlock ctaid d) log s)
    (hret : s.advance F l.program = .returned (.ok ()) b) (hlen : log.length < fuel) :
    l.takeBlock F fuel ctaid d = some (WarpSim.globalAccesses log, l.finishBlock b) := by
  have hr := Scheduler.run_iff.2 ⟨log, s, hrun, hret, hlen⟩
  rw [takeBlock, hr, Scheduler.runFor_of_run hrun hret (Nat.le_of_lt hlen)]

theorem run_of_takeBlock {fuel : Nat} {ctaid : Dim2} {d d' : LaunchState} {accesses : List Access}
    (h : l.takeBlock F fuel ctaid d = some (accesses, d')) :
    ∃ log s b, Scheduler.Run F l.program (l.startBlock ctaid d) log s
      ∧ s.advance F l.program = .returned (.ok ()) b ∧ log.length < fuel
      ∧ accesses = WarpSim.globalAccesses log ∧ d' = l.finishBlock b := by
  unfold takeBlock at h
  rcases hr : (l.startBlock ctaid d).run F l.program fuel with _ | ⟨_ | _, b⟩ <;>
    simp only [hr] at h
  · cases h
  · cases h
  · obtain ⟨log, s, hrun, hret, hlen⟩ := Scheduler.run_iff.1 hr
    rw [Scheduler.runFor_of_run hrun hret (Nat.le_of_lt hlen)] at h
    cases h
    exact ⟨log, s, b, hrun, hret, hlen, rfl, rfl⟩

/-- What the block adds to the totals besides what its run does. -/
def blockCounts (l : Launch) (b : Block) : LaunchStats where
  divergentBranches := (b.warps.map Warp.divergent).sum
  reconvergenceEvents := (b.warps.map Warp.reconverged).sum
  blocksExecuted := 1
  lanesLaunched := l.block.count
  memory := b.memory.stats

theorem stats_finishBlock (b : Block) :
    (l.finishBlock b.finish).stats = b.stats.add (l.blockCounts b) := by
  unfold finishBlock Block.finish blockCounts
  rw [foldl_collect]
  simp only [LaunchStats.add, LaunchStats.mapIdx_zero, Nat.add_zero, BitVec.ofNat_eq_ofNat,
    BitVec.add_zero]

/-- The warps a block starts with. -/
def startCounts (l : Launch) : LaunchStats where
  warpsLaunched := (l.block.count + BitVec.ofNat 32 warpSize - 1) / BitVec.ofNat 32 warpSize

theorem stats_startBlock (ctaid : Dim2) (d : LaunchState) :
    (l.startBlock ctaid d).stats = d.stats.add l.startCounts := by
  unfold startBlock Block.start Block.newPass startCounts
  simp only [LaunchStats.add, LaunchStats.mapIdx_zero, MemoryStats.add_zero, Nat.add_zero,
    BitVec.ofNat_eq_ofNat, BitVec.add_zero]

/-- From any launch state whose global memory agrees on the words the block accesses, the block
does the same. -/
theorem takeBlock_replays {fuel : Nat} {ctaid : Dim2} {d d' : LaunchState} {accesses : List Access}
    (h : l.takeBlock F fuel ctaid d = some (accesses, d')) :
    ∃ ws δ, (∀ v ∈ ws, v.address.toNat % 4 = 0
        ∧ (v.space = .global → (⟨.global, v.address, true⟩ : Access) ∈ accesses))
      ∧ ∀ d₂ : LaunchState, d₂.global.size = d.global.size →
        (∀ j, (∃ a ∈ accesses, a.address.toNat / 4 = j / 4) →
          d₂.global.bytes[j]? = d.global.bytes[j]?) →
        l.takeBlock F fuel ctaid d₂
          = some (accesses, ⟨d₂.global.setAll ws, d₂.stats.add δ⟩) := by
  obtain ⟨log, s, b, hrun, hret, hlen, rfl, rfl⟩ := run_of_takeBlock h
  obtain ⟨ws, δ, hfull, hws, hreplay⟩ := Scheduler.run_replays hrun
  refine ⟨ws, (l.startCounts.add δ).add (l.blockCounts s.toBlock), hws, fun d₂ hsize hbytes => ?_⟩
  obtain ⟨s₂, hrun₂, hlike, hglobal, hstats⟩ := hreplay
    {k | ∃ a ∈ WarpSim.globalAccesses log, a.address.toNat / 4 = k} (fun a ha => ⟨a, ha, rfl⟩)
    (l.startBlock ctaid d₂) ⟨rfl, rfl, rfl, rfl, rfl, rfl, hsize, hbytes⟩
  have hret₂ : s₂.advance F l.program = .returned (.ok ()) s₂.finish := by
    obtain ⟨hend, hfin⟩ : s.warps[s.next]? = none ∧ s.anyUnfinished = false := by
      unfold Scheduler.advance at hret
      split at hret
      · split_ifs at hret
        split at hret <;> cases hret
      · refine ⟨by assumption, ?_⟩
        split_ifs at hret with h1
        · simpa using h1
        · cases hret
    have hfin₂ : s₂.anyUnfinished = false := by
      rw [Block.anyUnfinished, hlike.warps]
      exact hfin
    rw [Scheduler.advance, hlike.warps, hlike.next, hend]
    simp [hfin₂]
  rw [takeBlock_of_run hrun₂ hret₂ hlen]
  have hcounts : l.blockCounts s₂.toBlock = l.blockCounts s.toBlock := by
    unfold blockCounts
    rw [hlike.warps, hlike.memory.stats]
  have hsum : (l.finishBlock s₂.finish).stats
      = d₂.stats.add ((l.startCounts.add δ).add (l.blockCounts s.toBlock)) := by
    rw [stats_finishBlock, hstats, stats_startBlock, hcounts,
      LaunchStats.add_assoc (show l.startCounts.Full from rfl) hfull,
      LaunchStats.add_assoc (LaunchStats.Full.add (show l.startCounts.Full from rfl) δ)
        (show (l.blockCounts s.toBlock).Full from rfl)]
  have hmemory : (l.finishBlock s₂.finish).global = d₂.global.setAll ws := hglobal
  rw [← hsum, ← hmemory]

/-- Blocks that store to no word another one accesses change places. -/
theorem takeBlock_commutes (fuel : Nat) : Commutes (takeBlock F l fuel) Clash := by
  intro i j acc acc' d d₁ d₂ _ hi hj hclash
  obtain ⟨ws, δ, hws, hreplay⟩ := takeBlock_replays hi
  obtain ⟨ws', δ', hws', hreplay'⟩ := takeBlock_replays hj
  have hd₁ : d₁ = ⟨d.global.setAll ws, d.stats.add δ⟩ := by
    have := hreplay d rfl fun _ _ => rfl
    rw [hi] at this
    cases this
    rfl
  have hd₂ : d₂ = ⟨d₁.global.setAll ws', d₁.stats.add δ'⟩ := by
    have := hreplay' d₁ rfl fun _ _ => rfl
    rw [hj] at this
    cases this
    rfl
  subst hd₁ hd₂
  have hspace : ∀ {fuel : Nat} {c : Dim2} {e e' : LaunchState} {accesses : List Access},
      l.takeBlock F fuel c e = some (accesses, e') → ∀ a ∈ accesses, a.space = .global := by
    intro fuel c e e' accesses h a ha
    obtain ⟨log, -, -, -, -, -, rfl, -⟩ := run_of_takeBlock h
    obtain ⟨event, -, ha⟩ := List.mem_flatMap.1 ha
    split at ha
    · simpa using (List.mem_filter.1 ha).2
    · cases ha
  -- Neither block writes a word that the other one accesses.
  have hfree :
    ∀ v ∈ ws, v.space = .global → ∀ a ∈ acc', v.address.toNat / 4 ≠ a.address.toNat / 4 :=
    fun v hv hg a ha hsame => hclash ⟨_, (hws v hv).2 hg, a, ha,
      .inl ⟨rfl, (hspace hj a ha).symm, hsame⟩⟩
  have hfree' : ∀ v ∈ ws', v.space = .global → ∀ a ∈ acc,
      v.address.toNat / 4 ≠ a.address.toNat / 4 :=
    fun v hv hg a ha hsame => hclash ⟨a, ha, _, (hws' v hv).2 hg,
      .inr ⟨rfl, (hspace hi a ha).symm, hsame⟩⟩
  have hkeeps : ∀ {ws : List WordWrite} {accesses : List Access} (g : ByteMemory),
      (∀ v ∈ ws, v.address.toNat % 4 = 0) → (∀ v ∈ ws, v.space = .global → ∀ a ∈ accesses,
        v.address.toNat / 4 ≠ a.address.toNat / 4) →
      ∀ j, (∃ a ∈ accesses, a.address.toNat / 4 = j / 4) →
        (g.setAll ws).bytes[j]? = g.bytes[j]? := by
    rintro ws accesses g haligned hne j ⟨a, ha, hj⟩
    exact ByteMemory.getElem?_setAll fun v hv => ⟨haligned v hv, fun hg => hj ▸ hne v hv hg a ha⟩
  have hfirst := hreplay' d (ByteMemory.size_setAll ws d.global).symm fun k hk =>
    (hkeeps d.global (fun v hv => (hws v hv).1) hfree k hk).symm
  have hsecond := hreplay ⟨d.global.setAll ws', d.stats.add δ'⟩
    (ByteMemory.size_setAll ws' d.global)
    fun k hk => hkeeps d.global (fun v hv => (hws' v hv).1) hfree' k hk
  refine ⟨_, hfirst, ?_⟩
  rw [hsecond]
  simp only [LaunchStats.add_right_comm d.stats δ]
  rw [ByteMemory.setAll_comm (fun v hv => (hws v hv).1) fun v hv v' hv' =>
    ⟨(hws' v' hv').1, fun hg hg' => hfree' v' hv' hg' _ ((hws v hv).2 hg)⟩]

end Block

section Order

theorem scheduled_of_runBlocks {fuel : Nat} : ∀ {order : List Dim2} {d d' : LaunchState},
    l.runBlocks F fuel order d = some (.ok (), d') →
      Scheduled (takeBlock F l fuel) d (l.globalAccesses F fuel order d) d'
        ∧ (l.globalAccesses F fuel order d).map Prod.fst = order
  | [], d, d', h => by
    cases h
    exact ⟨.nil d, rfl⟩
  | ctaid :: order, d, d', h => by
    obtain ⟨b, hb, hrest⟩ := (runBlocks_cons l).1 h
    obtain ⟨ih1, ih2⟩ := scheduled_of_runBlocks hrest
    rw [Launch.globalAccesses, hb]
    refine ⟨.cons ?_ ih1, congrArg (ctaid :: ·) ih2⟩
    rw [takeBlock, hb]

theorem runBlocks_of_scheduled {fuel : Nat} {d d' : LaunchState} {t : List (Dim2 × List Access)}
    (h : Scheduled (takeBlock F l fuel) d t d') :
    l.runBlocks F fuel (t.map Prod.fst) d = some (.ok (), d') := by
  induction h with
  | nil => rfl
  | cons h _ ih =>
    unfold takeBlock at h
    split at h
    · cases h
      exact (runBlocks_cons l).2 ⟨_, by assumption, ih⟩
    · cases h

/-- Blocks apart can be executed in any order. -/
theorem runBlocks_perm {fuel : Nat} {order order' : List Dim2} {d d' : LaunchState}
    (h : l.runBlocks F fuel order d = some (.ok (), d'))
    (hapart : BlocksApart (l.globalAccesses F fuel order d)) (hperm : order.Perm order') :
    l.runBlocks F fuel order' d = some (.ok (), d') := by
  obtain ⟨hsched, htags⟩ := scheduled_of_runBlocks h
  have hpair : (l.globalAccesses F fuel order d).Pairwise (Apart Clash) := by
    refine List.pairwise_of_forall_mem_list fun x hx y hy hne => ?_
    rintro ⟨a, ha, b, hb, hclobber | hclobber⟩
    · exact hapart x hx y hy hne a ha b hb hclobber
    · exact hapart y hy x hx (Ne.symm hne) b hb a ha hclobber
  obtain ⟨t, rfl, -, hsched'⟩ := Scheduled.perm (takeBlock_commutes fuel) (fun _ _ => Clash.symm)
    hperm hsched htags hpair
  exact runBlocks_of_scheduled hsched'

end Order

end Launch

/-- If a launch succeeds and none of its blocks stores to a global word that another one loads or
stores, then executing the blocks in any permutation of launch order succeeds too, with the same
global memory and the same totals. -/
theorem Device.block_order_independence {F : FloatOps} {program : Program} {grid block : Dim2}
    {params : List Word} {global global' : ByteMemory} {fuel : Nat} {stats : LaunchStats}
    {decoded : List Instruction} (hdecode : decodeWords 0 program.words = .ok decoded)
    (h : launch F program grid block params global fuel = some (.ok stats, global'))
    (hapart : BlocksApart ((Launch.ofProgram program decoded grid block params).globalAccesses F
      fuel (blockOrder grid) { global := global })) {order : List Dim2}
    (hperm : (blockOrder grid).Perm order) :
    (Launch.ofProgram program decoded grid block params).runBlocks F fuel order
      { global := global } = some (.ok (), ⟨global', stats⟩) := by
  refine Launch.runBlocks_perm ?_ hapart hperm
  by_cases hempty : block.count = 0 ∨ grid.count = 0
  · rw [launch_empty hdecode hempty] at h
    cases h
  · obtain ⟨hblock, hgrid⟩ := not_or.1 hempty
    rw [launch_run hdecode hblock hgrid] at h
    rcases hr : (Launch.ofProgram program decoded grid block params).runBlocks F fuel
      (blockOrder grid) { global := global } with _ | ⟨_ | _, d⟩ <;> rw [hr] at h <;> cases h
    rfl

/-- Each block stores its index to its own word of global memory. -/
def indexProgram : List Instruction :=
  [{ opcode := .movSreg, src0 := 4 }, { opcode := .shl, dst := 1, immFlag := true, imm := 2 },
    { opcode := .stGlobal, src0 := 1, src1 := 0, immFlag := true }, { opcode := .exit }]

def indexKernel : Program := { words := indexProgram.map packWord }

/-- Two blocks, the second one first. -/
theorem indexKernel_reordered : ∃ d,
    (Launch.ofProgram indexKernel indexProgram ⟨2, 1⟩ ⟨3, 1⟩ []).runBlocks default 20
      [⟨1, 0⟩, ⟨0, 0⟩] { global := .zeroed 8 } = some (.ok (), d) := by
  have hok : (Device.launch default indexKernel ⟨2, 1⟩ ⟨3, 1⟩ [] (.zeroed 8) 20).any
      (fun r => r.1.isOk) = true := by decide +kernel
  rcases h : Device.launch default indexKernel ⟨2, 1⟩ ⟨3, 1⟩ [] (.zeroed 8) 20
    with _ | ⟨_ | s, global'⟩ <;> rw [h] at hok
  · cases hok
  · cases hok
  · exact ⟨_, Device.block_order_independence (by decide) h
      (by unfold BlocksApart; decide +kernel) (by decide +kernel)⟩

end WarpSim
