import WarpSim.Proofs.Plans

/-!
# Kernels without barriers

Where a program has no barrier, a launch is one interval: every thread runs alone from its first
instruction until it retires, loads words that no thread of the launch stores, and stores at most
one word, which no other thread stores.
-/

namespace WarpSim

/-- What the threads of a launch load and store, by block and thread: words that are only loaded,
and the one word that is stored, with its value. -/
structure Assignment where
  loads : Dim2 → Nat → Word → Prop
  stores : Dim2 → Nat → Option (Word × Word)

namespace Assignment

variable (k : Assignment)

def footprint (c : Dim2) (t : Nat) : Footprint where
  loads := fun space a => space = .global ∧ k.loads c t a
  stores := fun space a => space = .global ∧ ∃ v, k.stores c t = some (a, v)

/-- The words that the threads of a block store. -/
def out (threads : Nat) (c : Dim2) (a : Word) : Prop :=
  ∃ t < threads, ∃ v, k.stores c t = some (a, v)

def outline (value : Word → Word) (c : Dim2) (m : BlockMemory) : Outline where
  barriers := 0
  footprint := fun _ => k.footprint c
  value := fun _ _ => value
  entry := fun _ _ s => s = .fresh
  memory := fun _ m' => m' = m
  outcome := fun _ _ => false

/-- A thread has retired, with its word stored. -/
def Done (c : Dim2) (t : Nat) (y : LaneState × BlockMemory) : Prop :=
  y.1.pc = none ∧ ∀ a v, k.stores c t = some (a, v) → y.2.global.word a.toNat = v

/-- A launch all of whose threads keep to what is assigned to them. -/
structure Sound (F : FloatOps) (l : Launch) (g : ByteMemory) (order : List Dim2) : Prop where
  pos : l.block.count ≠ 0
  fits : l.block.count.toNat ≤ 2 ^ 32 - 32
  nodup : order.Nodup
  annotated : Warp.Annotated l.program
  free : ∀ i ∈ l.program, i.opcode ≠ .barSync
  aligned : ∀ c t a v, k.stores c t = some (a, v) → a.toNat % 4 = 0
  apart : ∀ c ∈ order, ∀ c' ∈ order, ∀ t < l.block.count.toNat, ∀ t' < l.block.count.toNat,
    ∀ a v v', k.stores c t = some (a, v) → k.stores c' t' = some (a, v') → c = c' ∧ t = t'
  loads : ∀ c ∈ order, ∀ t < l.block.count.toNat, ∀ a, k.loads c t a →
    ∀ t' < l.block.count.toNat, ∀ v, k.stores c t' ≠ some (a, v)
  run : ∀ c ∈ order, ∀ t < l.block.count.toNat, ∀ g',
    Launch.Inputs (k.out l.block.count.toNat) g g' →
      LeadsTo (LaneState.Alone F (threadContext (l.context c) t) l.program (t % 32)
        (k.footprint c t) fun _ => false) (k.Done c t) (.fresh, l.blockMemory g')

section Planned

variable {k} {F : FloatOps} {l : Launch} {g : ByteMemory} {order : List Dim2}

/-- The words that are stored have one value each. -/
theorem Sound.exists_value (hs : k.Sound F l g order) : ∃ value : Word → Word,
    ∀ c ∈ order, ∀ t < l.block.count.toNat, ∀ a v, k.stores c t = some (a, v) → value a = v := by
  have h : ∀ a, ∃ w, ∀ c ∈ order, ∀ t < l.block.count.toNat, ∀ v,
      k.stores c t = some (a, v) → w = v := by
    intro a
    by_cases hsome : ∃ c ∈ order, ∃ t < l.block.count.toNat, ∃ v, k.stores c t = some (a, v)
    · obtain ⟨c, hc, t, ht, v, hv⟩ := hsome
      refine ⟨v, fun c' hc' t' ht' v' hv' => ?_⟩
      obtain ⟨rfl, rfl⟩ := hs.apart c hc c' hc' t ht t' ht' a v v' hv hv'
      rw [hv, Option.some.injEq, Prod.mk.injEq] at hv'
      exact hv'.2
    · exact ⟨0, fun c hc t ht v hv => absurd ⟨c, hc, t, ht, v, hv⟩ hsome⟩
  choose value hvalue using h
  exact ⟨value, fun c hc t ht a v => hvalue a c hc t ht v⟩

theorem Sound.planned (hs : k.Sound F l g order) {value : Word → Word}
    (hvalue : ∀ c ∈ order, ∀ t < l.block.count.toNat, ∀ a v,
      k.stores c t = some (a, v) → value a = v) {c : Dim2} (hc : c ∈ order) {g' : ByteMemory}
    (hg : Launch.Inputs (k.out l.block.count.toNat) g g') :
    Launch.Planned F l 0 (k.out l.block.count.toNat c) value c g'
      (k.outline value c (l.blockMemory g')) where
  completes := rfl
  start := rfl
  entry := fun _ _ => rfl
  kept := fun m hm => by rw [show m = l.blockMemory g' from hm]; rfl
  stores := fun a => ⟨fun ⟨t, ht, v, hv⟩ => ⟨t, ht, rfl, v, hv⟩,
    fun ⟨t, ht, _, v, hv⟩ => ⟨t, ht, v, hv⟩⟩
  holds := fun _ _ => rfl
  sound :=
    { annotated := hs.annotated
      unguarded := fun i hi hop => absurd hop (hs.free i hi)
      aligned := fun _ t space a ⟨_, v, hv⟩ => hs.aligned c t a v hv
      apart := by
        rintro - - t ht u hu hne space a ⟨rfl, v, hv⟩ (⟨-, hl⟩ | ⟨-, v', hv'⟩)
        · exact hs.loads c hc u hu a hl t ht v hv
        · exact hne (hs.apart c hc c hc t ht u hu a v v' hv hv').2
      run := by
        rintro i hi t ht s m rfl rfl
        refine (hs.run c hc t ht g' hg).mono fun y hy => ⟨?_, ?_⟩
        · rintro space a ⟨rfl, v, hv⟩
          exact (hy.2 a v hv).trans (hvalue c hc t ht a v hv).symm
        · exact LaneState.ended_of_retired hy.1
      next := fun i hi => absurd hi (Nat.not_lt_zero i) }

end Planned

end Assignment

/-- A launch whose threads keep to what is assigned to them returns, with every assigned word
stored and every other byte of global memory as it was. -/
theorem Device.launch_assigned {F : FloatOps} {program : Program} {decoded : List Instruction}
    {grid block : Dim2} {params : List Word} {global : ByteMemory} {k : Assignment}
    (hdecode : decodeWords 0 program.words = .ok decoded) (hgrid : grid.count ≠ 0)
    (hs : k.Sound F (.ofProgram program decoded grid block params) global (blockOrder grid)) :
    ∃ fuel stats global', launch F program grid block params global fuel
        = some (.ok stats, global')
      ∧ global'.size = global.size
      ∧ (∀ c ∈ blockOrder grid, ∀ t < block.count.toNat, ∀ a v, k.stores c t = some (a, v) →
        global'.word a.toNat = v)
      ∧ ∀ j, (∀ c ∈ blockOrder grid, ∀ t < block.count.toNat, ∀ a v, k.stores c t = some (a, v) →
        ¬(a.toNat ≤ j ∧ j < a.toNat + 4)) → global'.bytes[j]? = global.bytes[j]? := by
  obtain ⟨value, hvalue⟩ := hs.exists_value
  have hall : Launch.Planned.All F (.ofProgram program decoded grid block params) 0
      (k.out block.count.toNat) value global (blockOrder grid) :=
    ⟨hs.pos, hs.fits, hs.nodup, fun c a ⟨t, _, v, hv⟩ => hs.aligned c t a v hv,
      fun c hc c' hc' hne a ⟨t, ht, v, hv⟩ ⟨t', ht', v', hv'⟩ =>
        hne (hs.apart c hc c' hc' t ht t' ht' a v v' hv hv').1,
      fun c hc g' hg => ⟨_, hs.planned hvalue hc hg⟩⟩
  obtain ⟨⟨fuel, stats, global', hlaunch, hsize, hwords, hbytes⟩, -⟩ :=
    launch_planned hdecode hgrid hall
  refine ⟨fuel, stats, global', hlaunch, hsize, fun c hc t ht a v hv => ?_, fun j hj => ?_⟩
  · rw [hwords a ⟨c, hc, t, ht, v, hv⟩, hvalue c hc t ht a v hv]
  · refine (hbytes j).resolve_right ?_
    rintro ⟨a, ⟨c, hc, t, ht, v, hv⟩, hrange⟩
    exact hj c hc t ht a v hv hrange

end WarpSim
