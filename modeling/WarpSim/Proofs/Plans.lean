import WarpSim.Proofs.Rounds

/-!
# Launches, block by block

A launch whose blocks all have a sound outline returns, and what its blocks stored in their last
interval is in global memory at the end, with every other byte as it was.
-/

namespace WarpSim

theorem ByteMemory.byte_word (m : ByteMemory) (k : Nat) {d : Nat} (hd : d < 4) :
    (m.word k).extractLsb' (8 * d) 8 = m.byte (k + d) := by
  refine BitVec.eq_of_getLsbD_eq fun i hi => ?_
  rw [ByteMemory.word, BitVec.getLsbD_extractLsb', BitVec.getLsbD_append, BitVec.getLsbD_append,
    BitVec.getLsbD_append, decide_eq_true hi, Bool.true_and]
  obtain rfl | rfl | rfl | rfl : d = 0 ∨ d = 1 ∨ d = 2 ∨ d = 3 := by omega
  · rw [if_pos (by omega), Nat.mul_zero, Nat.zero_add, Nat.add_zero]
  · rw [if_neg (by omega), if_pos (by omega)]
    congr 1
    omega
  · rw [if_neg (by omega), if_neg (by omega), if_pos (by omega)]
    congr 1
    omega
  · rw [if_neg (by omega), if_neg (by omega), if_neg (by omega)]
    congr 1
    omega

/-- A lane before its first instruction. -/
def LaneState.fresh : LaneState := ⟨some 0, fun _ => 0, fun _ => false⟩

namespace Outline

variable {F : FloatOps} {program : List Instruction} {base : LaneContext} {o : Outline}

/-- A block begins within its first interval. -/
theorem within_start {lanesInBlock : Word} (hfits : lanesInBlock.toNat ≤ 2 ^ 32 - 32)
    (hs : o.Sound F program base lanesInBlock.toNat) {m : BlockMemory} (hm : o.memory 0 m)
    (hentry : ∀ t < lanesInBlock.toNat, o.entry 0 t .fresh) (stats : LaunchStats) :
    ∃ togo, o.Within F program base lanesInBlock.toNat 0 m togo
      (Block.start m base lanesInBlock stats) := by
  have hrun : ∀ t, ∃ n, t < lanesInBlock.toNat → o.Running F program base 0 t n .fresh m := by
    intro t
    by_cases ht : t < lanesInBlock.toNat
    · obtain ⟨n, x, hleads, hends⟩ := hs.run 0 (Nat.zero_le _) t ht .fresh m hm (hentry t ht)
      exact ⟨n, fun _ => ⟨m, x, hleads, hends, .refl _ _⟩⟩
    · exact ⟨0, fun h => absurd h ht⟩
  choose togo htogo using hrun
  have hcount : ∀ {n : Nat}, n ≤ 2 ^ 32 - 32 → (n + 31) % 2 ^ 32 / 32 = (n + 31) / 32 := by
    intro n hn
    rw [Nat.mod_eq_of_lt (by omega)]
  refine ⟨fun i lane => togo (32 * i + lane), ?_, Nat.zero_le _, hm, .refl, fun i w hw => ?_⟩
  · rw [Block.start]
    simp only [List.length_map, List.length_range]
    rw [Block.toNat_warpCount, hcount hfits]
  · rw [Block.warps_start, hcount hfits] at hw
    split_ifs at hw with hi
    rw [Option.some.injEq] at hw
    have hlive : ∀ lane, hasLane (Block.makeWarp lanesInBlock base (BitVec.ofNat 32 i)).live lane
        = decide (lane < 32 ∧ 32 * i + lane < lanesInBlock.toNat) :=
      Block.hasLane_makeWarp (by omega)
    rw [hw] at hlive
    subst hw
    refine ⟨Warp.partition_new _ _ _, Warp.nesting_new _ _ _, Warp.traced_new _ _ _, ?_,
      fun lane hout => by rw [hlive lane, decide_eq_false hout], fun _ lane hlane hu => ?_,
      fun hparked => by cases hparked⟩
    · rw [threadContext, Nat.mul_div_cancel_left i (by decide)]
      rfl
    · have hstate : (Block.makeWarp lanesInBlock base (BitVec.ofNat 32 i)).laneState lane
          = .fresh := by
        have hl := hlive lane
        rw [decide_eq_true ⟨hlane, hu⟩] at hl
        rw [WarpState.laneState, WarpState.ownPc,
          show (Block.makeWarp lanesInBlock base (BitVec.ofNat 32 i)).active
            = (Block.makeWarp lanesInBlock base (BitVec.ofNat 32 i)).live from rfl, hl, if_pos rfl]
        rfl
      rw [hstate]
      exact htogo _ hu

/-- A block with a sound outline returns, and stores what its threads do. -/
theorem Sound.returns {lanesInBlock : Word} (hfits : lanesInBlock.toNat ≤ 2 ^ 32 - 32)
    (hpos : 0 < lanesInBlock.toNat) (hs : o.Sound F program base lanesInBlock.toNat)
    {m : BlockMemory} (hm : o.memory 0 m)
    (hentry : ∀ t < lanesInBlock.toNat, o.entry 0 t .fresh) (stats : LaunchStats) :
    ∃ log s b m₁, Scheduler.Run F program (Block.start m base lanesInBlock stats).newPass log s
      ∧ s.advance F program = .returned (.ok ()) b
      ∧ Scheduler.completions log = o.barriers ∧ o.memory o.barriers m₁
      ∧ BlockMemory.Wrote (o.StoredIn lanesInBlock.toNat o.barriers) m₁ b.memory
      ∧ ∀ t < lanesInBlock.toNat, o.Stored o.barriers t b.memory := by
  obtain ⟨togo, hwithin⟩ := within_start hfits hs hm hentry stats
  exact Within.returns hs hpos o.barriers (s := (Block.start m base lanesInBlock stats).newPass)
    (Nat.zero_add _) hwithin (Scheduler.phase_start m base lanesInBlock stats)

end Outline

namespace Launch

/-- What is claimed of one block of a launch that begins with the global memory `g`: the words it
stores there, what they hold in the end, and how many barriers it completes. -/
structure Planned (F : FloatOps) (l : Launch) (barriers : Nat) (out : Word → Prop)
    (value : Word → Word) (ctaid : Dim2) (g : ByteMemory) (o : Outline) : Prop where
  sound : o.Sound F l.program (l.context ctaid) l.block.count.toNat
  completes : o.barriers = barriers
  start : o.memory 0 (l.blockMemory g)
  entry : ∀ t < l.block.count.toNat, o.entry 0 t .fresh
  kept : ∀ m, o.memory o.barriers m → m.global = g
  stores : ∀ a, out a ↔ o.StoredIn l.block.count.toNat o.barriers .global a
  holds : ∀ a, out a → o.value o.barriers .global a = value a

/-- The given words of global memory hold what they should, and nothing else has changed. -/
structure Stores (out : Word → Prop) (value : Word → Word) (g g' : ByteMemory) : Prop where
  size : g'.size = g.size
  words : ∀ a, out a → g'.word a.toNat = value a
  bytes : ∀ j, g'.bytes[j]? = g.bytes[j]? ∨ ∃ a, out a ∧ a.toNat ≤ j ∧ j < a.toNat + 4

section Blocks

variable {F : FloatOps} {l : Launch} {barriers : Nat} {out out' : Word → Prop}
  {value : Word → Word} {ctaid : Dim2} {g g' g'' : ByteMemory} {o : Outline}

theorem stores_of_wrote {P : Space → Word → Prop} {m₀ m : BlockMemory}
    (h : BlockMemory.Wrote P m₀ m) (hP : ∀ a, P .global a → out a)
    (hwords : ∀ a, out a → m.global.word a.toNat = value a) :
    Stores out value m₀.global m.global := by
  refine ⟨h.room.bytes .global, hwords, fun j => ?_⟩
  rcases h.byte .global j with heq | ⟨a, ha, -, hrange⟩
  · exact .inl heq
  · exact .inr ⟨a, hP a ha, hrange⟩

theorem Planned.returns (h : Planned F l barriers out value ctaid g o) (hpos : l.block.count ≠ 0)
    (hfits : l.block.count.toNat ≤ 2 ^ 32 - 32) (stats : LaunchStats) :
    ∃ log s b, Scheduler.Run F l.program (l.startBlock ctaid ⟨g, stats⟩) log s
      ∧ s.advance F l.program = .returned (.ok ()) b ∧ Scheduler.completions log = barriers
      ∧ Stores out value g b.memory.global := by
  have hpos' : 0 < l.block.count.toNat :=
    Nat.pos_of_ne_zero fun hz => hpos (BitVec.eq_of_toNat_eq hz)
  obtain ⟨log, s, b, m₁, hrun, hret, hcount, hm₁, hwrote, hstored⟩ :=
    h.sound.returns hfits hpos' h.start h.entry stats
  refine ⟨log, s, b, hrun, hret, hcount.trans h.completes, ?_⟩
  rw [← h.kept m₁ hm₁]
  refine stores_of_wrote hwrote (fun a => (h.stores a).2) fun a ha => ?_
  obtain ⟨t, ht, hst⟩ := (h.stores a).1 ha
  rw [← h.holds a ha]
  exact hstored t ht .global a hst

/-- A word that is not among the given ones is as it was. -/
theorem Stores.word_other (h : Stores out value g g') (haligned : ∀ a, out a → a.toNat % 4 = 0)
    {k : Nat} (hk : k % 4 = 0) (hout : ∀ a, out a → a.toNat ≠ k) : g'.word k = g.word k := by
  have hbyte : ∀ i < 4, g'.byte (k + i) = g.byte (k + i) := by
    intro i hi
    rcases h.bytes (k + i) with heq | ⟨a, ha, hle, hlt⟩
    · rw [ByteMemory.byte, ByteMemory.byte, List.getD_eq_getElem?_getD, heq,
        ← List.getD_eq_getElem?_getD]
    · have := haligned a ha
      exact absurd (by omega : a.toNat = k) (hout a ha)
  rw [ByteMemory.word, ByteMemory.word, hbyte 3 (by decide), hbyte 2 (by decide),
    hbyte 1 (by decide), show g'.byte k = g.byte k from hbyte 0 (by decide)]

theorem Stores.append (h : Stores out value g g') (h' : Stores out' value g' g'')
    (haligned : ∀ a, out a ∨ out' a → a.toNat % 4 = 0) (hapart : ∀ a, out a → ¬out' a) :
    Stores (fun a => out a ∨ out' a) value g g'' := by
  refine ⟨h'.size.trans h.size, fun a ha => ?_, fun j => ?_⟩
  · rcases ha with ha | ha
    · rw [h'.word_other (fun a ha => haligned a (.inr ha)) (haligned a (.inl ha)) fun a' ha' heq =>
        hapart a ha (by rwa [← BitVec.eq_of_toNat_eq heq]), h.words a ha]
    · exact h'.words a ha
  · rcases h'.bytes j with heq' | ⟨a, ha, hrange⟩
    · rcases h.bytes j with heq | ⟨a, ha, hrange⟩
      · exact .inl (heq'.trans heq)
      · exact .inr ⟨a, .inl ha, hrange⟩
    · exact .inr ⟨a, .inr ha, hrange⟩

/-- The words that are stored and what they hold determine the memory. -/
theorem Stores.unique (h : Stores out value g g') (h' : Stores out value g g'') : g' = g'' := by
  have hbytes : g'.bytes = g''.bytes := by
    refine List.ext_getElem? fun j => ?_
    have hbyte : ∀ {x : ByteMemory}, Stores out value g x → ∀ a, out a → a.toNat ≤ j →
        j < a.toNat + 4 → x.byte j = (value a).extractLsb' (8 * (j - a.toNat)) 8 := by
      intro x hx a ha hle hlt
      rw [← hx.words a ha, ByteMemory.byte_word x _ (by omega), Nat.add_sub_cancel' hle]
    have hsize : g'.bytes.length = g''.bytes.length := h.size.trans h'.size.symm
    have hsame : ∀ a, out a → a.toNat ≤ j → j < a.toNat + 4 → g'.bytes[j]? = g''.bytes[j]? := by
      intro a ha hle hlt
      rcases Nat.lt_or_ge j g'.bytes.length with hj | hj
      · have heq := (hbyte h a ha hle hlt).trans (hbyte h' a ha hle hlt).symm
        rw [ByteMemory.byte, ByteMemory.byte, List.getD_eq_getElem _ _ hj,
          List.getD_eq_getElem _ _ (hsize ▸ hj)] at heq
        rw [List.getElem?_eq_getElem hj, List.getElem?_eq_getElem (hsize ▸ hj), heq]
      · rw [List.getElem?_eq_none hj, List.getElem?_eq_none (hsize ▸ hj)]
    rcases h.bytes j with heq | ⟨a, ha, hle, hlt⟩
    · rcases h'.bytes j with heq' | ⟨a, ha, hle, hlt⟩
      · exact heq.trans heq'.symm
      · exact hsame a ha hle hlt
    · exact hsame a ha hle hlt
  calc g' = ⟨g'.bytes⟩ := rfl
    _ = g'' := by rw [hbytes]

end Blocks

section Launches

variable {F : FloatOps} {l : Launch} {barriers : Nat} {out : Dim2 → Word → Prop}
  {value : Word → Word} {g g' : ByteMemory}

/-- A global memory as large as `g` that holds the same words, but for those that blocks store. -/
structure Inputs (out : Dim2 → Word → Prop) (g g' : ByteMemory) : Prop where
  size : g'.size = g.size
  words : ∀ k, k % 4 = 0 → (∀ c a, out c a → a.toNat ≠ k) → g'.word k = g.word k

/-- The words that the listed blocks store. -/
def OutOf (out : Dim2 → Word → Prop) (done : List Dim2) (a : Word) : Prop := ∃ c ∈ done, out c a

variable (F l barriers out value g) in
/-- Every block of a launch that began with the global memory `g` returns, once the blocks before it
have stored their words, and stores its own. -/
structure Blockwise (order : List Dim2) : Prop where
  pos : l.block.count ≠ 0
  nodup : order.Nodup
  aligned : ∀ c a, out c a → a.toNat % 4 = 0
  apart : ∀ c ∈ order, ∀ c' ∈ order, c ≠ c' → ∀ a, out c a → ¬out c' a
  returns : ∀ done c rest, order = done ++ c :: rest → ∀ d : LaunchState,
    Stores (OutOf out done) value g d.global →
      ∃ log s b, Scheduler.Run F l.program (l.startBlock c d) log s
        ∧ s.advance F l.program = .returned (.ok ()) b ∧ Scheduler.completions log = barriers
        ∧ Stores (out c) value d.global b.memory.global

variable (F l barriers out value g) in
/-- A plan for every block that reads no word which a block stores. -/
structure Planned.All (order : List Dim2) : Prop where
  pos : l.block.count ≠ 0
  fits : l.block.count.toNat ≤ 2 ^ 32 - 32
  nodup : order.Nodup
  aligned : ∀ c a, out c a → a.toNat % 4 = 0
  apart : ∀ c ∈ order, ∀ c' ∈ order, c ≠ c' → ∀ a, out c a → ¬out c' a
  planned : ∀ c ∈ order, ∀ g', Inputs out g g' →
    ∃ o, Planned F l barriers (out c) value c g' o

variable {order done rest : List Dim2}

/-- The words of one block more. -/
theorem Stores.snoc {ctaid : Dim2} {g'' : ByteMemory} (h : Stores (OutOf out done) value g g')
    (h' : Stores (out ctaid) value g' g'') (haligned : ∀ c a, out c a → a.toNat % 4 = 0)
    (hapart : ∀ c ∈ done, ∀ a, out c a → ¬out ctaid a) :
    Stores (OutOf out (done ++ [ctaid])) value g g'' := by
  have happend := h.append h'
    (fun a ha => ha.elim (fun ⟨c, _, ha⟩ => haligned c a ha) (haligned ctaid a))
    fun a ⟨c, hc, ha⟩ => hapart c hc a ha
  have hiff : ∀ a, (OutOf out done a ∨ out ctaid a) ↔ OutOf out (done ++ [ctaid]) a := by
    intro a
    simp only [OutOf, List.mem_append, List.mem_singleton, or_and_right, exists_or, exists_eq_left]
  simpa only [hiff] using happend

theorem Stores.inputs (hall : Planned.All F l barriers out value g order)
    (h : Stores (OutOf out done) value g g') : Inputs out g g' :=
  ⟨h.size, fun _ hk hout => h.word_other (fun a ⟨c, _, ha⟩ => hall.aligned c a ha) hk
    fun a ⟨c, _, ha⟩ => hout c a ha⟩

theorem Planned.All.blockwise (hall : Planned.All F l barriers out value g order) :
    Blockwise F l barriers out value g order := by
  refine ⟨hall.pos, hall.nodup, hall.aligned, hall.apart, fun done c rest heq d h => ?_⟩
  obtain ⟨o, hplanned⟩ := hall.planned c (by rw [heq]; simp) d.global (h.inputs hall)
  exact hplanned.returns hall.pos hall.fits d.stats

/-- The next block of a launch returns, and adds its words. -/
theorem Blockwise.next (hall : Blockwise F l barriers out value g order) {ctaid : Dim2}
    (heq : order = done ++ ctaid :: rest) {d : LaunchState}
    (h : Stores (OutOf out done) value g d.global) :
    ∃ log s b, Scheduler.Run F l.program (l.startBlock ctaid d) log s
      ∧ s.advance F l.program = .returned (.ok ()) b ∧ Scheduler.completions log = barriers
      ∧ Stores (OutOf out (done ++ [ctaid])) value g b.memory.global := by
  have hmem : ctaid ∈ order := by rw [heq]; simp
  have hdone : ∀ c ∈ done, c ∈ order ∧ c ≠ ctaid := by
    intro c hc
    have hnodup := hall.nodup
    rw [heq, List.nodup_append] at hnodup
    exact ⟨by rw [heq]; exact List.mem_append_left _ hc,
      fun he => hnodup.2.2 c hc ctaid List.mem_cons_self he⟩
  obtain ⟨log, s, b, hrun, hret, hcount, hstores⟩ := hall.returns done ctaid rest heq d h
  refine ⟨log, s, b, hrun, hret, hcount, ?_⟩
  exact h.snoc hstores hall.aligned fun c hc =>
    hall.apart c (hdone c hc).1 ctaid hmem (hdone c hc).2

/-- The blocks that a launch completes have stored what was planned. -/
theorem Blockwise.completes (hall : Blockwise F l barriers out value g order)
    {listed : List Dim2} {d d' : LaunchState} (hc : Completes F l d listed d') :
    ∀ {done : List Dim2}, order = done ++ listed ++ rest →
      Stores (OutOf out done) value g d.global →
        Stores (OutOf out (done ++ listed)) value g d'.global := by
  induction hc with
  | nil d =>
    intro done _ h
    rwa [List.append_nil]
  | @cons ctaid listed d d' log s b hrun hret _ ih =>
    intro done heq h
    rw [List.append_assoc, List.cons_append] at heq
    obtain ⟨log', s', b', hrun', hret', -, hstores⟩ := hall.next heq h
    have hsame := Scheduler.run_mono (Scheduler.run_iff.2 ⟨log, s, hrun, hret, Nat.lt_succ_self _⟩)
      (Nat.le_max_left _ (log'.length + 1))
    have hsame' := Scheduler.run_mono
      (Scheduler.run_iff.2 ⟨log', s', hrun', hret', Nat.lt_succ_self _⟩)
      (Nat.le_max_right (log.length + 1) _)
    rw [hsame, Option.some.injEq, Prod.mk.injEq] at hsame'
    rw [← hsame'.2] at hstores
    have := ih (by rw [heq]; simp) hstores
    rwa [List.append_assoc, List.singleton_append] at this

/-- The blocks of a launch whose blocks return can all be completed. -/
theorem Blockwise.exists_completes (hall : Blockwise F l barriers out value g order) :
    ∀ {listed done : List Dim2} {d : LaunchState}, order = done ++ listed →
      Stores (OutOf out done) value g d.global → ∃ d', Completes F l d listed d'
  | [], _, d, _, _ => ⟨d, .nil d⟩
  | ctaid :: listed, done, d, heq, h => by
    obtain ⟨log, s, b, hrun, hret, -, hstores⟩ := hall.next heq h
    have heq' : order = (done ++ [ctaid]) ++ listed := by rw [heq, List.append_cons]
    obtain ⟨d', hrest⟩ := hall.exists_completes heq' (d := l.finishBlock b) hstores
    exact ⟨d', .cons hrun hret hrest⟩

theorem stores_nil : Stores (OutOf out []) value g g :=
  ⟨rfl, fun _ ⟨_, hc, _⟩ => absurd hc List.not_mem_nil, fun _ => .inl rfl⟩

end Launches

end Launch

namespace Device

variable {F : FloatOps} {program : Program} {decoded : List Instruction} {grid block : Dim2}
  {params : List Word} {global : ByteMemory} {barriers : Nat} {out : Dim2 → Word → Prop}
  {value : Word → Word}

theorem nodup_blockOrder (grid : Dim2) : (blockOrder grid).Nodup :=
  (blockOrder_pairwise grid).imp fun h he => by
    rw [he] at h
    exact Nat.lt_irrefl _ h

/-- A launch whose blocks return does so too, with what they stored. -/
theorem launch_blockwise (hdecode : decodeWords 0 program.words = .ok decoded)
    (hgrid : grid.count ≠ 0) (hall : Launch.Blockwise F
      (.ofProgram program decoded grid block params) barriers out value global (blockOrder grid)) :
    (∃ fuel stats global', launch F program grid block params global fuel
        = some (.ok stats, global')
      ∧ Launch.Stores (Launch.OutOf out (blockOrder grid)) value global global')
    ∧ ∀ ctaid s, Begins F program grid block params global ctaid s →
      ∃ log s' b, Scheduler.Run F decoded s log s' ∧ s'.advance F decoded = .returned (.ok ()) b
        ∧ Scheduler.completions log = barriers := by
  constructor
  · obtain ⟨d, hd⟩ := hall.exists_completes (List.nil_append (blockOrder grid)).symm
      (d := { global := global }) Launch.stores_nil
    have hstores := hall.completes hd (List.append_nil (blockOrder grid)).symm Launch.stores_nil
    obtain ⟨fuel, hfuel⟩ := (Launch.completes_iff _).1 hd
    refine ⟨fuel, d.stats, d.global, ?_, hstores⟩
    have hblock : block.count ≠ 0 := hall.pos
    rw [launch_run hdecode hblock hgrid, hfuel]
  · rintro ctaid s ⟨decoded', hdecode', -, -, before, after, d, heq, hc, rfl⟩
    rw [hdecode, Except.ok.injEq] at hdecode'
    subst hdecode'
    have hstores := hall.completes hc heq Launch.stores_nil
    obtain ⟨log, s', b, hrun, hret, hcount, -⟩ := hall.next heq hstores
    exact ⟨log, s', b, hrun, hret, hcount⟩

theorem launch_planned (hdecode : decodeWords 0 program.words = .ok decoded)
    (hgrid : grid.count ≠ 0) (hall : Launch.Planned.All F
      (.ofProgram program decoded grid block params) barriers out value global (blockOrder grid)) :
    (∃ fuel stats global', launch F program grid block params global fuel
        = some (.ok stats, global')
      ∧ Launch.Stores (Launch.OutOf out (blockOrder grid)) value global global')
    ∧ ∀ ctaid s, Begins F program grid block params global ctaid s →
      ∃ log s' b, Scheduler.Run F decoded s log s' ∧ s'.advance F decoded = .returned (.ok ()) b
        ∧ Scheduler.completions log = barriers :=
  launch_blockwise hdecode hgrid hall.blockwise

end Device

end WarpSim
