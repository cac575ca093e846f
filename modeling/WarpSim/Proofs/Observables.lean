import WarpSim.MemoryAnalysis
import WarpSim.Proofs.Analysis
import Mathlib

/-!
# What the analyzer's walks count

The segments of an access and the degree of its bank conflicts, as cardinalities of sets of
addresses (`memory_observables`). Both walks keep lists without duplicates, which hold exactly what
the lanes visited so far have contributed.
-/

namespace WarpSim

section Arrays

/-- An array whose used prefix is a list. -/
structure Slots.Holds (s : Slots) (l : List Word) : Prop where
  size : s.data.length = warpSize
  count : s.count = l.length
  used : s.used = l

theorem Slots.Holds.record {s : Slots} {l : List Word} (h : s.Holds l) (hlt : l.length < warpSize)
    (w : Word) : (s.record w).Holds (l ++ [w]) where
  size := by rw [Slots.record, List.length_set, h.size]
  count := by rw [Slots.record, h.count, List.length_append, List.length_singleton]
  used := by
    have hin : s.count < s.data.length := by rw [h.count, h.size]; exact hlt
    have hused := h.used
    unfold Slots.used at hused ⊢
    unfold Slots.record
    rw [List.take_add_one, List.take_set_of_le (Nat.le_refl _), hused,
      List.getElem?_set_self hin, Option.toList_some]

theorem Slots.holds_empty : ({} : Slots).Holds [] :=
  ⟨List.length_replicate, rfl, rfl⟩

/-- The array of segments holds the list of segments, as long as it has a slot for each lane. -/
theorem segmentSteps_holds (addresses : Nat → Word) (exec : LaneMask) : ∀ (l : List Nat)
    {s : Slots} {seen : List Word}, s.Holds seen → seen.length + l.length ≤ warpSize →
      (l.foldl (segmentStep addresses exec) s).Holds (l.foldl (visitSegment addresses exec) seen)
  | [], s, seen, h, _ => h
  | lane :: l, s, seen, h, hle => by
    rw [List.length_cons] at hle
    have hlen := (length_visitSegment addresses exec seen lane).2.1
    have hbit : (if hasLane exec lane = true then 1 else 0) ≤ 1 := by split_ifs <;> omega
    refine segmentSteps_holds addresses exec l ?_ (by omega)
    unfold segmentStep visitSegment
    rw [h.used]
    cases hasLane exec lane
    · exact h
    · simp only [Bool.not_true, Bool.false_eq_true, if_false, if_true]
      split_ifs
      · exact h
      · exact h.record (by omega) _

theorem distinctSegmentsArray_eq (addresses : Nat → Word) (exec : LaneMask) :
    distinctSegmentsArray addresses exec = distinctSegments addresses exec :=
  (segmentSteps_holds addresses exec lanes Slots.holds_empty (by decide)).count

/-- The arrays of the banks hold the lists of the scan. -/
structure BankSlots.Holds (s : BankSlots) (t : BankScan) : Prop where
  size : s.seen.length = bankCount.toNat
  bucket : ∀ b : Word, b.toNat < bankCount.toNat → (s.seen.getD b.toNat {}).Holds (t.seen b)
  degree : s.degree = t.degree

theorem toNat_bank_lt (address : Word) :
    (address / bankWidthBytes % bankCount).toNat < bankCount.toNat := by
  rw [BitVec.toNat_umod]
  exact Nat.mod_lt _ (by decide)

theorem BankSlots.Holds.step {s : BankSlots} {t : BankScan} (h : s.Holds t)
    (addresses : Nat → Word) (exec : LaneMask) (lane : Nat)
    (hroom : ∀ b, (t.seen b).length < warpSize) :
    (bankStep addresses exec s lane).Holds (visitBank addresses exec t lane) := by
  unfold bankStep visitBank
  cases hasLane exec lane
  · exact h
  · simp only [Bool.not_true, Bool.false_eq_true, if_false, if_true]
    have hbank := toNat_bank_lt (addresses lane)
    have hbucket := h.bucket _ hbank
    unfold BankScan.visit
    simp only []
    rw [hbucket.used, hbucket.count]
    split_ifs
    · exact h
    · refine ⟨?_, fun b hb => ?_, ?_⟩
      · rw [List.length_set, h.size]
      · by_cases hbe : b = addresses lane / bankWidthBytes % bankCount
        · subst hbe
          simp only []
          rw [List.getD_eq_getElem?_getD, List.getElem?_set_self (by rw [h.size]; exact hb),
            Option.getD_some, if_true]
          exact hbucket.record (hroom _) _
        · have hne : (addresses lane / bankWidthBytes % bankCount).toNat ≠ b.toNat :=
            fun he => hbe (BitVec.eq_of_toNat_eq he.symm)
          simp only []
          rw [List.getD_eq_getElem?_getD, List.getElem?_set_ne hne, ← List.getD_eq_getElem?_getD,
            if_neg hbe]
          exact h.bucket b hb
      · rw [h.degree]

theorem length_visitBank (addresses : Nat → Word) (exec : LaneMask) (t : BankScan) (lane : Nat)
    (b : Word) : ((visitBank addresses exec t lane).seen b).length ≤ (t.seen b).length + 1 := by
  unfold visitBank BankScan.visit
  simp only []
  split_ifs
  · exact Nat.le_succ _
  · show (if b = _ then _ else _ : List Word).length ≤ _
    split_ifs with hb
    · rw [hb, List.length_append, List.length_singleton]
    · exact Nat.le_succ _
  · exact Nat.le_succ _

theorem bankSteps_holds (addresses : Nat → Word) (exec : LaneMask) : ∀ (l : List Nat)
    {s : BankSlots} {t : BankScan}, s.Holds t →
      (∀ b, (t.seen b).length + l.length ≤ warpSize) →
        (l.foldl (bankStep addresses exec) s).Holds (l.foldl (visitBank addresses exec) t)
  | [], s, t, h, _ => h
  | lane :: l, s, t, h, hle => by
    simp only [List.length_cons] at hle
    refine bankSteps_holds addresses exec l (h.step addresses exec lane fun b => ?_) fun b => ?_
    · have := hle b
      omega
    · have := hle b
      have := length_visitBank addresses exec t lane b
      omega

theorem bankSlots_empty : ({} : BankSlots).Holds {} where
  size := List.length_replicate
  bucket := fun b hb => by
    rw [List.getD_eq_getElem?_getD, List.getElem?_replicate_of_lt hb]
    exact Slots.holds_empty
  degree := rfl

theorem bankConflictDegreeArray_eq (addresses : Nat → Word) (exec : LaneMask) :
    bankConflictDegreeArray addresses exec = bankConflictDegree addresses exec :=
  (bankSteps_holds addresses exec lanes bankSlots_empty fun _ => Nat.le_refl 32).degree

end Arrays

section Sets

variable (addresses : Nat → Word) (exec : LaneMask)

def executing : Finset Nat := (Finset.range warpSize).filter fun lane => hasLane exec lane = true

def addressSet : Finset Nat := (executing exec).image fun lane => (addresses lane).toNat

def segmentSet : Finset Nat := (executing exec).image fun lane => (addresses lane).toNat / 128

/-- The distinct addresses of the executing lanes in one bank. -/
def bankSet (bank : Nat) : Finset Nat :=
    (addressSet addresses exec).filter fun a => a / 4 % 32 = bank

theorem mem_executing {lane : Nat} : lane ∈ executing exec ↔ hasLane exec lane = true := by
  rw [executing, Finset.mem_filter, Finset.mem_range]
  exact ⟨fun h => h.2, fun h => ⟨hasLane_lt h, h⟩⟩

end Sets

section Segments

variable (addresses : Nat → Word) (exec : LaneMask)

/-- A walk adds to a list without duplicates what its lanes contribute. -/
theorem visitSegments_spec : ∀ (l : List Nat) {seen : List Word}, seen.Nodup →
    (l.foldl (visitSegment addresses exec) seen).Nodup
      ∧ ∀ s, s ∈ l.foldl (visitSegment addresses exec) seen ↔ s ∈ seen
        ∨ ∃ lane ∈ l, hasLane exec lane = true ∧ addresses lane / segmentBytes = s
  | [], seen, h => by simpa using h
  | lane :: l, seen, h => by
    have hvisit : (visitSegment addresses exec seen lane).Nodup
        ∧ ∀ s, s ∈ visitSegment addresses exec seen lane ↔ s ∈ seen
          ∨ (hasLane exec lane = true ∧ addresses lane / segmentBytes = s) := by
      unfold visitSegment
      simp only []
      split_ifs with h1 h2
      · refine ⟨h, fun s => ⟨.inl, fun hs => hs.elim id fun hs => ?_⟩⟩
        rw [← hs.2]
        exact h2
      · refine ⟨h.append (List.nodup_singleton _) (by simpa using h2), fun s => ?_⟩
        simp [h1, eq_comm]
      · exact ⟨h, fun s => by simp [h1]⟩
    obtain ⟨hnodup, hmem⟩ := visitSegments_spec l hvisit.1
    refine ⟨hnodup, fun s => ?_⟩
    rw [List.foldl_cons, hmem, hvisit.2, List.exists_mem_cons_iff, or_assoc]

theorem card_map_toNat {l : List Word} (h : l.Nodup) :
    (l.map BitVec.toNat).toFinset.card = l.length := by
  rw [List.toFinset_card_of_nodup (h.map fun a b => BitVec.eq_of_toNat_eq), List.length_map]

theorem distinctSegments_eq :
    distinctSegments addresses exec = (segmentSet addresses exec).card := by
  obtain ⟨hnodup, hmem⟩ := visitSegments_spec addresses exec lanes List.nodup_nil
  rw [distinctSegments, segmentsSeen_eq, ← card_map_toNat hnodup]
  congr 1
  ext s
  rw [List.mem_toFinset, List.mem_map, segmentSet, Finset.mem_image]
  constructor
  · rintro ⟨w, hw, rfl⟩
    rcases (hmem w).1 hw with hw | ⟨lane, -, hlane, rfl⟩
    · cases hw
    · exact ⟨lane, (mem_executing exec).2 hlane, by rw [BitVec.toNat_udiv]; rfl⟩
  · rintro ⟨lane, hlane, rfl⟩
    have hlane := (mem_executing exec).1 hlane
    exact ⟨_, (hmem _).2 (.inr ⟨lane, hasLane_mem_lanes hlane, hlane, rfl⟩),
      by rw [BitVec.toNat_udiv]; rfl⟩

end Segments

section Banks

variable (addresses : Nat → Word) (exec : LaneMask)

def bankOf (address : Word) : Word := address / bankWidthBytes % bankCount

/-- The state of a walk over the banks, after the addresses with a property. -/
structure BankScan.Holds (s : BankScan) (P : Word → Prop) : Prop where
  nodup : ∀ b, (s.seen b).Nodup
  mem : ∀ b a, a ∈ s.seen b ↔ bankOf a = b ∧ P a
  bound : ∀ b, (s.seen b).length ≤ s.degree
  attained : s.degree = 0 ∨ ∃ b, s.degree = (s.seen b).length

theorem BankScan.Holds.visit {s : BankScan} {P : Word → Prop} (h : s.Holds P) (address : Word) :
    (s.visit address).Holds fun a => P a ∨ a = address := by
  unfold BankScan.visit
  simp only []
  split_ifs with hseen
  · refine ⟨h.nodup, fun b a => ?_, h.bound, h.attained⟩
    rw [h.mem]
    refine and_congr_right fun _ => ⟨.inl, fun ha => ha.elim id fun ha => ?_⟩
    rw [ha]
    exact ((h.mem _ _).1 hseen).2
  · refine ⟨fun b => ?_, fun b a => ?_, fun b => ?_, ?_⟩
    · show (if b = bankOf address then _ else _ : List Word).Nodup
      split_ifs with hb
      · exact (h.nodup _).append (List.nodup_singleton _) (by simpa using hseen)
      · exact h.nodup b
    · show a ∈ (if b = bankOf address then _ else _ : List Word) ↔ _
      split_ifs with hb
      · subst hb
        rw [List.mem_append, List.mem_singleton, h.mem]
        constructor
        · rintro (⟨h1, h2⟩ | rfl)
          · exact ⟨h1, .inl h2⟩
          · exact ⟨rfl, .inr rfl⟩
        · rintro ⟨h1, h2 | h2⟩
          · exact .inl ⟨h1, h2⟩
          · exact .inr h2
      · rw [h.mem]
        refine and_congr_right fun hab => ⟨.inl, fun ha => ha.elim id fun ha => ?_⟩
        rw [ha] at hab
        exact absurd hab.symm hb
    · show (if b = bankOf address then _ else _ : List Word).length ≤ _
      have := h.bound b
      split_ifs with hb
      · simp
      · exact Nat.le_trans this (Nat.le_max_left _ _)
    · rcases Nat.le_total s.degree ((s.seen (bankOf address)).length + 1) with hle | hle
      · refine .inr ⟨bankOf address, ?_⟩
        show max _ _ = (if bankOf address = bankOf address then _ else _ : List Word).length
        rw [if_pos rfl, List.length_append, List.length_singleton]
        exact Nat.max_eq_right hle
      · have hmax : max s.degree ((s.seen (bankOf address)).length + 1) = s.degree :=
          Nat.max_eq_left hle
        rcases h.attained with h0 | ⟨b, hb⟩
        · omega
        · refine .inr ⟨b, ?_⟩
          show max s.degree ((s.seen (bankOf address)).length + 1)
            = (if b = bankOf address then _ else _ : List Word).length
          have hne : b ≠ bankOf address := by
            rintro rfl
            omega
          rw [if_neg hne, hmax, hb]

theorem visitBanks_spec : ∀ (l : List Nat) {s : BankScan} {P : Word → Prop}, s.Holds P →
    (l.foldl (visitBank addresses exec) s).Holds fun a => P a
      ∨ ∃ lane ∈ l, hasLane exec lane = true ∧ addresses lane = a
  | [], s, P, h => by simpa using h
  | lane :: l, s, P, h => by
    have hvisit : (visitBank addresses exec s lane).Holds fun a => P a
        ∨ (hasLane exec lane = true ∧ addresses lane = a) := by
      unfold visitBank
      split_ifs with hlane
      · simpa [hlane, eq_comm] using h.visit (addresses lane)
      · simpa [hlane] using h
    have := visitBanks_spec l hvisit
    simpa [or_assoc] using this

theorem holds_empty : ({} : BankScan).Holds fun _ => False :=
  ⟨fun _ => List.nodup_nil, fun _ _ => by simp, fun _ => Nat.le_refl _, .inl rfl⟩

theorem toNat_bankOf (address : Word) : (bankOf address).toNat = address.toNat / 4 % 32 := by
  rw [bankOf, BitVec.toNat_umod, BitVec.toNat_udiv]
  rfl

theorem bankConflictDegree_eq_sup : bankConflictDegree addresses exec
    = (Finset.range 32).sup fun bank => (bankSet addresses exec bank).card := by
  have h := visitBanks_spec addresses exec lanes holds_empty
  have hcard : ∀ b : Word, ((lanes.foldl (visitBank addresses exec) {}).seen b).length
      = (bankSet addresses exec b.toNat).card := by
    intro b
    rw [← card_map_toNat (h.nodup b)]
    congr 1
    ext a
    rw [List.mem_toFinset, List.mem_map, bankSet, Finset.mem_filter, addressSet, Finset.mem_image]
    constructor
    · rintro ⟨w, hw, rfl⟩
      obtain ⟨hbank, hw⟩ := (h.mem b w).1 hw
      obtain ⟨lane, -, hlane, rfl⟩ := hw.resolve_left not_false
      rw [← toNat_bankOf, hbank]
      exact ⟨⟨lane, (mem_executing exec).2 hlane, rfl⟩, rfl⟩
    · rintro ⟨⟨lane, hlane, rfl⟩, hbank⟩
      have hlane := (mem_executing exec).1 hlane
      refine ⟨_, (h.mem b _).2 ⟨?_, .inr ⟨lane, hasLane_mem_lanes hlane, hlane, rfl⟩⟩, rfl⟩
      rw [← toNat_bankOf] at hbank
      exact BitVec.eq_of_toNat_eq hbank
  rw [bankConflictDegree_eq]
  refine le_antisymm ?_ (Finset.sup_le fun bank hbank => ?_)
  · rcases h.attained with h0 | ⟨b, hb⟩
    · rw [h0]
      exact Nat.zero_le _
    · rw [hb, hcard]
      by_cases hlt : b.toNat < 32
      · exact Finset.le_sup (f := fun bank => (bankSet addresses exec bank).card)
          (Finset.mem_range.2 hlt)
      · have hempty : bankSet addresses exec b.toNat = ∅ :=
          Finset.filter_eq_empty_iff.2 fun a _ => by omega
        rw [hempty]
        exact Nat.zero_le _
  · have hlt := Finset.mem_range.1 hbank
    have := hcard (BitVec.ofNat 32 bank)
    rw [BitVec.toNat_ofNat, Nat.mod_eq_of_lt (by omega)] at this
    rw [← this]
    exact h.bound _

end Banks

section Main

variable {addresses addresses' : Nat → Word} {exec exec' : LaneMask}

/-- Only the addresses of the executing lanes matter, not which lanes have them. -/
theorem addressSet_bijOn {f : Nat → Nat}
    (hf : Set.BijOn f {lane | hasLane exec' lane = true} {lane | hasLane exec lane = true})
    (h : ∀ lane, hasLane exec' lane = true → addresses' lane = addresses (f lane)) :
    addressSet addresses' exec' = addressSet addresses exec := by
  ext a
  simp only [addressSet, Finset.mem_image, mem_executing]
  constructor
  · rintro ⟨lane, hlane, rfl⟩
    exact ⟨f lane, hf.mapsTo hlane, by rw [h lane hlane]⟩
  · rintro ⟨lane, hlane, rfl⟩
    obtain ⟨lane', hlane', rfl⟩ := hf.surjOn hlane
    exact ⟨lane', hlane', by rw [h lane' hlane']⟩

theorem segmentSet_eq (addresses : Nat → Word) (exec : LaneMask) :
    segmentSet addresses exec = (addressSet addresses exec).image (· / 128) := by
  rw [segmentSet, addressSet, Finset.image_image]
  rfl

theorem addressSet_mono (h : ∀ lane, hasLane exec lane = true → hasLane exec' lane = true) :
    addressSet addresses exec ⊆ addressSet addresses exec' := by
  refine Finset.image_subset_image fun lane hlane => ?_
  rw [mem_executing] at hlane ⊢
  exact h lane hlane

/-- The addresses spread over 32 banks. -/
theorem card_addressSet (addresses : Nat → Word) (exec : LaneMask) :
    (addressSet addresses exec).card
      = ∑ bank ∈ Finset.range 32, (bankSet addresses exec bank).card :=
  Finset.card_eq_sum_card_fiberwise fun a _ => Finset.mem_coe.2 (Finset.mem_range.2 (by omega))

/-- The observables of a warp-level access, as the source's arrays and as the block's statistics
count them, are cardinalities of sets. So they depend on the set of the executing lanes' addresses
alone, and grow with it. -/
theorem memory_observables (addresses : Nat → Word) (exec : LaneMask) :
    distinctSegmentsArray addresses exec = (segmentSet addresses exec).card
    ∧ bankConflictDegreeArray addresses exec
      = ((Finset.range 32).sup fun bank => (bankSet addresses exec bank).card)
    ∧ distinctSegments addresses exec = distinctSegmentsArray addresses exec
    ∧ bankConflictDegree addresses exec = bankConflictDegreeArray addresses exec
    ∧ (∀ (addresses' : Nat → Word) (exec' : LaneMask) (f : Nat → Nat),
        Set.BijOn f {lane | hasLane exec' lane = true} {lane | hasLane exec lane = true} →
        (∀ lane, hasLane exec' lane = true → addresses' lane = addresses (f lane)) →
          distinctSegmentsArray addresses' exec' = distinctSegmentsArray addresses exec
          ∧ bankConflictDegreeArray addresses' exec' = bankConflictDegreeArray addresses exec)
    ∧ (∀ exec' : LaneMask, (∀ lane, hasLane exec lane = true → hasLane exec' lane = true) →
        distinctSegmentsArray addresses exec ≤ distinctSegmentsArray addresses exec'
        ∧ bankConflictDegreeArray addresses exec ≤ bankConflictDegreeArray addresses exec')
    ∧ (addressSet addresses exec).card ≤ 32 * bankConflictDegreeArray addresses exec := by
  simp only [distinctSegmentsArray_eq, bankConflictDegreeArray_eq, distinctSegments_eq,
    bankConflictDegree_eq_sup, segmentSet_eq, bankSet]
  refine ⟨trivial, trivial, trivial, trivial, fun addresses' exec' f hf h => ?_,
    fun exec' h => ?_, ?_⟩
  · rw [addressSet_bijOn hf h]
    exact ⟨rfl, rfl⟩
  · have hsub : addressSet addresses exec ⊆ addressSet addresses exec' := addressSet_mono h
    exact ⟨Finset.card_le_card (Finset.image_subset_image hsub), Finset.sup_mono_fun fun bank _ =>
      Finset.card_le_card (Finset.filter_subset_filter _ hsub)⟩
  · rw [card_addressSet]
    have := Finset.sum_le_card_nsmul (Finset.range 32)
      (fun bank => (bankSet addresses exec bank).card) _
      fun bank hbank => Finset.le_sup (f := fun bank => (bankSet addresses exec bank).card) hbank
    rwa [Finset.card_range, smul_eq_mul] at this

/-- Two lanes that swap their addresses 4 and 256, with other slots changed, and the larger mask
of four lanes. -/
theorem memory_observables_swapped :
    let a : Nat → Word := fun lane => if lane = 0 then 4 else 256
    let b : Nat → Word := fun lane => if lane = 0 then 256 else if lane = 1 then 4 else 99
    distinctSegmentsArray b 3 = distinctSegmentsArray a 3
      ∧ bankConflictDegreeArray b 3 = bankConflictDegreeArray a 3
      ∧ distinctSegmentsArray a 3 ≤ distinctSegmentsArray a 15 := by
  intro a b
  have htwo : ∀ lane, hasLane 3 lane = true ↔ lane < 2 := by
    intro lane
    refine ⟨fun h => ?_, fun h => ?_⟩
    · exact (by decide : ∀ lane < 32, hasLane 3 lane = true → lane < 2) lane (hasLane_lt h) h
    · exact (by decide : ∀ lane < 2, hasLane 3 lane = true) lane h
  have hbij : Set.BijOn (fun lane => 1 - lane) {lane | hasLane 3 lane = true}
      {lane | hasLane 3 lane = true} := by
    refine ⟨fun lane _ => (htwo _).2 (by simp only; omega), fun lane h lane' h' he => ?_,
      fun lane h => ?_⟩
    · have := (htwo _).1 h
      have := (htwo _).1 h'
      simp only at he
      omega
    · have := (htwo _).1 h
      exact ⟨1 - lane, (htwo _).2 (by omega), by simp only; omega⟩
  have hab : ∀ lane, hasLane 3 lane = true → b lane = a (1 - lane) := by
    intro lane h
    have := (htwo _).1 h
    have h01 : lane = 0 ∨ lane = 1 := by omega
    rcases h01 with rfl | rfl <;> rfl
  obtain ⟨-, -, -, -, hswap, hmono, -⟩ := memory_observables a 3
  obtain ⟨h1, h2⟩ := hswap b 3 (fun lane => 1 - lane) hbij hab
  refine ⟨h1, h2, (hmono 15 fun lane h => ?_).1⟩
  exact (by decide : ∀ lane < 2, hasLane 15 lane = true) lane ((htwo lane).1 h)

end Main

end WarpSim
