import WarpSim.Buffers
import WarpSim.Harness
import WarpSim.Proofs.Arena

/-!
# What the launch helper places

The arguments follow each other in memory at multiples of the arena's alignment, and the room
that each is given for it is enough: the default memory never runs out. At the launch every array
is where its parameter says, and all of the other bytes are zero.
-/

namespace WarpSim

/-- The bytes `data` are in memory from byte `offset` on. -/
def ByteMemory.Holds (m : ByteMemory) (offset : Nat) (data : List (BitVec 8)) : Prop :=
  ∀ j < data.length, m.bytes[offset + j]? = data[j]?

/-- What a copy into memory leaves at a byte. -/
theorem Device.write_bytes {global device : ByteMemory} {offset : Nat} {data : List (BitVec 8)}
    (h : Device.write global offset data = .ok device) (j : Nat) :
    device.bytes[j]? = if offset ≤ j ∧ j < offset + data.length then data[j - offset]?
      else global.bytes[j]? := by
  rw [Device.write] at h
  split_ifs at h with h1 h2
  cases h
  have hlen : (global.bytes.take offset).length = offset := by
    rw [List.length_take]
    simp only [ByteMemory.size] at h2
    omega
  rw [List.append_assoc]
  rcases Nat.lt_or_ge j offset with hlt | hge
  · rw [List.getElem?_append_left (by omega), List.getElem?_take, if_pos hlt, if_neg (by omega)]
  · rw [List.getElem?_append_right (by omega), hlen]
    rcases Nat.lt_or_ge j (offset + data.length) with hlt | hge'
    · rw [List.getElem?_append_left (by omega), if_pos ⟨hge, hlt⟩]
    · rw [List.getElem?_append_right (by omega), List.getElem?_drop, if_neg (by omega)]
      congr 1
      omega

namespace Harness

section Layout

/-- The bytes that an argument takes from the arena. -/
def Arg.nbytes : Arg → Nat
  | .array data => data.length
  | .output out => out.nbytes
  | _ => 0

/-- What an argument puts into them. -/
def Arg.contents : Arg → Option (List (BitVec 8))
  | .array data => some data
  | .output out => out.fill.map fun item => (List.replicate out.count item).flatten
  | _ => none

/-- The kernel's parameter for an argument placed at a byte. -/
def Arg.param (offset : Nat) : Arg → Nat
  | .scalar value => (value.land 0xFFFFFFFF).toNat
  | _ => offset

def Arg.output? : Arg → Option Output
  | .output out => some out
  | _ => none

/-- The bytes from the next free one at which the arguments are placed. -/
def layout (next : Nat) : List Arg → List (Nat × Arg)
  | [] => []
  | arg :: args => (next, arg) :: layout (next + Arena.roundUp 128 arg.nbytes) args

variable {arg : Arg} {args : List Arg} {next : Nat}

theorem Arg.length_contents {data : List (BitVec 8)} (h : data ∈ arg.contents) :
    data.length = arg.nbytes := by
  rcases arg with _ | out | _ | _
  · cases h
    rfl
  · obtain ⟨item, hitem, rfl⟩ := Option.mem_map.1 h
    rw [List.length_flatten, List.map_replicate, List.sum_replicate, out.fills item hitem]
    rfl
  · cases h
  · cases h

theorem layout_ordered : ∀ (args : List Arg) {next : Nat}, 128 ∣ next →
    (layout next args).Pairwise (fun r r' => r.1 + r.2.nbytes ≤ r'.1)
      ∧ ∀ r ∈ layout next args, next ≤ r.1 ∧ 128 ∣ r.1 ∧ r.1 + r.2.nbytes
        ≤ next + (args.map fun arg => Arena.roundUp 128 arg.nbytes).sum
  | [], _, _ => ⟨.nil, List.forall_mem_nil _⟩
  | arg :: args, next, hnext => by
    have hle := Arena.le_roundUp (show 0 < 128 by decide) arg.nbytes
    obtain ⟨hpair, hall⟩ := layout_ordered args
      (hnext.add (show 128 ∣ Arena.roundUp 128 arg.nbytes from Nat.dvd_mul_left _ _))
    rw [layout, List.map_cons, List.sum_cons]
    refine ⟨List.pairwise_cons.2 ⟨fun r hr => ?_, hpair⟩, List.forall_mem_cons.2
      ⟨⟨Nat.le_refl _, hnext, by simp only []; omega⟩, fun r hr => ?_⟩⟩
    · have := (hall r hr).1
      simp only []
      omega
    · obtain ⟨h1, h2, h3⟩ := hall r hr
      exact ⟨by omega, h2, by omega⟩

theorem taken_le_needed (args : List Arg) :
    (args.map fun arg => Arena.roundUp 128 arg.nbytes).sum ≤ needed args := by
  refine List.sum_le_sum fun arg _ => ?_
  rcases arg with data | out | value | _ <;> simp only [Arg.nbytes, Arena.roundUp] <;> omega

end Layout

section Place

/-- What placing some arguments leaves: their parameters and outputs, and their contents in
memory. -/
structure Loaded (p : Placed) (args : List Arg) (p' : Placed) : Prop where
  alignment : p'.arena.alignment = p.arena.alignment
  next : p'.arena.next
    = p.arena.next + (args.map fun arg => Arena.roundUp 128 arg.nbytes).sum
  size : p'.arena.device.size = p.arena.device.size
  params : p'.params = p.params ++ (layout p.arena.next args).map fun r => r.2.param r.1
  outputs : p'.outputs = p.outputs
    ++ (layout p.arena.next args).filterMap fun r => r.2.output?.map fun out => (r.1, out)
  contents : ∀ r ∈ layout p.arena.next args, ∀ data ∈ r.2.contents, p'.arena.device.Holds r.1 data
  rest : ∀ j, (∀ r ∈ layout p.arena.next args, ∀ data ∈ r.2.contents,
    ¬(r.1 ≤ j ∧ j < r.1 + data.length)) → p'.arena.device.bytes[j]? = p.arena.device.bytes[j]?

variable {p p' p'' : Placed} {arg : Arg} {args : List Arg}

theorem Loaded.cons (hnext : 128 ∣ p.arena.next) (h : Loaded p [arg] p')
    (h' : Loaded p' args p'') : Loaded p (arg :: args) p'' := by
  have hp' : p'.arena.next = p.arena.next + Arena.roundUp 128 arg.nbytes := h.next
  have hle := Arena.le_roundUp (show 0 < 128 by decide) arg.nbytes
  have hdvd : 128 ∣ p'.arena.next := by
    rw [hp']
    exact hnext.add (Nat.dvd_mul_left _ _)
  have hafter : ∀ r ∈ layout p'.arena.next args, p.arena.next + arg.nbytes ≤ r.1 := by
    intro r hr
    have := ((layout_ordered args hdvd).2 r hr).1
    omega
  have hlayout : layout p.arena.next (arg :: args)
      = (p.arena.next, arg) :: layout p'.arena.next args := by
    rw [layout, hp']
  constructor
  · exact h'.alignment.trans h.alignment
  · rw [h'.next, hp', List.map_cons, List.sum_cons, Nat.add_assoc]
  · exact h'.size.trans h.size
  · rw [hlayout, h'.params, h.params, List.append_assoc]
    rfl
  · rw [hlayout, h'.outputs, h.outputs, List.append_assoc]
    exact congrArg (_ ++ ·) List.filterMap_append.symm
  · rw [hlayout]
    refine List.forall_mem_cons.2 ⟨fun data hdata j hj => ?_, h'.contents⟩
    refine (h'.rest _ fun r hr _ _ ⟨hle', _⟩ => ?_).trans
      (h.contents _ (List.mem_singleton_self _) data hdata j hj)
    have hlen : data.length = arg.nbytes := Arg.length_contents hdata
    have := hafter r hr
    simp only [] at hle'
    omega
  · rw [hlayout]
    intro j hj
    obtain ⟨hfirst, hlater⟩ := List.forall_mem_cons.1 hj
    refine (h'.rest j hlater).trans (h.rest j fun r hr => ?_)
    obtain rfl := List.mem_singleton.1 hr
    exact hfirst

theorem loaded_one (halign : p'.arena.alignment = p.arena.alignment)
    (hnext : p'.arena.next = p.arena.next + Arena.roundUp 128 arg.nbytes)
    (hparams : p'.params = p.params ++ [arg.param p.arena.next])
    (houtputs : p'.outputs = p.outputs
      ++ (arg.output?.map fun out => (p.arena.next, out)).toList)
    (hwrite : (arg.contents = none ∧ p'.arena.device = p.arena.device) ∨ ∃ data,
      arg.contents = some data
        ∧ Device.write p.arena.device p.arena.next data = .ok p'.arena.device) :
    Loaded p [arg] p' := by
  constructor
  · exact halign
  · rw [hnext, List.map_singleton, List.sum_singleton]
  · rcases hwrite with ⟨-, h⟩ | ⟨data, -, h⟩
    · rw [h]
    · exact Arena.device_write_size h
  · exact hparams
  · rw [houtputs, layout, layout, List.filterMap_cons, List.filterMap_nil]
    rcases arg.output? with _ | out <;> rfl
  · intro r hr data hdata j hj
    obtain rfl := List.mem_singleton.1 hr
    rcases hwrite with ⟨h, -⟩ | ⟨data', h, hwrite⟩
    · rw [h] at hdata
      cases hdata
    · obtain rfl : data' = data := Option.some.inj (h.symm.trans hdata)
      rw [Device.write_bytes hwrite, if_pos ⟨Nat.le_add_right _ _, Nat.add_lt_add_left hj _⟩,
        Nat.add_sub_cancel_left]
  · intro j hj
    rcases hwrite with ⟨-, h⟩ | ⟨data, h, hwrite⟩
    · rw [h]
    · rw [Device.write_bytes hwrite, if_neg (hj _ (List.mem_singleton_self _) data h)]

theorem alloc_fits {a : Arena} (nbytes : Nat) (halign : a.alignment = 128)
    (hnext : 128 ∣ a.next) (hroom : a.next + Arena.roundUp 128 nbytes ≤ a.device.size) :
    a.alloc nbytes = (.ok a.next, { a with next := a.next + Arena.roundUp 128 nbytes }) := by
  have hmoved := Arena.roundUp_add (by decide) hnext nbytes
  rw [Arena.roundUp] at hmoved
  rw [Arena.alloc, halign, hmoved]
  exact if_neg (Nat.not_lt.2 hroom)

theorem upload_fits {a : Arena} {data : List (BitVec 8)} (halign : a.alignment = 128)
    (hnext : 128 ∣ a.next) (hroom : a.next + Arena.roundUp 128 data.length ≤ a.device.size)
    (hsmall : a.next < 2 ^ 32) : ∃ a', a.upload data = (.ok a.next, a')
      ∧ a'.alignment = a.alignment ∧ a'.next = a.next + Arena.roundUp 128 data.length
      ∧ Device.write a.device a.next data = .ok a'.device := by
  have hle := Arena.le_roundUp (show 0 < 128 by decide) data.length
  have hwrite : Device.write a.device a.next data
      = .ok ⟨a.device.bytes.take a.next ++ data ++ a.device.bytes.drop (a.next + data.length)⟩ := by
    rw [Device.write, if_neg (Nat.not_le.2 hsmall), if_neg (by omega)]
  refine ⟨⟨_, a.alignment, a.next + Arena.roundUp 128 data.length⟩, ?_, rfl, rfl, hwrite⟩
  rw [Arena.upload, alloc_fits data.length halign hnext hroom]
  simp only [hwrite]

/-- An argument is placed if the arena has room for it. -/
theorem place_ok (halign : p.arena.alignment = 128) (hnext : 128 ∣ p.arena.next)
    (hroom : p.arena.next + Arena.roundUp 128 arg.nbytes ≤ p.arena.device.size)
    (hsmall : p.arena.next < 2 ^ 32) (harg : arg ≠ .other) :
    ∃ p', place p arg = .ok p' ∧ Loaded p [arg] p' := by
  rcases arg with data | out | value | _
  · obtain ⟨arena, hupload, halign', hnext', hwrite⟩ := upload_fits halign hnext hroom hsmall
    refine ⟨⟨arena, p.params ++ [p.arena.next], p.outputs⟩, ?_,
      loaded_one halign' hnext' rfl (List.append_nil _).symm (.inr ⟨data, rfl, hwrite⟩)⟩
    rw [place, hupload]
  · rcases hfill : out.fill with _ | item
    · have halloc := alloc_fits out.nbytes halign hnext hroom
      have hcontents : (Arg.output out).contents = none := by
        rw [Arg.contents, hfill]
        rfl
      refine ⟨⟨{ p.arena with next := p.arena.next + Arena.roundUp 128 out.nbytes },
        p.params ++ [p.arena.next], p.outputs ++ [(p.arena.next, out)]⟩, ?_,
        loaded_one rfl rfl rfl rfl (.inl ⟨hcontents, rfl⟩)⟩
      rw [place, hfill]
      simp only [halloc]
    · have hcontents :
        (Arg.output out).contents = some (List.replicate out.count item).flatten := by
        rw [Arg.contents, hfill]
        rfl
      have hlen := Arg.length_contents hcontents
      obtain ⟨arena, hupload, halign', hnext', hwrite⟩ :=
        upload_fits halign hnext (hlen.symm ▸ hroom) hsmall
      rw [hlen] at hnext'
      refine ⟨⟨arena, p.params ++ [p.arena.next], p.outputs ++ [(p.arena.next, out)]⟩, ?_,
        loaded_one halign' hnext' rfl rfl (.inr ⟨_, hcontents, hwrite⟩)⟩
      rw [place, hfill]
      simp only [hupload]
  · refine ⟨_, rfl, loaded_one rfl ?_ rfl (List.append_nil _).symm (.inl ⟨rfl, rfl⟩)⟩
    exact (congrArg (p.arena.next + ·) (Arena.roundUp_zero (by decide))).symm
  · exact absurd rfl harg

theorem placeAll_ok : ∀ (args : List Arg) {p : Placed}, p.arena.alignment = 128 →
    128 ∣ p.arena.next →
    p.arena.next + (args.map fun arg => Arena.roundUp 128 arg.nbytes).sum ≤ p.arena.device.size →
    p.arena.next + (args.map fun arg => Arena.roundUp 128 arg.nbytes).sum < 2 ^ 32 →
    (∀ arg ∈ args, arg ≠ .other) → ∃ p', args.foldlM place p = .ok p' ∧ Loaded p args p'
  | [], p, _, _, _, _, _ =>
    ⟨p, rfl, rfl, rfl, rfl, (List.append_nil _).symm, (List.append_nil _).symm,
      List.forall_mem_nil _, fun _ _ => rfl⟩
  | arg :: args, p, halign, hnext, hroom, hsmall, hargs => by
    rw [List.map_cons, List.sum_cons] at hroom hsmall
    obtain ⟨p', hplace, h⟩ := place_ok halign hnext (by omega) (by omega)
      (hargs arg List.mem_cons_self)
    have hp' : p'.arena.next = p.arena.next + Arena.roundUp 128 arg.nbytes := h.next
    have hdvd : 128 ∣ p'.arena.next := by
      rw [hp']
      exact hnext.add (Nat.dvd_mul_left _ _)
    obtain ⟨p'', hrest, h'⟩ := placeAll_ok args (h.alignment.trans halign) hdvd
      (by rw [h.size]; omega) (by omega) fun a ha => hargs a (List.mem_cons_of_mem arg ha)
    refine ⟨p'', ?_, h.cons hnext h'⟩
    rw [List.foldlM_cons, hplace]
    exact hrest

theorem place_fits (halign : p.arena.alignment = 128) (hnext : 128 ∣ p.arena.next)
    (hbefore : p.arena.next ≤ p.arena.device.size) (h : place p arg = .ok p') :
    p.arena.next + Arena.roundUp 128 arg.nbytes ≤ p.arena.device.size := by
  have hmoved := fun nbytes => Arena.roundUp_add (show 0 < 128 by decide) hnext nbytes
  have hcall : ∀ (c : Arena.Call) (offset : Nat), (p.arena.call c).1 = .ok offset →
      p.arena.next + Arena.roundUp 128 c.nbytes ≤ p.arena.device.size := by
    intro c offset hc
    have := (Arena.call_ok hc).2
    rwa [halign, hmoved] at this
  rcases arg with data | out | value | _
  · rw [place] at h
    rcases hupload : p.arena.upload data with ⟨e | offset, a⟩ <;> rw [hupload] at h
    · cases h
    · exact hcall (.upload data) offset (by rw [Arena.call, hupload])
  · rcases hfill : out.fill with _ | item
    · rw [place, hfill] at h
      rcases halloc : p.arena.alloc out.nbytes with ⟨e | offset, a⟩ <;> simp only [halloc] at h
      · cases h
      · exact hcall (.alloc out.nbytes) offset (by rw [Arena.call, halloc])
    · have hcontents : (List.replicate out.count item).flatten ∈ (Arg.output out).contents := by
        rw [Arg.contents, hfill]
        rfl
      have hlen : (List.replicate out.count item).flatten.length = out.nbytes :=
        Arg.length_contents hcontents
      rw [place, hfill] at h
      rcases hupload : p.arena.upload (List.replicate out.count item).flatten
        with ⟨e | offset, a⟩ <;> simp only [hupload] at h
      · cases h
      · have := hcall (.upload (List.replicate out.count item).flatten) offset
          (by rw [Arena.call, hupload])
        rwa [Arena.Call.nbytes, hlen] at this
  · show p.arena.next + Arena.roundUp 128 0 ≤ _
    rwa [Arena.roundUp_zero (by decide)]
  · cases h

/-- Arguments are placed exactly if there is room for all of them. -/
theorem placeAll_iff : ∀ (args : List Arg) {p : Placed}, p.arena.alignment = 128 →
    128 ∣ p.arena.next → p.arena.next ≤ p.arena.device.size →
    p.arena.next + (args.map fun arg => Arena.roundUp 128 arg.nbytes).sum < 2 ^ 32 →
    (∀ arg ∈ args, arg ≠ .other) → ((∃ p', args.foldlM place p = .ok p') ↔ p.arena.next
      + (args.map fun arg => Arena.roundUp 128 arg.nbytes).sum ≤ p.arena.device.size)
  | [], p, _, _, hbefore, _, _ => ⟨fun _ => hbefore, fun _ => ⟨p, rfl⟩⟩
  | arg :: args, p, halign, hnext, hbefore, hsmall, hargs => by
    rw [List.map_cons, List.sum_cons] at hsmall ⊢
    constructor
    · rintro ⟨p'', h⟩
      rw [List.foldlM_cons] at h
      rcases hplace : place p arg with e | p₁ <;> rw [hplace] at h
      · cases h
      · have hroom := place_fits halign hnext hbefore hplace
        obtain ⟨p', hplace', hone⟩ := place_ok halign hnext hroom (by omega)
          (hargs arg List.mem_cons_self)
        obtain rfl : p₁ = p' := Except.ok.inj (hplace.symm.trans hplace')
        have hp' : p₁.arena.next = p.arena.next + Arena.roundUp 128 arg.nbytes := hone.next
        have hdvd : 128 ∣ p₁.arena.next := by
          rw [hp']
          exact hnext.add (Nat.dvd_mul_left _ _)
        have := (placeAll_iff args (hone.alignment.trans halign) hdvd (by rw [hone.size]; omega)
          (by omega) fun a ha => hargs a (List.mem_cons_of_mem arg ha)).1 ⟨p'', h⟩
        rw [hone.size] at this
        omega
    · intro hroom
      obtain ⟨p', h, -⟩ := placeAll_ok (arg :: args) halign hnext
        (by rwa [List.map_cons, List.sum_cons]) (by rwa [List.map_cons, List.sum_cons]) hargs
      exact ⟨p', h⟩

end Place

section Launch

variable {args : List Arg} {p : Placed}

/-- The bytes that the arguments take from the arena. -/
def taken (args : List Arg) : Nat := (args.map fun arg => Arena.roundUp 128 arg.nbytes).sum

theorem taken_le_default (args : List Arg) : taken args ≤ defaultBytes args := by
  have := taken_le_needed args
  rw [defaultBytes, taken]
  omega

/-- The arguments are placed exactly if they fit in the device's memory, which they do in the
default one. Then they lie apart at multiples of the alignment, each buffer has its contents, and
all of the other bytes are zero. -/
theorem arguments_placed (args : List Arg) (size : Nat) (hsmall : taken args < 2 ^ 32)
    (hargs : ∀ arg ∈ args, arg ≠ .other) :
    ((∃ p, args.foldlM place (empty size) = .ok p) ↔ taken args ≤ size)
    ∧ taken args ≤ defaultBytes args
    ∧ ∀ p, args.foldlM place (empty size) = .ok p →
      p.params = (layout 0 args).map (fun r => r.2.param r.1)
      ∧ (layout 0 args).Pairwise (fun r r' => r.1 + r.2.nbytes ≤ r'.1)
      ∧ (∀ r ∈ layout 0 args, 128 ∣ r.1 ∧ r.1 + r.2.nbytes ≤ size)
      ∧ (∀ r ∈ layout 0 args, ∀ data ∈ r.2.contents, p.arena.device.Holds r.1 data)
      ∧ ∀ j < size, (∀ r ∈ layout 0 args, ∀ data ∈ r.2.contents,
        ¬(r.1 ≤ j ∧ j < r.1 + data.length)) → p.arena.device.bytes[j]? = some 0 := by
  have hzero : (empty size).arena.next + taken args = taken args := Nat.zero_add _
  have hsize : (empty size).arena.device.size = size := List.length_replicate
  have hiff := placeAll_iff args (p := empty size) rfl (dvd_zero 128) (Nat.zero_le _)
    (hzero.trans_lt hsmall) hargs
  rw [hsize] at hiff
  refine ⟨hiff.trans (by rw [← taken, hzero]), taken_le_default args, fun p hp => ?_⟩
  have hroom := hiff.1 ⟨p, hp⟩
  obtain ⟨p', hp', h⟩ := placeAll_ok args (p := empty size) rfl (dvd_zero 128)
    (hroom.trans_eq hsize.symm) (hzero.trans_lt hsmall) hargs
  obtain rfl : p = p' := Except.ok.inj (hp.symm.trans hp')
  obtain ⟨hpair, hall⟩ := layout_ordered args (dvd_zero 128)
  refine ⟨h.params, hpair, fun r hr => ⟨(hall r hr).2.1, ?_⟩, h.contents, fun j hj hout => ?_⟩
  · exact (hall r hr).2.2.trans hroom
  · refine (h.rest j hout).trans ?_
    exact List.getElem?_replicate_of_lt hj

theorem arguments_placed_three : ∃ p,
    [.array [1, 2, 3, 4], .output (.words 1), .scalar (-1)].foldlM place (empty 512)
      = .ok p ∧ p.params = [0, 128, 4294967295] ∧ p.arena.device.Holds 0 [1, 2, 3, 4] := by
  obtain ⟨hiff, -, hall⟩ := arguments_placed
    [.array [1, 2, 3, 4], .output (.words 1), .scalar (-1)] 512 (by decide)
    (by simp)
  obtain ⟨p, hp⟩ := hiff.2 (by decide)
  obtain ⟨hparams, -, -, hcontents, -⟩ := hall p hp
  exact ⟨p, hp, hparams.trans (by decide +kernel), hcontents _ (.head _) _ rfl⟩

end Launch

end Harness

end WarpSim
