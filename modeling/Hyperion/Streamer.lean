import Hyperion.Fat16Spec

/-!
# Reading across sectors

`diskstreamer_read` with its status, the memory that it copies to and the blocks that it
asks the disk for. It delivers the bytes of the disk however they lie in its sectors
(`diskstreamerRead_faithful`), but a request that ends with a sector also reads the sector
behind it (`diskstreamerRead_asks_iff`).

The file system reads through a function that returns the bytes. Here the function is given with
all that it does, and `diskstreamerRead_refines` says that it is the other one with the memory and
the blocks added. `Copied` is what a copy leaves in memory : the bytes from an address on, and
nothing else changed. One copy behind another is a copy of both (`Copied.append`), which is the
step of the recursion (`diskstreamerReadFrom_run`).

The sectors that are asked for follow one another (`sectorsAsked`). They are those that hold the
bytes, and one more if the last byte is the last of its sector (`sectorsAsked_eq_iff`).
-/

namespace Hyperion

open Partial

/-- What a read works on : the stream, the memory, and the blocks asked for so far. -/
structure Reader where
  stream : DiskStream
  mem : ℕ → UInt8
  asked : List ℕ

abbrev ReaderM := Prog Reader

namespace Streamer

/-! ## The code -/

section Code

variable (image : DiskImage)

/-- The status, and the block. -/
def diskReadBlock (lba : ℕ) : ReaderM (Int × (ℕ → UInt8)) := do
  modify fun s => { s with asked := s.asked ++ [lba] }
  return (0, image (asSigned lba))

/-- The copying loop, `fuel` bytes from `buf[i]` on. The pointer behind them. -/
def copyLoop (buf : ℕ → UInt8) : (fuel : ℕ) → (i : Int) → (out : ℕ) → ReaderM ℕ
  | 0, _, out => return out
  | fuel + 1, i, out => do
    -- before the sector buffer
    if i < 0 then fault
    modify fun s => { s with mem := Function.update s.mem out (buf i.toNat) }
    copyLoop buf fuel (i + 1) ((out + 1) % 4294967296)

/-- `diskstreamer_read`, at most `fuel` calls deep. -/
def diskstreamerReadFrom : (fuel : ℕ) → (out : ℕ) → (total : Int) → ReaderM Int
  | 0, _, _ => fault
  | fuel + 1, out, total => do
    let s ← get
    let sector := s.stream.pos.tdiv sectorSize
    let offset := s.stream.pos.tmod sectorSize
    let overflow := (sectorSize : Int) ≤ wrapInt (offset + total)
    let totalToRead := if overflow then total - (wrapInt (offset + total) - sectorSize) else total
    let (res, buf) ← diskReadBlock image (asUnsigned sector)
    if res < 0 then return res
    let out ← copyLoop buf totalToRead.toNat offset out
    modify fun s => { s with stream := ⟨wrapInt (s.stream.pos + totalToRead)⟩ }
    if overflow then diskstreamerReadFrom fuel out (total - totalToRead) else return res

def diskstreamerRead (out : ℕ) (total : Int) : ReaderM Int :=
  diskstreamerReadFrom image (total.toNat + 1) out total

end Code

end Streamer

/-! ## Copied bytes -/

/-- `mem'` is `mem` with the bytes `bs` from the address `out` on. -/
structure Copied (mem : ℕ → UInt8) (out : ℕ) (bs : List UInt8) (mem' : ℕ → UInt8) : Prop where
  bytes : ∀ i (h : i < bs.length), mem' ((out + i) % 4294967296) = bs[i]
  frame : ∀ a, (∀ i < bs.length, a ≠ (out + i) % 4294967296) → mem' a = mem a

namespace Copied

variable {mem mem' mem'' : ℕ → UInt8} {out : ℕ} {bs bs' : List UInt8}

theorem nil (mem : ℕ → UInt8) (out : ℕ) : Copied mem out [] mem :=
  ⟨fun _ h => absurd h (Nat.not_lt_zero _), fun _ _ => rfl⟩

theorem single (mem : ℕ → UInt8) (c : UInt8) (hout : out < 4294967296) :
    Copied mem out [c] (Function.update mem out c) := by
  refine ⟨fun i hi => ?_, fun a ha => ?_⟩
  · obtain rfl : i = 0 := Nat.lt_one_iff.mp hi
    rw [Nat.add_zero, Nat.mod_eq_of_lt hout, Function.update_self]
    rfl
  · have hne := ha 0 Nat.zero_lt_one
    rw [Nat.add_zero, Nat.mod_eq_of_lt hout] at hne
    exact Function.update_of_ne hne _ _

/-- One copy behind another, if they do not run into each other. -/
theorem append (h : Copied mem out bs mem') (h' : Copied mem' (out + bs.length) bs' mem'')
    (hlen : bs.length + bs'.length ≤ 4294967296) : Copied mem out (bs ++ bs') mem'' := by
  refine ⟨fun i hi => ?_, fun a ha => ?_⟩
  · rw [List.length_append] at hi
    by_cases hlt : i < bs.length
    · rw [List.getElem_append_left hlt, h'.frame _ fun j hj => by omega, h.bytes i hlt]
    · have hj : i - bs.length < bs'.length := by omega
      have he := h'.bytes (i - bs.length) hj
      rw [show out + bs.length + (i - bs.length) = out + i by omega] at he
      rw [he, List.getElem_append_right (not_lt.mp hlt)]
  · rw [List.length_append] at ha
    rw [h'.frame a fun j hj => by rw [Nat.add_assoc]; exact ha _ (by omega),
      h.frame a fun j hj => ha j (by omega)]

/-- The memory after a copy is determined. -/
theorem unique (h : Copied mem out bs mem') (h' : Copied mem out bs mem'') : mem' = mem'' := by
  funext a
  by_cases ha : ∃ i < bs.length, a = (out + i) % 4294967296
  · obtain ⟨i, hi, rfl⟩ := ha
    rw [h.bytes i hi, h'.bytes i hi]
  · push Not at ha
    rw [h.frame a ha, h'.frame a ha]

/-- Addresses are 32-bit words. -/
theorem of_mod (h : Copied mem (out % 4294967296) bs mem') : Copied mem out bs mem' :=
  ⟨fun i hi => by rw [← Nat.mod_add_mod]; exact h.bytes i hi,
    fun a ha => h.frame a fun i hi => by rw [Nat.mod_add_mod]; exact ha i hi⟩

end Copied

namespace Streamer

variable {image : DiskImage}

/-! ## One sector -/

theorem copyLoop_run (buf : ℕ → UInt8) : ∀ (fuel i out : ℕ) (s : Reader), out < 4294967296 →
    fuel ≤ 4294967296 → ∃ mem', copyLoop buf fuel (i : ℕ) out s =
        some ((out + fuel) % 4294967296, { s with mem := mem' }) ∧
      Copied s.mem out ((List.range fuel).map fun j => buf (i + j)) mem'
  | 0, i, out, s, hout, _ => by
    refine ⟨s.mem, ?_, .nil _ _⟩
    rw [Nat.add_zero, Nat.mod_eq_of_lt hout]
    rfl
  | fuel + 1, i, out, s, hout, hfuel => by
    obtain ⟨mem', hrun, hcopied⟩ := copyLoop_run buf fuel (i + 1) ((out + 1) % 4294967296)
      { s with mem := Function.update s.mem out (buf i) } (Nat.mod_lt _ (by decide)) (by omega)
    refine ⟨mem', ?_, ?_⟩
    · simp only [copyLoop, Int.toNat_natCast]
      rw [if_neg (by omega), run_bind, run_modify, Option.bind_some, ← Nat.cast_succ, hrun,
        Nat.mod_add_mod, Nat.add_assoc, Nat.add_comm 1]
    · have h := (Copied.single s.mem (buf i) hout).append hcopied.of_mod (by simp; omega)
      rw [List.range_succ_eq_map, List.map_cons, List.map_map]
      convert h using 1
      simp [Function.comp_def, Nat.add_assoc, Nat.add_comm 1]

/-- The sectors that a read of `total` bytes from `pos` on asks for. -/
def sectorsAsked (pos total : ℕ) : List ℕ :=
  List.range' (pos / sectorSize) ((pos % sectorSize + total) / sectorSize + 1)

theorem sectorsAsked_last {pos total : ℕ} (h : pos % sectorSize + total < sectorSize) :
    sectorsAsked pos total = [pos / sectorSize] := by
  rw [sectorsAsked, Nat.div_eq_of_lt h]
  rfl

/-- A read that fills up the first sector asks for it and then for those of the rest. -/
theorem sectorsAsked_next {pos n total : ℕ} (hn : pos % sectorSize + n = sectorSize)
    (hle : n ≤ total) : sectorsAsked pos total =
      pos / sectorSize :: sectorsAsked (pos + n) (total - n) := by
  unfold sectorSize at hn
  have hstart : (pos + n) / sectorSize = pos / sectorSize + 1 := by
    unfold sectorSize
    omega
  have hcount : (pos % sectorSize + total) / sectorSize =
      ((pos + n) % sectorSize + (total - n)) / sectorSize + 1 := by
    unfold sectorSize
    omega
  rw [sectorsAsked, sectorsAsked, hstart, hcount, List.range'_succ]

/-! ## The whole read -/

/-- The bytes of the disk, whatever sectors they lie in. -/
theorem diskstreamerReadFrom_run : ∀ (fuel pos total out : ℕ) (s : Reader), total < fuel →
    pos + total < 2147483648 → out < 4294967296 → s.stream.pos = pos →
    ∃ mem', diskstreamerReadFrom image fuel out total s =
        some (0, ⟨⟨(pos + total : ℕ)⟩, mem', s.asked ++ sectorsAsked pos total⟩) ∧
      Copied s.mem out (diskBytes image pos total) mem'
  | fuel + 1, pos, total, out, s, hfuel, hend, hout, hpos => by
    have hdiv : (pos : Int).tdiv sectorSize = (pos / sectorSize : ℕ) := by
      rw [Int.tdiv_eq_ediv_of_nonneg (by omega)]
      rfl
    have hmod : (pos : Int).tmod sectorSize = (pos % sectorSize : ℕ) := by
      rw [Int.tmod_eq_emod_of_nonneg (by omega)]
      rfl
    have hlt : pos % sectorSize < sectorSize := Nat.mod_lt _ (by decide)
    have hle : pos % sectorSize ≤ pos := Nat.mod_le _ _
    have hsector : pos / sectorSize < 2147483648 := (Nat.div_le_self _ _).trans_lt (by omega)
    have hasked : asUnsigned (pos / sectorSize : ℕ) = pos / sectorSize :=
      asUnsigned_natCast (hsector.trans (by decide))
    have hlba : asSigned (pos / sectorSize) = (pos / sectorSize : ℕ) := asSigned_of_lt hsector
    have hsum : wrapInt (((pos % sectorSize : ℕ) : Int) + total) =
        (pos % sectorSize + total : ℕ) := by
      rw [wrapInt_of_range (by omega) (by omega), Int.natCast_add]
    have hwrap (n : ℕ) (hn : n ≤ total) : wrapInt ((pos : Int) + n) = (pos + n : ℕ) := by
      rw [wrapInt_of_range (by omega) (by omega), Int.natCast_add]
    -- what lies in the first sector
    have hcopy (n : ℕ) (hn : n ≤ total) (hin : pos % sectorSize + n ≤ sectorSize) (t : Reader) :
        ∃ mem', copyLoop (image (pos / sectorSize : ℕ)) n (pos % sectorSize : ℕ) out t =
            some ((out + n) % 4294967296, { t with mem := mem' }) ∧
          Copied t.mem out (diskBytes image pos n) mem' := by
      rw [diskBytes_sector image hin]
      exact copyLoop_run _ _ _ _ _ hout (by omega)
    simp only [diskstreamerReadFrom, diskReadBlock, run_bind, run_get, run_modify, run_pure,
      Option.bind_some, hpos, hdiv, hmod, hasked, hlba, hsum, lt_irrefl, if_false]
    by_cases hover : sectorSize ≤ pos % sectorSize + total
    · obtain ⟨n, hn⟩ : ∃ n, pos % sectorSize + n = sectorSize := ⟨_, Nat.add_sub_of_le hlt.le⟩
      have hread : (total : Int) - ((pos % sectorSize + total : ℕ) - sectorSize) = n := by omega
      have hrest : (total : Int) - n = (total - n : ℕ) := by omega
      obtain ⟨mem₁, hcopy, hcopied⟩ := hcopy n (by omega) hn.le
        { s with asked := s.asked ++ [pos / sectorSize] }
      obtain ⟨mem', hrun, hcopied'⟩ := diskstreamerReadFrom_run fuel (pos + n) (total - n)
        ((out + n) % 4294967296) ⟨⟨(pos + n : ℕ)⟩, mem₁, s.asked ++ [pos / sectorSize]⟩
        (by omega) (by omega)
        (Nat.mod_lt _ (by decide)) rfl
      refine ⟨mem', ?_, ?_⟩
      · simp only [Int.ofNat_le, hover, if_true, hread, hrest, Int.toNat_natCast, hcopy,
          Option.bind_some, hpos, hwrap n (by omega), hrun]
        rw [show pos + n + (total - n) = pos + total by omega,
          sectorsAsked_next hn (by omega), List.append_assoc, List.singleton_append]
      · have hlen : (diskBytes image pos n).length = n := length_diskBytes image pos n
        have h := hcopied.append (by rw [hlen]; exact hcopied'.of_mod)
          (by rw [hlen, length_diskBytes]; omega)
        rwa [diskBytes_append, Nat.add_sub_of_le (by omega)] at h
    · obtain ⟨mem', hcopy, hcopied⟩ := hcopy total le_rfl (by omega)
        { s with asked := s.asked ++ [pos / sectorSize] }
      refine ⟨mem', ?_, hcopied⟩
      simp only [Int.ofNat_le, hover, if_false, Int.toNat_natCast, hcopy, Option.bind_some, hpos,
        hwrap total le_rfl]
      rw [sectorsAsked_last (not_le.mp hover)]
      rfl

theorem diskstreamerRead_run (image : DiskImage) (pos total out : ℕ) (s : Reader)
    (hend : pos + total < 2147483648) (hout : out < 4294967296) (hpos : s.stream.pos = pos) :
    ∃ mem', diskstreamerRead image out total s =
        some (0, ⟨⟨(pos + total : ℕ)⟩, mem', s.asked ++ sectorsAsked pos total⟩) ∧
      Copied s.mem out (diskBytes image pos total) mem' :=
  diskstreamerReadFrom_run _ _ _ _ _ (Nat.lt_succ_self _) hend hout hpos

/-- `diskstreamer_read` without the memory and the blocks asked for is the function that
the file system reads with. -/
theorem diskstreamerRead_refines {pos total out : ℕ} {s : Reader}
    (hend : pos + total < 2147483648) (hout : out < 4294967296) (hpos : s.stream.pos = pos) :
    ∃ bytes s', diskstreamerRead image out total s = some (0, s') ∧
      Hyperion.diskstreamerRead image s.stream total = some (bytes, s'.stream) ∧
      Copied s.mem out bytes s'.mem := by
  obtain ⟨mem', hrun, hcopied⟩ := diskstreamerRead_run image pos total out s hend hout hpos
  refine ⟨_, _, hrun, ?_, hcopied⟩
  rw [show s.stream = ⟨(pos : ℕ)⟩ from congrArg DiskStream.mk hpos]
  exact diskstreamerRead_eq image hend

/-! ## What is delivered -/

/-- A read delivers the bytes of the disk in order and nothing else, and moves the stream
behind them. Read in two parts they are the same. -/
theorem diskstreamerRead_faithful (image : DiskImage) (pos total out : ℕ)
    (hend : pos + total < 2147483648) (hout : out < 4294967296) (s : Reader)
    (hpos : s.stream.pos = pos) :
    ∃ s', diskstreamerRead image out total s = some (0, s') ∧
      s'.stream.pos = (pos + total : ℕ) ∧
      Copied s.mem out (diskBytes image pos total) s'.mem ∧
      ∀ a b, a + b = total → ∃ s₁ s₂, diskstreamerRead image out a s = some (0, s₁) ∧
        diskstreamerRead image ((out + a) % 4294967296) b s₁ = some (0, s₂) ∧
        s₂.stream = s'.stream ∧ s₂.mem = s'.mem := by
  obtain ⟨mem', hrun, hcopied⟩ := diskstreamerRead_run image pos total out s hend hout hpos
  refine ⟨_, hrun, rfl, hcopied, fun a b hab => ?_⟩
  obtain ⟨mem₁, hrun₁, hcopied₁⟩ :=
    diskstreamerRead_run image pos a out s (by omega) hout hpos
  obtain ⟨mem₂, hrun₂, hcopied₂⟩ := diskstreamerRead_run image (pos + a) b
    ((out + a) % 4294967296) ⟨⟨(pos + a : ℕ)⟩, mem₁, s.asked ++ sectorsAsked pos a⟩ (by omega)
    (Nat.mod_lt _ (by decide)) rfl
  have hlen : (diskBytes image pos a).length = a := length_diskBytes image pos a
  have hboth : Copied s.mem out (diskBytes image pos total) mem₂ := by
    have h := hcopied₁.append (by rw [hlen]; exact hcopied₂.of_mod)
      (by rw [hlen, length_diskBytes]; omega)
    rwa [diskBytes_append, hab] at h
  exact ⟨_, _, hrun₁, hrun₂, by rw [Nat.add_assoc, hab], hboth.unique hcopied⟩

/-- Three bytes over the edge between the first two sectors. -/
theorem diskstreamerRead_faithful_edge :
    ∃ s', diskstreamerRead (fun lba j => UInt8.ofNat (lba.toNat + j)) 4096 3
        ⟨⟨510⟩, fun _ => 0, []⟩ = some (0, s') ∧
      s'.mem 4096 = 254 ∧ s'.mem 4097 = 255 ∧ s'.mem 4098 = 1 ∧ s'.mem 4099 = 0 := by
  obtain ⟨s', hrun, -, hcopied, -⟩ := diskstreamerRead_faithful
    (fun lba j => UInt8.ofNat (lba.toNat + j)) 510 3 4096 (by decide) (by decide)
    ⟨⟨510⟩, fun _ => 0, []⟩ rfl
  refine ⟨s', hrun, (hcopied.bytes 0 (by decide)).trans (by decide),
    (hcopied.bytes 1 (by decide)).trans (by decide),
    (hcopied.bytes 2 (by decide)).trans (by decide), hcopied.frame 4099 ?_⟩
  rw [length_diskBytes]
  omega

/-! ## What is asked for -/

/-- The sectors that hold the `total` bytes from `pos` on. -/
def sectorsHolding (pos total : ℕ) : List ℕ :=
  List.range' (pos / sectorSize) ((pos + total - 1) / sectorSize - pos / sectorSize + 1)

/-- One sector too many if the last byte is the last of its sector. -/
theorem sectorsAsked_eq_iff {pos total : ℕ} (htotal : 1 ≤ total) :
    sectorsAsked pos total = sectorsHolding pos total ↔ (pos + total) % sectorSize ≠ 0 := by
  have hlen : (pos % sectorSize + total) / sectorSize + 1 =
      (pos + total - 1) / sectorSize - pos / sectorSize + 1 ↔ (pos + total) % sectorSize ≠ 0 := by
    unfold sectorSize
    omega
  rw [← hlen]
  refine ⟨fun h => ?_, fun h => by rw [sectorsAsked, sectorsHolding, h]⟩
  simpa [sectorsAsked, sectorsHolding] using congrArg List.length h

/-- Only the sectors that hold requested bytes are read exactly when the request does not
end with a sector. -/
theorem diskstreamerRead_asks_iff (image : DiskImage) (pos total out : ℕ) (htotal : 1 ≤ total)
    (hend : pos + total < 2147483648) (hout : out < 4294967296) (s : Reader)
    (hpos : s.stream.pos = pos) :
    (∃ res s', diskstreamerRead image out total s = some (res, s') ∧
      s'.asked = s.asked ++ sectorsHolding pos total) ↔ (pos + total) % sectorSize ≠ 0 := by
  obtain ⟨mem', hrun, -⟩ := diskstreamerRead_run image pos total out s hend hout hpos
  rw [← sectorsAsked_eq_iff htotal]
  constructor
  · rintro ⟨res, s', hrun', hasked⟩
    rw [hrun] at hrun'
    obtain ⟨-, rfl⟩ := Prod.mk.inj (Option.some.inj hrun')
    exact List.append_cancel_left hasked
  · exact fun h => ⟨0, _, hrun, by rw [h]⟩

/-- One byte within a sector. -/
theorem diskstreamerRead_asks_within : ∃ res s',
    diskstreamerRead (fun _ _ => 0) 4096 1 ⟨⟨700⟩, fun _ => 0, []⟩ = some (res, s') ∧
      s'.asked = [1] :=
  (diskstreamerRead_asks_iff (fun _ _ => 0) 700 1 4096 (by decide) (by decide) (by decide)
    ⟨⟨700⟩, fun _ => 0, []⟩ rfl).mpr (by decide)

/-- For the first sector alone the second one is read too. -/
theorem diskstreamerRead_asks_not_always : ¬∀ (image : DiskImage) (pos total out : ℕ)
    (s : Reader), 1 ≤ total → pos + total < 2147483648 → out < 4294967296 →
    s.stream.pos = pos → ∃ res s', diskstreamerRead image out total s = some (res, s') ∧
      s'.asked = s.asked ++ sectorsHolding pos total := by
  intro hall
  obtain ⟨res, s', hrun, hasked⟩ := hall (fun _ _ => 0) 0 512 4096 ⟨⟨0⟩, fun _ => 0, []⟩
    (by decide) (by decide) (by decide) rfl
  obtain ⟨mem', hrun', -⟩ := diskstreamerRead_run (fun _ _ => 0) 0 512 4096
    ⟨⟨0⟩, fun _ => 0, []⟩ (by decide) (by decide) rfl
  rw [hrun'] at hrun
  obtain ⟨-, rfl⟩ := Prod.mk.inj (Option.some.inj hrun)
  have hsame : sectorsAsked 0 512 = sectorsHolding 0 512 := List.append_cancel_left hasked
  exact absurd hsame (by decide)

end Streamer

end Hyperion
