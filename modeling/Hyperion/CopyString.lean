import Hyperion.ProcessHeap
import Hyperion.Process
import Hyperion.Lib.CString

/-!
# Copying a string from a task

`copy_string_from_task` with its destination. The kernel takes a block of the heap, maps it into
the space of the task at its own address, switches to that space, copies the string, and switches
back. The entry of the page that was mapped there is put back before the string is copied out of
the block, and the block is freed.

`UserString` is the string as the task sees it : page after page, with a NUL. It may not lie in the
page that is borrowed, as the task would read the block there. `strncpyVirtual_run` is the copy in
the task's space, `strncpyLoop_run` the copy in the kernel's, byte by byte, and
`Kernel.withBytes_stringIn` reads back what either has written. The steps in the task's space are
one program of its own (`copyToPage`), so that they are gone through once for all callers.

`copyStringFromTaskTo_restores` is the whole : the string arrives, cut to `max - 1` characters, and
the page tables of the task and the table of the heap are as they were before the call.
-/

namespace Hyperion

open Partial FreeRun CString

/-- The loop of `strncpy(dest, src, count)` in the kernel's space, `fuel` rounds. Where the
NUL goes. -/
def strncpyLoop : (fuel dest src : ℕ) → KernelM ℕ
  | 0, dest, _ => return dest
  | fuel + 1, dest, src => do
    let k ← get
    if k.mem src = 0 then return dest
    storeBytes dest [k.mem src]
    strncpyLoop fuel (dest + 1) (src + 1)

def strncpy (dest src : ℕ) (count : Int) : KernelM Unit := do
  let last ← strncpyLoop (count - 1).toNat dest src
  storeBytes last [0]

/-- `copy_string_from_task` with the destination `phys` in the memory of the kernel. The
status. -/
def copyStringFromTaskTo (task virt phys : ℕ) (max : Int) : KernelM Int := do
  if max ≥ 4096 then return -EINVARG
  let tmp ← kzalloc (asUnsigned max)
  if tmp = 0 then return -ENOMEM
  let t ← getTask task
  let taskDirectory ← getChunk t.pageDirectory
  let oldEntry ← pagingGet taskDirectory tmp
  let _ ← pagingMap t.pageDirectory tmp tmp
    (pagingIsWriteable ||| pagingIsPresent ||| pagingAccessFromAll)
  pagingSwitch t.pageDirectory
  let copied ← strncpyVirtual taskDirectory (max - 1).toNat tmp virt
  storeBytes (tmp + copied.length) [0]
  kernelPage
  let res ← pagingSet taskDirectory tmp oldEntry
  if res < 0 then
    kfree tmp
    return - EIO
  strncpy phys tmp max
  kfree tmp
  return res

variable {k k' : Kernel} {task virt phys b c d n : ℕ} {max : Int} {t : Task} {f e : ℕ → ℕ}
  {s bs : List UInt8}

/-! ## Bytes in memory -/

namespace Kernel

theorem withBytes_mem (k : Kernel) (p : ℕ) (bs : List UInt8) (a : ℕ) :
    (k.withBytes p bs).mem a =
      if p ≤ a ∧ a < p + bs.length then bs.getD (a - p) 0 else k.mem a := rfl

@[simp] theorem withBytes_nil (k : Kernel) (p : ℕ) : k.withBytes p [] = k := by
  unfold withBytes
  congr 1
  funext a
  rw [if_neg (by simp)]

/-- Bytes stored one after another. -/
theorem withBytes_append (k : Kernel) (p : ℕ) (bs bs' : List UInt8) :
    (k.withBytes p bs).withBytes (p + bs.length) bs' = k.withBytes p (bs ++ bs') := by
  unfold withBytes
  congr 1
  funext a
  simp only [List.length_append]
  by_cases hlo : p ≤ a
  · by_cases hmid : a < p + bs.length
    · rw [if_neg (by omega), if_pos ⟨hlo, hmid⟩, if_pos (by omega),
        List.getD_append _ _ _ _ (by omega)]
    · by_cases hhi : a < p + bs.length + bs'.length
      · rw [if_pos (by omega), if_pos (by omega), List.getD_append_right _ _ _ _ (by omega)]
        congr 1
        omega
      · rw [if_neg (by omega), if_neg (by omega), if_neg (by omega)]
  · rw [if_neg (by omega), if_neg (by omega), if_neg (by omega)]

theorem storeBytes_run {p : ℕ} (hp : p ≠ 0) (bs : List UInt8) :
    storeBytes p bs k = some ((), k.withBytes p bs) := if_neg fun h => hp h.1

end Kernel

/-- `strncpy` of a string to memory apart from it. -/
theorem strncpyLoop_run : ∀ (s : List UInt8) (fuel dest src : ℕ) (k : Kernel), dest ≠ 0 →
    StringIn k.mem src s → s.length ≤ fuel →
    (dest + s.length ≤ src ∨ src + s.length + 1 ≤ dest) →
    strncpyLoop fuel dest src k = some (dest + s.length, k.withBytes dest s)
  | [], 0, dest, src, k, _, _, _, _ => by simp [strncpyLoop, run_pure]
  | [], fuel + 1, dest, src, k, _, h, _, _ => by
    simp [strncpyLoop, run_bind, run_get, h.nul, run_pure]
  | x :: s, fuel + 1, dest, src, k, hd, h, hlen, hapart => by
    simp only [List.length_cons] at hlen hapart
    have hrest : StringIn (k.withBytes dest [x]).mem (src + 1) s :=
      h.tail.congr fun i hi => by
        rw [Kernel.withBytes_mem, if_neg (by simp; omega)]
    have hloop := strncpyLoop_run s fuel (dest + 1) (src + 1) _ (by omega) hrest (by omega)
      (by omega)
    simp only [strncpyLoop, run_bind, run_get, Option.bind_some, h.head, if_neg h.head_ne]
    rw [Kernel.storeBytes_run hd, Option.bind_some, hloop,
      show dest + 1 = dest + [x].length from rfl, Kernel.withBytes_append]
    simp
    omega

theorem strncpy_run {dest src : ℕ} (hd : dest ≠ 0) (h : StringIn k.mem src s)
    (hlen : s.length ≤ (max - 1).toNat)
    (hapart : dest + s.length ≤ src ∨ src + s.length + 1 ≤ dest) :
    strncpy dest src max k = some ((), k.withBytes dest (s ++ [0])) := by
  rw [strncpy, run_bind, strncpyLoop_run s _ dest src k hd h hlen hapart, Option.bind_some,
    Kernel.storeBytes_run (by omega), Kernel.withBytes_append]

/-- A string and its NUL, where they were stored. -/
theorem Kernel.withBytes_stringIn (hs : ∀ c ∈ s, c ≠ 0) (k : Kernel) (a : ℕ) :
    StringIn (k.withBytes a (s ++ [0])).mem a s :=
  .of_stored hs fun i hi => by
    rw [Kernel.withBytes_mem, if_pos (by simp; omega), Nat.add_sub_cancel_left]

/-! ## Reading a user string -/

/-- The string `s`, with its NUL, is mapped from the virtual address `virt` on, to memory
outside the physical page `page`, and by other entries than that of the page. -/
structure UserString (m : ℕ → UInt8) (e : ℕ → ℕ) (page virt : ℕ) (s : List UInt8) : Prop where
  ne_zero : ∀ c ∈ s, c ≠ 0
  present : ∀ i ≤ s.length, e ((virt + i) % 4294967296 / 4096) &&& pagingIsPresent ≠ 0
  byte : ∀ i ≤ s.length, m (translate e ((virt + i) % 4294967296)) = s.getD i 0
  page_ne : ∀ i ≤ s.length, (virt + i) % 4294967296 / 4096 ≠ page
  phys_ne : ∀ i ≤ s.length, translate e ((virt + i) % 4294967296) / 4096 ≠ page

theorem UserString.tail {m : ℕ → UInt8} {page : ℕ} {x : UInt8}
    (h : UserString m e page virt (x :: s)) :
    UserString m e page ((virt + 1) % 4294967296) s := by
  have hmod : ∀ i, ((virt + 1) % 4294967296 + i) % 4294967296 = (virt + (i + 1)) % 4294967296 :=
    fun i => by omega
  refine ⟨fun c hc => h.ne_zero c (by simp [hc]), fun i hi => ?_, fun i hi => ?_, fun i hi => ?_,
    fun i hi => ?_⟩
  · rw [hmod]
    exact h.present (i + 1) (by simpa using hi)
  · rw [hmod, h.byte (i + 1) (by simpa using hi)]
    rfl
  · rw [hmod]
    exact h.page_ne (i + 1) (by simpa using hi)
  · rw [hmod]
    exact h.phys_ne (i + 1) (by simpa using hi)

/-- Changes inside the page are not seen in the string. -/
theorem UserString.congr {m m' : ℕ → UInt8} {e' : ℕ → ℕ} {page : ℕ}
    (h : UserString m e page virt s) (hm : ∀ a, a / 4096 ≠ page → m' a = m a)
    (he : ∀ n, n ≠ page → e' n = e n) : UserString m' e' page virt s := by
  have htranslate : ∀ i ≤ s.length, translate e' ((virt + i) % 4294967296) =
      translate e ((virt + i) % 4294967296) := fun i hi => by
    rw [translate, translate, he _ (h.page_ne i hi)]
  refine ⟨h.ne_zero, fun i hi => ?_, fun i hi => ?_, h.page_ne, fun i hi => ?_⟩
  · rw [he _ (h.page_ne i hi)]
    exact h.present i hi
  · rw [htranslate i hi, hm _ (h.phys_ne i hi), h.byte i hi]
  · rw [htranslate i hi]
    exact h.phys_ne i hi

theorem Maps.withBytes (h : Maps k c d f e) (p : ℕ) (bs : List UInt8) :
    Maps (k.withBytes p bs) c d f e :=
  h.congr fun _ _ => rfl

/-- Reading a byte of a page that is present. -/
theorem readVirtual_run (h : Maps k c d f e) (hlt : virt < 4294967296)
    (hp : e (virt / 4096) &&& pagingIsPresent ≠ 0) :
    readVirtual d virt k = some (k.mem (translate e virt), k) := by
  have hget := h.pagingGet_run (pagingAlignToLowerPage_mod virt)
    ((pagingAlignToLowerPage_le virt).trans_lt hlt)
  rw [pagingAlignToLowerPage_div] at hget
  simp only [readVirtual, run_bind, hget, Option.bind_some, if_neg hp,
    h.pagingGetPhysicalAddress_run hlt, run_get, run_pure]

/-- The copy of a user string to a place in the borrowed page. -/
theorem strncpyVirtual_run {page : ℕ} : ∀ (s : List UInt8) (fuel tmp virt : ℕ) (k : Kernel),
    Maps k c d f e → UserString k.mem e page virt s → virt < 4294967296 → tmp ≠ 0 →
    page * 4096 ≤ tmp → tmp + fuel < (page + 1) * 4096 →
    strncpyVirtual d fuel tmp virt k = some (s.take fuel, k.withBytes tmp (s.take fuel))
  | s, 0, tmp, virt, k, _, _, _, _, _, _ => by simp [strncpyVirtual, run_pure]
  | [], fuel + 1, tmp, virt, k, hm, h, hlt, _, _, _ => by
    have hread := readVirtual_run hm hlt
      (by simpa [Nat.mod_eq_of_lt hlt] using h.present 0 le_rfl)
    have hbyte : k.mem (translate e virt) = 0 := by
      simpa [Nat.mod_eq_of_lt hlt] using h.byte 0 le_rfl
    rw [hbyte] at hread
    simp [strncpyVirtual, run_bind, hread, run_pure]
  | x :: s, fuel + 1, tmp, virt, k, hm, h, hlt, ht, hlo, hhi => by
    have hread := readVirtual_run hm hlt
      (by simpa [Nat.mod_eq_of_lt hlt] using h.present 0 (Nat.zero_le _))
    have hbyte : k.mem (translate e virt) = x := by
      simpa [Nat.mod_eq_of_lt hlt] using h.byte 0 (Nat.zero_le _)
    have hx : x ≠ 0 := h.ne_zero x (by simp)
    rw [hbyte] at hread
    have hnext : UserString (k.withBytes tmp [x]).mem e page ((virt + 1) % 4294967296) s := by
      refine h.tail.congr (fun a ha => ?_) fun _ _ => rfl
      rw [Kernel.withBytes_mem, if_neg]
      simp only [List.length_singleton]
      omega
    have hrest := strncpyVirtual_run s fuel (tmp + 1) ((virt + 1) % 4294967296) _
      (hm.withBytes tmp [x]) hnext (Nat.mod_lt _ (by decide)) (by omega) (by omega) (by omega)
    simp only [strncpyVirtual, run_bind, hread, Option.bind_some, if_neg hx,
      Kernel.storeBytes_run ht]
    rw [hrest, Option.bind_some, show tmp + 1 = tmp + [x].length from rfl, Kernel.withBytes_append]
    rfl

/-! ## The copy -/

/-- The kernel's own space, as far as `kernel_page` uses it. -/
structure KernelSpace (k : Kernel) (d : ℕ) : Prop where
  ne_zero : k.kernelChunk ≠ 0
  store : k.store k.kernelChunk = some (.chunk d)
  not_fresh : ¬k.Fresh k.kernelChunk

/-- The task at `task`, with its space. None of its structures is in free memory. -/
structure TaskAt (k : Kernel) (task : ℕ) (t : Task) (d : ℕ) (f e : ℕ → ℕ) : Prop where
  ne_zero : task ≠ 0
  self : k.store task = some (.task t)
  maps : Maps k t.pageDirectory d f e
  not_fresh : ¬k.Fresh task
  space_not_fresh : ∀ a, SpacePointer t.pageDirectory d f a → ¬k.Fresh a

/-- `k'` is `k` after the string `s` was copied to `phys` by way of the block `b`. -/
structure StringCopied (k k' : Kernel) (t : Task) (d : ℕ) (f e : ℕ → ℕ) (b phys : ℕ)
    (s : List UInt8) : Prop where
  dest : StringIn k'.mem phys s
  heap : k'.heapTable = k.heapTable
  maps : Maps k' t.pageDirectory d f e
  mem : ∀ a, a / 4096 ≠ blockAddr b / 4096 → a < phys ∨ phys + s.length < a → k'.mem a = k.mem a
  store : ∀ a, ¬k.Fresh a → (∀ i < 1024, a ≠ entryAddress (f i)) → k'.store a = k.store a

/-- `k'` is `k` after the string `s` was copied from the space of the task to `tmp`. -/
structure CopiedToPage (k k' : Kernel) (t : Task) (d : ℕ) (f e : ℕ → ℕ) (tmp : ℕ)
    (s : List UInt8) : Prop where
  maps : Maps k' t.pageDirectory d f e
  heap : k'.heapTable = k.heapTable
  mem : k'.mem = (k.withBytes tmp (s ++ [0])).mem
  store : ∀ a, (∀ i < 1024, a ≠ entryAddress (f i)) → k'.store a = k.store a

/-- Setting the entry of a page and putting the old one back. -/
theorem setPage_restore (e : ℕ → ℕ) (n v : ℕ) : setPage (setPage e n v) n (e n) = e := by
  funext m
  unfold setPage
  split_ifs with h
  · rw [h]
  · rfl

/-- The steps of `copy_string_from_task` in the space of the task : the page at `tmp` is mapped,
the string is copied there and the entry of the page is put back. -/
def copyToPage (chunk virt tmp n : ℕ) : KernelM (Int × List UInt8) := do
  let taskDirectory ← getChunk chunk
  let oldEntry ← pagingGet taskDirectory tmp
  let _ ← pagingMap chunk tmp tmp
    (pagingIsWriteable ||| pagingIsPresent ||| pagingAccessFromAll)
  pagingSwitch chunk
  let copied ← strncpyVirtual taskDirectory n tmp virt
  storeBytes (tmp + copied.length) [0]
  kernelPage
  let res ← pagingSet taskDirectory tmp oldEntry
  return (res, copied)

theorem copyStringFromTaskTo_eq (task virt phys : ℕ) (max : Int) :
    copyStringFromTaskTo task virt phys max = (do
      if max ≥ 4096 then return -EINVARG
      let tmp ← kzalloc (asUnsigned max)
      if tmp = 0 then return -ENOMEM
      let t ← getTask task
      let (res, _) ← copyToPage t.pageDirectory virt tmp (max - 1).toNat
      if res < 0 then
        kfree tmp
        return - EIO
      strncpy phys tmp max
      kfree tmp
      return res) := by
  simp only [copyStringFromTaskTo, copyToPage, bind_assoc, pure_bind]

theorem copyStringFromTask_eq (task virt : ℕ) (max : Int) :
    copyStringFromTask task virt max = (do
      if max ≥ 4096 then return (-EINVARG, [])
      let tmp ← kzalloc (asUnsigned max)
      if tmp = 0 then return (-ENOMEM, [])
      let t ← getTask task
      let (res, copied) ← copyToPage t.pageDirectory virt tmp (max - 1).toNat
      if res < 0 then
        kfree tmp
        return (- EIO, [])
      kfree tmp
      return (0, copied)) := by
  simp only [copyStringFromTask, copyToPage, bind_assoc, pure_bind]

theorem copyToPage_meets {tmp dk : ℕ} (hm : Maps k t.pageDirectory d f e)
    (hchunk : k.kernelChunk ≠ 0) (hstore : k.store k.kernelChunk = some (.chunk dk))
    (htmp : tmp % 4096 = 0) (htmp0 : tmp ≠ 0) (hlt : tmp < 4294967296) (hn : n < 4095)
    (hs : UserString k.mem e (tmp / 4096) virt s) (hv : virt < 4294967296) :
    Meets True (copyToPage t.pageDirectory virt tmp n) k fun r k' =>
      r = (0, s.take n) ∧ CopiedToPage k k' t d f e tmp (s.take n) := by
  obtain ⟨k₂, hmap, hm₂, ht₂⟩ := hm.pagingMap_run htmp hlt htmp
    (pagingIsWriteable ||| pagingIsPresent ||| pagingAccessFromAll)
  have hstore₂ : k₂.store k.kernelChunk = some (.chunk dk) := by
    rw [ht₂.store _ fun i hi he => ?_, hstore]
    obtain ⟨g, hg, -⟩ := hm.table i hi
    rw [← he, hstore] at hg
    cases hg
  have hchunk₂ : k₂.kernelChunk = k.kernelChunk :=
    show k₂.globals.kernelChunk = k.globals.kernelChunk by rw [ht₂.globals]
  -- the space is switched to, and the string is read
  have hm₃ : Maps { k₂ with currentDirectory := d } t.pageDirectory d f _ :=
    hm₂.congr fun _ _ => rfl
  have hs₃ : UserString ({ k₂ with currentDirectory := d } : Kernel).mem
      (setPage e (tmp / 4096) (tmp |||
        (pagingIsWriteable ||| pagingIsPresent ||| pagingAccessFromAll))) (tmp / 4096) virt s :=
    hs.congr (fun a _ => congrFun ht₂.mem a) fun m hm => if_neg hm
  have hcopy := strncpyVirtual_run s n tmp virt _ hm₃ hs₃ hv htmp0 (by omega) (by omega)
  set k₅ := ({ k₂ with currentDirectory := d } : Kernel).withBytes tmp (s.take n ++ [0]) with hk₅
  obtain ⟨k₇, hset, hm₇, ht₇⟩ := Maps.pagingSet_run (k := { k₅ with currentDirectory := dk })
    (hm₂.congr fun _ _ => rfl) htmp hlt (e (tmp / 4096))
  rw [setPage_restore] at hm₇
  have hswitch : pagingSwitch t.pageDirectory k₂ =
      some ((), { k₂ with currentDirectory := d }) := by
    simp only [pagingSwitch, run_bind, hm₂.getChunk_run, Option.bind_some]
    rfl
  have hkernel : kernelPage k₅ = some ((), { k₅ with currentDirectory := dk }) := by
    have hget : getChunk k₅.kernelChunk k₅ = some (dk, k₅) := by
      have hc : k₅.kernelChunk = k.kernelChunk := hchunk₂
      rw [hc]
      simp [getChunk, run_bind, Kernel.getObj_run hchunk (show k₅.store _ = _ from hstore₂),
        run_pure]
    simp only [kernelPage, run_bind, run_get, Option.bind_some, pagingSwitch, hget]
    rfl
  have hnul : storeBytes (tmp + (s.take n).length) [0]
      (({ k₂ with currentDirectory := d } : Kernel).withBytes tmp (s.take n)) = some ((), k₅) := by
    rw [Kernel.storeBytes_run (by omega), Kernel.withBytes_append]
  refine .of_run_eq (a := (0, s.take n)) (t := k₇) ?_
    ⟨rfl, hm₇, ht₇.heapTable.trans ht₂.heapTable, ?_, ?_⟩
  · simp only [copyToPage, run_bind, hm.getChunk_run, Option.bind_some,
      hm.pagingGet_run htmp hlt, hmap,
      hswitch, hcopy, hnul, hkernel, hset, run_pure]
  · rw [ht₇.mem]
    show k₅.mem = _
    funext a
    rw [hk₅, Kernel.withBytes_mem, Kernel.withBytes_mem]
    show (if _ then _ else k₂.mem a) = _
    rw [ht₂.mem]
  · intro a ha
    rw [ht₇.store a ha]
    exact ht₂.store a ha

/-- The string is copied out of the page, and the page is freed. -/
theorem CopiedToPage.copied {k₇ : Kernel} {size : ℕ}
    (h : CopiedToPage (k.allocated b size) k₇ t d f e (blockAddr b) s)
    (hfirst : FirstRun k.table.IsFree heapTotalBlocks 1 b) (hblocks : requestBlocks size = 1)
    (hkeep : ∀ a, ¬k.Fresh a → (k.allocated b size).store a = k.store a)
    (hspace : ∀ a, SpacePointer t.pageDirectory d f a → ¬k.Fresh a) (hs : ∀ c ∈ s, c ≠ 0)
    (hlen : s.length < 4095) (hsize : size ≤ 4096) :
    StringCopied k ((k₇.withBytes phys (s ++ [0])).release (blockAddr b)) t d f e b phys s where
  dest := Kernel.withBytes_stringIn hs k₇ phys
  heap := by
    have hin := hfirst.inside
    have hrun := hfirst.run
    rw [← hblocks] at hin hrun
    exact Kernel.release_allocated (by omega) hin hrun h.heap
  maps := by
    refine h.maps.congr fun a ha => ?_
    rw [Kernel.release_store, if_neg]
    · rfl
    · rintro rfl
      exact hspace _ ha ⟨b, by have := hfirst.inside; omega, rfl, hfirst.run b le_rfl (by omega)⟩
  mem a hpage hout := by
    have hmod := blockAddr_mod b
    have hlen' : (s ++ [0]).length = s.length + 1 := by simp
    show (k₇.withBytes phys (s ++ [0])).mem a = _
    rw [Kernel.withBytes_mem, if_neg (by omega), h.mem, Kernel.withBytes_mem, if_neg (by omega)]
    exact if_neg (by omega)
  store a ha hta := by
    have hne : a ≠ blockAddr b := by
      rintro rfl
      exact ha ⟨b, by have := hfirst.inside; omega, rfl, hfirst.run b le_rfl (by omega)⟩
    rw [Kernel.release_store, if_neg hne]
    exact (h.store a hta).trans (hkeep a ha)

section Borrowed

variable {dk : ℕ} (h : TaskAt k task t d f e) (hk : KernelSpace k dk)
  (hfirst : FirstRun k.table.IsFree heapTotalBlocks 1 b) (hmax : 1 ≤ max) (hmax' : max < 4096)
  (hs : UserString k.mem e (blockAddr b / 4096) virt s) (hv : virt < 4294967296)
include h hk hfirst hmax hmax' hs hv

/-- The block that is borrowed, and the copy to it. -/
theorem copyToPage_borrowed :
    kzalloc (asUnsigned max) k = some (blockAddr b, k.allocated b max.toNat) ∧
    (∀ a, ¬k.Fresh a → (k.allocated b max.toNat).store a = k.store a) ∧
    Meets True (copyToPage t.pageDirectory virt (blockAddr b) (max - 1).toNat)
      (k.allocated b max.toNat) fun r k' => r = (0, s.take (max - 1).toNat) ∧
        CopiedToPage (k.allocated b max.toNat) k' t d f e (blockAddr b)
          (s.take (max - 1).toNat) := by
  have hin := hfirst.inside
  have hfree : k.table.IsFree b := hfirst.run b le_rfl (by omega)
  have hfresh : k.Fresh (blockAddr b) := ⟨b, by omega, rfl, hfree⟩
  have hlt := blockAddr_lt (b := b) (by omega)
  have hmod := blockAddr_mod b
  have hsize : asUnsigned max = max.toNat := by
    unfold asUnsigned
    omega
  have hkz : kzalloc max.toNat k = some (blockAddr b, k.allocated b max.toNat) := by
    have hone : blocksFor max.toNat = 1 := by
      unfold blocksFor
      omega
    obtain ⟨b', hfirst', -, he⟩ := Kernel.kzalloc_hasRun (k := k) (show 1 ≤ max.toNat by omega)
      (hone ▸ hfirst.hasRun)
    rw [hone] at hfirst'
    obtain rfl := hfirst.unique hfirst'
    exact he
  have hkeep : ∀ a, ¬k.Fresh a → (k.allocated b max.toNat).store a = k.store a := fun a ha => by
    rw [Kernel.allocated_store, if_neg]
    rintro ⟨rfl, -⟩
    exact ha hfresh
  have hm₁ : Maps (k.allocated b max.toNat) t.pageDirectory d f e :=
    h.maps.congr fun a ha => hkeep a (h.space_not_fresh a ha)
  have hs₁ : UserString (k.allocated b max.toNat).mem e (blockAddr b / 4096) virt s := by
    refine hs.congr (fun a ha => ?_) fun _ _ => rfl
    show (if _ then _ else _) = _
    rw [if_neg (by omega)]
  rw [hsize]
  exact ⟨hkz, hkeep, copyToPage_meets hm₁ hk.ne_zero ((hkeep _ hk.not_fresh).trans hk.store) hmod
    (blockAddr_pos b) (by omega) (by omega) hs₁ hv⟩

/-- What the kernel has of the string, when it goes to a local array. -/
theorem copyStringFromTask_run : ∃ k',
    copyStringFromTask task virt max k = some ((0, s.take (max - 1).toNat), k') := by
  obtain ⟨hkz, hkeep, hcopy⟩ := copyToPage_borrowed h hk hfirst hmax hmax' hs hv
  have htotal : Meets True (copyStringFromTask task virt max) k fun r _ =>
      r = (0, s.take (max - 1).toNat) := by
    rw [copyStringFromTask_eq, if_neg (by omega), Meets.bind_iff]
    refine .of_run_eq hkz ?_
    rw [if_neg (blockAddr_pos b), Meets.bind_iff,
      Kernel.getTask_meets h.ne_zero ((hkeep _ h.not_fresh).trans h.self)]
    refine .bind hcopy ?_
    rintro _ k₇ ⟨rfl, -⟩
    show Meets True (if _ then _ else _) _ _
    rw [if_neg (lt_irrefl 0), kfree, Meets.bind_iff, Meets.modify_iff, Meets.pure_iff]
  obtain ⟨_, k', hrun, rfl⟩ := htotal.exists_result
  exact ⟨k', hrun⟩

end Borrowed

/-- With the first free block borrowed for the copy, a user string is copied, cut to
`max - 1` characters, and nothing of the borrowed page is left. -/
theorem copyStringFromTaskTo_restores {dk : ℕ} (h : TaskAt k task t d f e) (hk : KernelSpace k dk)
    (hfirst : FirstRun k.table.IsFree heapTotalBlocks 1 b) (hmax : 1 ≤ max) (hmax' : max < 4096)
    (hs : UserString k.mem e (blockAddr b / 4096) virt s) (hv : virt < 4294967296)
    (hphys : phys ≠ 0) (hout : phys + max.toNat ≤ blockAddr b ∨ blockAddr b + 4096 ≤ phys) :
    ∃ k', copyStringFromTaskTo task virt phys max k = some (0, k') ∧
      StringCopied k k' t d f e b phys (s.take (max - 1).toNat) := by
  obtain ⟨hkz, hkeep, hcopy⟩ := copyToPage_borrowed h hk hfirst hmax hmax' hs hv
  have hblocks : requestBlocks max.toNat = 1 := requestBlocks_one (by omega) (by omega)
  have htotal : Meets True (copyStringFromTaskTo task virt phys max) k fun res k' => res = 0 ∧
      StringCopied k k' t d f e b phys (s.take (max - 1).toNat) := by
    rw [copyStringFromTaskTo_eq, if_neg (by omega), Meets.bind_iff]
    refine .of_run_eq hkz ?_
    rw [if_neg (blockAddr_pos b), Meets.bind_iff,
      Kernel.getTask_meets h.ne_zero ((hkeep _ h.not_fresh).trans h.self)]
    refine .bind hcopy ?_
    rintro _ k₇ ⟨rfl, hpage⟩
    have hstr : StringIn k₇.mem (blockAddr b) (s.take (max - 1).toNat) := by
      rw [hpage.mem]
      exact Kernel.withBytes_stringIn (fun c hc => hs.ne_zero c (List.mem_of_mem_take hc)) _ _
    have hlen : (s.take (max - 1).toNat).length ≤ (max - 1).toNat := List.length_take_le _ _
    show Meets True (if _ then _ else _) _ _
    rw [if_neg (lt_irrefl 0), Meets.bind_iff]
    refine .of_run_eq (strncpy_run hphys hstr hlen (by omega)) ?_
    rw [kfree, Meets.bind_iff, Meets.modify_iff, Meets.pure_iff]
    exact ⟨rfl, hpage.copied hfirst hblocks hkeep h.space_not_fresh hstr.ne_zero
      (by omega) (by omega)⟩
  obtain ⟨_, k', hrun, rfl, hdone⟩ := htotal.exists_result
  exact ⟨k', hrun, hdone⟩

/-- The string `A` at the physical address 0x5000, mapped at 0x400000. -/
theorem copyStringFromTaskTo_restores_short : ∃ k k',
    copyStringFromTaskTo 0x901000 0x400000 0x800000 108 k = some (0, k') ∧
      StringIn k'.mem 0x800000 [65] ∧ k'.heapTable = k.heapTable := by
  set k₀ : Kernel := { Kernel.oneSpaceProcess Process.zero with
    kernelChunk := 4096
    mem := fun a => if a = 0x5000 then 65 else 0 } with hk₀
  have hat : ProcessAt k₀ _ _ _ _ _ _ := (Kernel.oneSpaceProcess_at Process.zero).congr
    fun _ _ => rfl
  have hvalid : MapToValid 0x400000 0x5000 0x6000 :=
    ⟨by decide, by decide, by decide, by decide⟩
  have hmapped : ∃ k, pagingMapTo 4096 0x400000 0x5000 0x6000 5 k₀ = some (0, k) ∧ _ :=
    pagingMapTo_valid hat.maps (by decide) hvalid
  obtain ⟨k, -, hm, ht⟩ := hmapped
  have hat' := hat.tables ht hm
  have hnf : ∀ a, ProcessPointer 0x900000 _ _ 8192 _ a → ¬k.Fresh a := fun a ha =>
    Kernel.oneSpaceProcess_not_fresh Process.zero ha k
  have hfree : ∀ i : ℕ, k.table.IsFree i := fun i => by
    show k.heapTable i = blockFree
    rw [ht.heapTable]
    rfl
  have hfirst : FirstRun k.table.IsFree heapTotalBlocks 1 0 :=
    ⟨by decide, fun i _ _ => hfree i, fun i hi => by omega⟩
  have hentry : mapTo (fun _ => 0) 0x400000 0x5000 0x6000 5 0x400 = 0x5000 ||| 5 :=
    mapTo_reached (by decide) (by decide) hvalid (m := 0) (by decide)
  have hpage : ∀ i ≤ 1, (0x400000 + i) % 4294967296 / 4096 = 0x400 := fun i hi => by omega
  have htr : ∀ i ≤ 1, translate (mapTo (fun _ => 0) 0x400000 0x5000 0x6000 5)
      ((0x400000 + i) % 4294967296) = 0x5000 + i := fun i hi =>
    translate_mapTo (by decide) (by decide) (by decide) hvalid (by omega)
  have hs : UserString k.mem (mapTo (fun _ => 0) 0x400000 0x5000 0x6000 5) (blockAddr 0 / 4096)
      0x400000 [65] := by
    refine ⟨by simp, fun i hi => ?_, fun i hi => ?_, fun i hi => ?_, fun i hi => ?_⟩
    · rw [hpage i hi, hentry]
      decide
    · have hi' : i ≤ 1 := hi
      rw [htr i hi, ht.mem]
      rcases Nat.le_one_iff_eq_zero_or_eq_one.mp hi' with rfl | rfl
      · rfl
      · rfl
    · rw [hpage i hi]
      decide
    · have hi' : i ≤ 1 := hi
      have hb : blockAddr 0 / 4096 = 4096 := rfl
      rw [htr i hi, hb]
      omega
  have htask : TaskAt k 0x901000 _ _ _ _ := ⟨hat'.task_ne, hat'.task, hat'.maps, hnf _ .task,
    fun a ha => by
      rcases ha with rfl | rfl | ⟨i, hi, rfl⟩
      · exact hnf _ .chunk
      · exact hnf _ .directory
      · exact hnf _ (.table hi)⟩
  have hchunk : k.kernelChunk = 4096 :=
    show k.globals.kernelChunk = k₀.globals.kernelChunk by rw [ht.globals]
  have hkernel : KernelSpace k 8192 := by
    refine ⟨by rw [hchunk]; decide, ?_, ?_⟩
    · rw [hchunk]
      exact hat'.maps.chunk
    · rw [hchunk]
      exact hnf _ .chunk
  obtain ⟨k', hrun, hdone⟩ := copyStringFromTaskTo_restores htask hkernel hfirst
    (show (1 : Int) ≤ 108 by decide) (by decide) hs (by decide) (show 0x800000 ≠ 0 by decide)
    (.inl (by decide))
  exact ⟨k, k', hrun, hdone.dest, hdone.heap⟩

end Hyperion
