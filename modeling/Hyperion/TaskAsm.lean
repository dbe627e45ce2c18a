import Hyperion.Lib.X86
import Hyperion.Task

/-!
# `task.asm`

`task_return` loads the registers of a task and leaves the kernel with `iretd`. It calls
`restore_general_purpose_registers`, which follows it in the file.

The two routines are lists of instructions (`taskAsm`), loaded anywhere. `task_return` first puts
the five words for `iretd` on its stack (`exec_taskReturnPush`), which needs room there, apart from
the registers (`FrameRoom`). Then it calls the other routine, whose last step before `ret` takes
the caller's `ebp` from the stack, over the one that was restored
(`exec_restoreGeneralPurposeRegisters`). `taskReturn_runs` goes from the entry to the `iretd`.
-/

namespace Hyperion

open X86

/-- `task_return` up to the call. -/
def taskReturnPush : List Straight := [
  .mov .ebp .esp,
  -- the structure passed to us
  .load .ebx .ebp 4,
  .pushMem .ebx 44,
  .pushMem .ebx 40,
  .pushf,
  .pop .eax,
  .or .eax 0x200,
  .push .eax,
  .pushMem .ebx 32,
  .pushMem .ebx 28,
  .loadAx .ebx 44,
  .movSeg .ds,
  .movSeg .es,
  .movSeg .fs,
  .movSeg .gs,
  .pushMem .ebp 4]

/-- `restore_general_purpose_registers` up to `ret`. -/
def restoreGeneralPurposeRegisters : List Straight := [
  .push .ebp,
  .mov .ebp .esp,
  .load .ebx .ebp 8,
  .load .edi .ebx 0,
  .load .esi .ebx 4,
  .load .ebp .ebx 8,
  .load .edx .ebx 16,
  .load .ecx .ebx 20,
  .load .eax .ebx 24,
  .load .ebx .ebx 12,
  .pop .ebp]

/-- The two routines, with the second one at the address `restore`. -/
def taskAsm (restore : ℕ) : List Instr :=
  taskReturnPush.map .straight ++
    [.call restore, .straight (.add .esp 4), .iretd] ++
    restoreGeneralPurposeRegisters.map .straight ++ [.ret]

variable {alu : AluFlags} {code : Code} {addrs : ℕ → ℕ} {c : Cpu} {e p : ℕ}

/-- Room for the stack frame of `task_return` entered at `e`, apart from the registers
at `p`. -/
structure FrameRoom (e p : ℕ) : Prop where
  below : 32 ≤ e
  above : e + 8 ≤ 4294967296
  inside : p + 48 ≤ 4294967296
  apart : p + 48 ≤ e - 32 ∨ e ≤ p

/-- The stack when `task_return` calls, without the return address : the five words for
`iretd` under the argument. -/
theorem exec_taskReturnPush (hroom : FrameRoom e p) (he : c.reg .esp = e)
    (hp : read32 c.mem (e + 4) = p) :
    Window.After alu c taskReturnPush fun c' =>
      ∃ known, known .ebp = some e ∧ Window (e - 32) e c.mem
        [p, read32 c.mem (p + 28), read32 c.mem (p + 32), flagsImage c.eflags ||| 0x200,
          read32 c.mem (p + 40), read32 c.mem (p + 44)] known none c' := by
  obtain ⟨hbelow, habove, hinside, hapart⟩ := hroom
  have hflags : flagsImage c.eflags ||| 0x200 < 4294967296 :=
    Nat.or_lt_two_pow (n := 32) (flagsImage_lt _) (by decide)
  have h : Window (e - 32) e c.mem [] (fun _ => none) (some c.eflags) c :=
    ⟨by simpa using he, by simp, fun _ _ => rfl, by simp, by simp⟩
  unfold taskReturnPush
  refine h.mov_esp (by decide) fun c h => ?_
  refine h.load (b := e) (by decide) (by decide) rfl (by omega) (by omega) fun c h => ?_
  rw [hp] at h
  refine h.pushMem (b := p) (by omega) (by simp; omega) (by decide) rfl (by omega) (by omega)
    fun c h => ?_
  refine h.pushMem (b := p) (by omega) (by simp; omega) (by decide) rfl (by omega) (by omega)
    fun c h => ?_
  refine h.pushf (by omega) (by simp; omega) fun c h => ?_
  refine h.pop (by omega) (by decide) fun c h => ?_
  refine h.or (by decide) rfl fun c h => ?_
  refine h.pushReg (by omega) (by simp; omega) (by decide) rfl hflags fun c h => ?_
  refine h.pushMem (b := p) (by omega) (by simp; omega) (by decide) rfl (by omega) (by omega)
    fun c h => ?_
  refine h.pushMem (b := p) (by omega) (by simp; omega) (by decide) rfl (by omega) (by omega)
    fun c h => ?_
  refine h.loadAx fun c h => h.movSeg fun c h => h.movSeg fun c h => h.movSeg fun c h =>
    h.movSeg fun c h => ?_
  refine h.pushMem (b := e) (by omega) (by simp; omega) (by decide) rfl (by omega) (by omega)
    fun c h => ?_
  rw [hp] at h
  exact ⟨_, rfl, h⟩

/-- The registers when `restore_general_purpose_registers` returns. `pop ebp` puts the
caller's `ebp` over the one that was just loaded. -/
theorem exec_restoreGeneralPurposeRegisters {m : Memory} {known : Reg → Option ℕ} {ra : ℕ}
    {ws : List ℕ} (hroom : FrameRoom e p) (hws : ws.length = 5) (hebp : known .ebp = some e)
    (h : Window (e - 32) e m (ra :: p :: ws) known none c) :
    Window.After alu c restoreGeneralPurposeRegisters fun c' =>
      ∃ known', Window (e - 32) e m (ra :: p :: ws) known' none c' ∧ known' .ebp = some e ∧
        known' .edi = some (read32 m p) ∧ known' .esi = some (read32 m (p + 4)) ∧
        known' .ebx = some (read32 m (p + 12)) ∧ known' .edx = some (read32 m (p + 16)) ∧
        known' .ecx = some (read32 m (p + 20)) ∧ known' .eax = some (read32 m (p + 24)) := by
  obtain ⟨hbelow, habove, hinside, hapart⟩ := hroom
  unfold restoreGeneralPurposeRegisters
  refine h.pushReg (by omega) (by simp; omega) (by decide) hebp (by omega) fun c h => ?_
  refine h.mov_esp (by decide) fun c h => ?_
  refine h.load_word (b := e - 32) (i := 2) (by decide) (by decide) (by simp [hws]) (by omega) rfl
    (by simp; omega) fun c h => ?_
  refine h.load (b := p) (by decide) (by decide) rfl (by omega) (by omega) fun c h => ?_
  refine h.load (b := p) (by decide) (by decide) rfl (by omega) (by omega) fun c h => ?_
  refine h.load (b := p) (by decide) (by decide) rfl (by omega) (by omega) fun c h => ?_
  refine h.load (b := p) (by decide) (by decide) rfl (by omega) (by omega) fun c h => ?_
  refine h.load (b := p) (by decide) (by decide) rfl (by omega) (by omega) fun c h => ?_
  refine h.load (b := p) (by decide) (by decide) rfl (by omega) (by omega) fun c h => ?_
  refine h.load (b := p) (by decide) (by decide) rfl (by omega) (by omega) fun c h => ?_
  refine h.pop (by omega) (by decide) fun c h => ?_
  exact ⟨_, h, rfl, rfl, rfl, rfl, rfl, rfl, rfl⟩

/-- What `task_return` has set up when it comes to `iretd`. -/
structure AtIretd (e p : ℕ) (m : Memory) (eflags : ℕ) (c : Cpu) : Prop where
  edi : c.reg .edi = read32 m p
  esi : c.reg .esi = read32 m (p + 4)
  ebp : c.reg .ebp = e
  ebx : c.reg .ebx = read32 m (p + 12)
  edx : c.reg .edx = read32 m (p + 16)
  ecx : c.reg .ecx = read32 m (p + 20)
  eax : c.reg .eax = read32 m (p + 24)
  esp : c.reg .esp + 20 = e
  ip : read32 c.mem (c.reg .esp) = read32 m (p + 28)
  cs : read32 c.mem (c.reg .esp + 4) = read32 m (p + 32)
  flags : read32 c.mem (c.reg .esp + 8) = flagsImage eflags ||| 0x200
  userEsp : read32 c.mem (c.reg .esp + 12) = read32 m (p + 40)
  ss : read32 c.mem (c.reg .esp + 16) = read32 m (p + 44)

/-- `task_return` runs to its `iretd`. -/
theorem taskReturn_runs (hroom : FrameRoom e p) (hcode : Loaded code addrs (taskAsm (addrs 19)))
    (hra : addrs 17 < 4294967296) (heip : c.eip = addrs 0) (he : c.reg .esp = e)
    (hp : read32 c.mem (e + 4) = p) :
    ∃ c', Runs alu code c c' ∧ code c'.eip = some (.iretd, addrs 19) ∧
      AtIretd e p c.mem c.eflags c' := by
  have hhi : e < 4294967296 := by
    have := hroom.above
    omega
  have hexec : Window.After alu c taskReturnPush _ := exec_taskReturnPush hroom he hp
  obtain ⟨known, hebp, h⟩ := hexec
  have hpush : Runs alu code c ((execAll alu c taskReturnPush).goto (addrs 16)) :=
    exec_block hcode ⟨_, rfl⟩ heip
  generalize execAll alu c taskReturnPush = c₁ at h hpush
  have hcall : Runs alu code (c₁.goto (addrs 16)) _ := .call (hcode 16 _ rfl)
  have hlen : e - 32 + 4 * (6 + 1) ≤ e := by
    have := hroom.below
    omega
  have h₂ := ((h.goto (addrs 16)).push (v := addrs 17) (by omega) hlen hra).goto (addrs 19)
  have heip₂ : (((c₁.goto (addrs 16)).push (addrs 17)).goto (addrs 19)).eip = addrs 19 := rfl
  generalize ((c₁.goto (addrs 16)).push (addrs 17)).goto (addrs 19) = c₂ at hcall h₂ heip₂
  have hrestore : Runs alu code c₂
      ((execAll alu c₂ restoreGeneralPurposeRegisters).goto (addrs 30)) :=
    exec_block hcode ⟨_, rfl⟩ heip₂
  have hexec₂ : Window.After alu c₂ restoreGeneralPurposeRegisters _ :=
    exec_restoreGeneralPurposeRegisters hroom rfl hebp h₂
  obtain ⟨known', h₃, hebp', hedi, hesi, hebx, hedx, hecx, heax⟩ := hexec₂
  generalize execAll alu c₂ restoreGeneralPurposeRegisters = c₃ at h₃ hrestore
  -- back at the caller, which drops the argument
  have hret : Runs alu code (c₃.goto (addrs 30)) _ := .ret (hcode 30 _ rfl)
  rw [(h₃.goto (addrs 30)).top] at hret
  have h₄ := ((h₃.goto (addrs 30)).drop hhi).goto (addrs 17)
  have heip₄ : (((c₃.goto (addrs 30)).drop 4).goto (addrs 17)).eip = addrs 17 := rfl
  generalize ((c₃.goto (addrs 30)).drop 4).goto (addrs 17) = c₄ at h₄ hret heip₄
  have hadd : Runs alu code c₄ ((execAll alu c₄ [.add .esp 4]).goto (addrs 18)) :=
    exec_block hcode ⟨_, rfl⟩ heip₄
  have hend : Window.After alu c₄ [.add .esp 4] (Window (e - 32) e c.mem _ known' none) :=
    h₄.add_esp hhi fun _ h => h
  unfold Window.After at hend
  generalize execAll alu c₄ [.add .esp 4] = c' at hadd hend
  refine ⟨c'.goto (addrs 18), hpush.trans (hcall.trans (hrestore.trans (hret.trans hadd))),
    hcode 18 _ rfl, ?_⟩
  refine ⟨hend.reg _ _ (by decide) hedi, hend.reg _ _ (by decide) hesi,
    hend.reg _ _ (by decide) hebp', hend.reg _ _ (by decide) hebx,
    hend.reg _ _ (by decide) hedx, hend.reg _ _ (by decide) hecx,
    hend.reg _ _ (by decide) heax, ?_, ?_, ?_, ?_, ?_, ?_⟩
  · simpa using hend.esp
  · simpa using hend.word 0 _ rfl
  · simpa using hend.word 1 _ rfl
  · simpa using hend.word 2 _ rfl
  · simpa using hend.word 3 _ rfl
  · simpa using hend.word 4 _ rfl

end Hyperion
