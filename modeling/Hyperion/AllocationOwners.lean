import Hyperion.AllocationRuns
import Hyperion.Release
import Hyperion.Lib.DList

/-!
# The owners of allocations

Runs of `process_malloc` and `process_free` by any number of processes on one heap. As long as no
request is answered with a block that is not taken, what a process has recorded is allocated and
is its own, so that the pointers that are handed out are not handed out again before their owner
has freed them (`allocation_run_owned`).

`Holds` is the invariant of one process : its structures and its allocations are taken, are
different, and belong to it in a ledger that gives every block of the heap to one process at most.
`Holds.step` is a call by the process itself, where a new pointer comes from blocks that belonged
to nobody, and `Holds.step_other` a call by another one. `SharedHeap` puts the processes together,
and `CallOwned` is what a call leaves to them.

Whether a request takes a block is decided before it is made (`AllocCall.Reserves`). A request of
0 bytes takes none while the last block of the heap is free, since the search then answers a run
without blocks, and two such requests get the same pointer (`allocation_run_twice`).
-/

namespace Hyperion

open Partial FreeRun

variable {k k' k₀ : Kernel} {process size ptr a b n i res : ℕ} {p : Process} {t : Task} {d : ℕ}
  {f e e' : ℕ → ℕ} {al al' : ℕ → ProcessAllocation} {L : ℕ → Option ℕ} {call : AllocCall}

/-! ## What is taken -/

/-- The records of the process at `process`. -/
def Kernel.records (k : Kernel) (process : ℕ) : ℕ → ProcessAllocation :=
  match k.store process with
  | some (.process p) => p.allocations
  | _ => fun _ => ⟨0, 0⟩

theorem ProcessAt.records (h : ProcessAt k process p t d f e) :
    k.records process = p.allocations := by
  rw [Kernel.records, h.self]

/-- The request takes a block : it is not empty, or null is the answer because the last block of
the heap or every record of the process is in use. -/
def AllocCall.Reserves (k : Kernel) (process : ℕ) : AllocCall → Prop
  | .malloc size => size ≠ 0 ∨ ¬k.table.IsFree (heapTotalBlocks - 1) ∨
      ∀ i < maxProgramAllocations, (k.records process i).ptr ≠ 0
  | .free _ => True

theorem Kernel.Serves.pos (h : k.Serves size b)
    (hc : size ≠ 0 ∨ ¬k.table.IsFree (heapTotalBlocks - 1)) : 0 < requestBlocks size := by
  by_cases h0 : size = 0
  · have hlast : ¬k.table.IsFree (heapTotalBlocks - 1) := hc.resolve_left fun hne => hne h0
    have hzero : requestBlocks size = 0 := by
      rw [h0]
      decide
    rcases heapGetStartBlock_cases k.heap (requestBlocks size) with ⟨s, -, hpos, -⟩ |
      ⟨s, -, -, hs⟩ | ⟨hs, -⟩
    · exact hpos
    · have htotal : k.heap.table.total = heapTotalBlocks := rfl
      have hlt := hs.lt
      exact absurd (hs.run _ (by omega) (by omega)) hlast
    · have hneg := h.start.symm.trans hs
      unfold ENOMEM at hneg
      omega
  · refine requestBlocks_pos (by omega) ?_
    have := h.fits
    unfold blockAddr heapAddress at this
    omega

/-- An allocation, or a pointer that is not in the heap. -/
def Kernel.Placed (k : Kernel) (a : ℕ) : Prop := (∃ n, k.Owns a n) ∨ ∀ b, a ≠ blockAddr b

theorem Kernel.Placed.not_fresh (h : k.Placed a) : ¬k.Fresh a := by
  rcases h with ⟨n, hn⟩ | hout
  · exact hn.not_fresh
  · rintro ⟨b, -, rfl, -⟩
    exact hout b rfl

theorem Kernel.Placed.imp (h : k.Placed a) (hi : ∀ n, k.Owns a n → k'.Owns a n) : k'.Placed a :=
  h.imp_left fun ⟨n, hn⟩ => ⟨n, hi n hn⟩

theorem Kernel.Placed.without {F : ℕ → Prop} (h : k.Placed a) (hF : ¬F a) :
    (k.without F).Placed a :=
  h.imp fun _ ho => ho.without hF

/-- A call takes nothing from an allocation, apart from the one that it frees. -/
theorem AllocEffect.owns (h : AllocEffect k k' al e call res al' e') (hg : Guarded k.table)
    (hrec : ∀ i < maxProgramAllocations, (al i).ptr ≠ 0 → ∃ n, k.Owns (al i).ptr n)
    (ho : k.Owns a n) (hne : ∀ i < maxProgramAllocations, call = .free (al i).ptr →
      a ≠ (al i).ptr) :
    k'.Owns a n := by
  have htable {k₁ : Kernel} (he : k'.heapTable = k₁.heapTable) (ho₁ : k₁.Owns a n) : k'.Owns a n :=
    ho₁.of_table (by simp [Kernel.table, Kernel.heap, he])
  cases h with
  | nothing he => exact he ▸ ho
  | refused hb he => exact htable he ((hb.ext.release hb.fresh).owns ho)
  | served hb _ _ he => exact htable he (hb.ext.owns ho)
  | @freed ptr j hj hptr he =>
    by_cases h0 : ptr = 0
    · subst h0
      exact htable he (((Kernel.Extends.refl k).release_null hg).owns ho)
    · obtain ⟨m, hm⟩ := hrec j hj (hptr.trans_ne h0)
      exact htable he (ho.release_other (hptr ▸ hm) (hptr ▸ hne j hj (by rw [hptr])))

/-! ## The owners -/

/-- `ptr` is in a record of the process that is in use. -/
def Process.Recorded (p : Process) (ptr : ℕ) : Prop :=
  ptr ≠ 0 ∧ ∃ i < maxProgramAllocations, (p.allocations i).ptr = ptr

open scoped Classical in
/-- The ledger when everything that was free in `k` belongs to `process`. -/
noncomputable def ledgerFor (L : ℕ → Option ℕ) (k : Kernel) (process a : ℕ) : Option ℕ :=
  if k.Fresh a then some process else L a

theorem ledgerFor_of_not_fresh (h : ¬k.Fresh a) : ledgerFor L k process a = L a := if_neg h

theorem ledgerFor_of_fresh (h : k.Fresh a) : ledgerFor L k process a = some process := if_pos h

/-- The structures of the process at `process` and its allocations are taken, are different and
belong to it in the ledger `L`. -/
structure Holds (L : ℕ → Option ℕ) (k : Kernel) (process : ℕ) (p : Process) (t : Task) (d : ℕ)
    (f e : ℕ → ℕ) : Prop where
  at_process : ProcessAt k process p t d f e
  space : ∀ a, ProcessPointer process p t d f a → L a = some process ∧ k.Placed a
  owned : ∀ i < maxProgramAllocations, (p.allocations i).ptr ≠ 0 →
    L (p.allocations i).ptr = some process ∧
      k.Owns (p.allocations i).ptr (requestBlocks (p.allocations i).size)
  apart : ∀ a, ProcessPointer process p t d f a → ¬p.Recorded a
  distinct : ∀ i < maxProgramAllocations, ∀ j < maxProgramAllocations, (p.allocations i).ptr ≠ 0 →
    (p.allocations i).ptr = (p.allocations j).ptr → i = j

namespace Holds

/-- The process as it was before it allocated. -/
theorem allocState (h : Holds L k process p t d f e) :
    AllocState (k.without p.Recorded) process p t d f k p.allocations e where
  keeps := k.without_keeps _
  at_process := h.at_process
  pointers a ha := ((h.space a ha).2.without (h.apart a ha)).not_fresh
  records i hi := by
    by_cases h0 : (p.allocations i).ptr = 0
    · exact .inl h0
    · exact .inr ((h.owned i hi h0).2.fresh_without ⟨h0, i, hi, rfl⟩)

theorem owns_recorded (h : Holds L k process p t d f e) (ha : p.Recorded a) :
    L a = some process ∧ ∃ n, k.Owns a n := by
  obtain ⟨h0, i, hi, rfl⟩ := ha
  exact ⟨(h.owned i hi h0).1, _, (h.owned i hi h0).2⟩

/-- A process is left as it was. -/
theorem frame {L' : ℕ → Option ℕ} (h : Holds L k process p t d f e)
    (hstore : ∀ a, ProcessPointer process p t d f a → k'.store a = k.store a)
    (hL : ∀ a, L a = some process → k.Placed a → L' a = some process)
    (howns : ∀ a n, L a = some process → k.Owns a n → k'.Owns a n) :
    Holds L' k' process p t d f e where
  at_process := h.at_process.congr hstore
  space a ha := by
    obtain ⟨hLa, hplaced⟩ := h.space a ha
    exact ⟨hL a hLa hplaced, hplaced.imp fun n => howns a n hLa⟩
  owned i hi h0 := by
    obtain ⟨hLa, ho⟩ := h.owned i hi h0
    exact ⟨hL _ hLa (.inl ⟨_, ho⟩), howns _ _ hLa ho⟩
  apart := h.apart
  distinct := h.distinct

/-- The records after a request has been answered with block `b`. -/
theorem served (h : Holds L k process p t d f e) (hf : k.Fresh (blockAddr b))
    (howns : ∀ a n, k.Owns a n → k'.Owns a n)
    (ho : k'.Owns (blockAddr b) (requestBlocks size))
    (hat : ProcessAt k' process (p.withRecords fun j => if j = i then ⟨blockAddr b, size⟩
      else p.allocations j) t d f e') :
    Holds (ledgerFor L k process) k' process (p.withRecords fun j => if j = i then
      ⟨blockAddr b, size⟩ else p.allocations j) t d f e' := by
  have hkeep {a : ℕ} (hLa : L a = some process) (ha : k.Placed a) :
      ledgerFor L k process a = some process := (ledgerFor_of_not_fresh ha.not_fresh).trans hLa
  have hold {j : ℕ} (hj : j < maxProgramAllocations) (h0 : (p.allocations j).ptr ≠ 0) :
      (p.allocations j).ptr ≠ blockAddr b := fun he => (h.owned j hj h0).2.not_fresh (he ▸ hf)
  refine ⟨hat, fun a ha => ?_, fun j hj h0 => ?_, fun a ha hrec => ?_, fun j hj j' hj' h0 he => ?_⟩
  · obtain ⟨hLa, hplaced⟩ := h.space a (ProcessPointer.withRecords.mp ha)
    exact ⟨hkeep hLa hplaced, hplaced.imp (howns a)⟩
  · simp only [Process.withRecords] at h0 ⊢
    split_ifs at h0 ⊢
    · exact ⟨ledgerFor_of_fresh hf, ho⟩
    · obtain ⟨hLa, ho'⟩ := h.owned j hj h0
      exact ⟨hkeep hLa (.inl ⟨_, ho'⟩), howns _ _ ho'⟩
  · have ha' : ProcessPointer process p t d f a := ProcessPointer.withRecords.mp ha
    obtain ⟨h0, j, hj, he⟩ := hrec
    simp only [Process.withRecords] at he
    split_ifs at he
    · exact (h.space a ha').2.not_fresh (he ▸ hf)
    · exact h.apart a ha' ⟨h0, j, hj, he⟩
  · simp only [Process.withRecords] at h0 he
    split_ifs at h0 he with hji hji' hji'
    · rw [hji, hji']
    · exact absurd he.symm (hold hj' (he ▸ h0))
    · exact absurd he (hold hj h0)
    · exact h.distinct j hj j' hj' h0 he

/-- The records after a pointer has been freed. -/
theorem freed (h : Holds L k process p t d f e)
    (howns : ∀ a n, a ≠ ptr → k.Owns a n → k'.Owns a n) (hptr : ptr = 0 ∨ p.Recorded ptr)
    (hat : ProcessAt k' process (p.withRecords fun i => if i < maxProgramAllocations ∧
      (p.allocations i).ptr = ptr then ⟨0, 0⟩ else p.allocations i) t d f e') :
    Holds (ledgerFor L k process) k' process (p.withRecords fun i => if i < maxProgramAllocations ∧
      (p.allocations i).ptr = ptr then ⟨0, 0⟩ else p.allocations i) t d f e' := by
  have hkeep {a : ℕ} (hLa : L a = some process) (ha : k.Placed a) :
      ledgerFor L k process a = some process := (ledgerFor_of_not_fresh ha.not_fresh).trans hLa
  refine ⟨hat, fun a ha => ?_, fun j hj h0 => ?_, fun a ha hrec => ?_, fun j hj j' hj' h0 he => ?_⟩
  · have ha' : ProcessPointer process p t d f a := ProcessPointer.withRecords.mp ha
    obtain ⟨hLa, hplaced⟩ := h.space a ha'
    have hne : a ≠ ptr := by
      rintro rfl
      rcases hptr with h0 | hrec
      · exact (h.at_process.exists_obj ha').1 h0
      · exact h.apart a ha' hrec
    exact ⟨hkeep hLa hplaced, hplaced.imp fun n => howns a n hne⟩
  · simp only [Process.withRecords] at h0 ⊢
    split_ifs at h0 ⊢ with hc
    · exact absurd rfl h0
    · obtain ⟨hLa, ho⟩ := h.owned j hj h0
      exact ⟨hkeep hLa (.inl ⟨_, ho⟩), howns _ _ (fun he => hc ⟨hj, he⟩) ho⟩
  · obtain ⟨h0, j, hj, he⟩ := hrec
    simp only [Process.withRecords] at he
    split_ifs at he
    · exact h0 he.symm
    · exact h.apart a (ProcessPointer.withRecords.mp ha) ⟨h0, j, hj, he⟩
  · simp only [Process.withRecords] at h0 he
    split_ifs at h0 he
    · exact absurd rfl h0
    · exact absurd rfl h0
    · exact absurd he h0
    · exact h.distinct j hj j' hj' h0 he

/-- A call by one process. -/
theorem step (hg : Guarded k.table) (h : Holds L k process p t d f e)
    (hstep : AllocStep k ⟨process, call, res⟩ k') (hc : call.Reserves k process) : ∃ al e',
      AllocEffect k k' p.allocations e call res al e' ∧
      Holds (ledgerFor L k process) k' process (p.withRecords al) t d f e' := by
  obtain ⟨al, e', heffect, hstate, -, -⟩ := h.allocState.step (Kernel.without_guarded hg) hstep
  have hrec {i : ℕ} (hi : i < maxProgramAllocations) (h0 : (p.allocations i).ptr ≠ 0) :
      ∃ n, k.Owns (p.allocations i).ptr n := ⟨_, (h.owned i hi h0).2⟩
  have howns {a n : ℕ} (ho : k.Owns a n) (hne : ∀ ptr, call = .free ptr → a ≠ ptr) :
      k'.Owns a n := heffect.owns hg (fun i hi h0 => hrec hi h0) ho fun i _ => hne _
  have hsame (hcall : ∀ a n, k.Owns a n → k'.Owns a n)
      (hat : ProcessAt k' process (p.withRecords p.allocations) t d f e) :
      Holds (ledgerFor L k process) k' process (p.withRecords p.allocations) t d f e := by
    have hkeep {a : ℕ} (hLa : L a = some process) (ha : k.Placed a) :
        ledgerFor L k process a = some process := (ledgerFor_of_not_fresh ha.not_fresh).trans hLa
    exact ⟨hat, fun a ha => ⟨hkeep (h.space a ha).1 (h.space a ha).2,
      (h.space a ha).2.imp (hcall a)⟩,
      fun i hi h0 => ⟨hkeep (h.owned i hi h0).1 (.inl (hrec hi h0)), hcall _ _ (h.owned i hi h0).2⟩,
      h.apart, h.distinct⟩
  refine ⟨al, e', heffect, ?_⟩
  have hat := hstate.at_process
  cases heffect with
  | nothing he => exact hsame (fun a n ho => he ▸ ho) hat
  | refused hb he => exact hsame (fun a n ho => howns ho fun _ h => nomatch h) hat
  | @served size b i hb hi h0 he =>
    have hpos : 0 < requestBlocks size := hb.pos <| hc.imp_right fun hor => hor.resolve_right
      fun hall => hall i hi (by rw [h.at_process.records, h0])
    have hself : k'.Owns (blockAddr b) (requestBlocks size) :=
      (Kernel.allocated_owns (k := k) hb.lt hpos).of_table (by simp [Kernel.table, Kernel.heap, he])
    exact h.served hb.fresh (fun a n ho => howns ho fun _ h => nomatch h) hself hat
  | @freed ptr j hj hptr he =>
    refine h.freed (fun a n hne ho => howns ho ?_) ?_ hat
    · rintro _ ⟨⟩
      exact hne
    · by_cases h0 : ptr = 0
      · exact .inl h0
      · exact .inr ⟨h0, j, hj, hptr⟩

/-- A call by another process. -/
theorem step_other {process' d' : ℕ} {p' : Process} {t' : Task} {f' e'' : ℕ → ℕ}
    (hg : Guarded k.table) (h : Holds L k process p t d f e)
    (hstep : AllocStep k ⟨process, call, res⟩ k')
    (h' : Holds L k process' p' t' d' f' e'') (hne : process' ≠ process) :
    Holds (ledgerFor L k process) k' process' p' t' d' f' e'' := by
  obtain ⟨al, e', heffect, hstate, hstore, -⟩ := h.allocState.step (Kernel.without_guarded hg) hstep
  have hother {a : ℕ} (hL : L a = some process') : ¬L a = some process := fun hL' =>
    hne (Option.some.inj (hL.symm.trans hL'))
  refine h'.frame (fun a ha => ?_) (fun a hL ha => (ledgerFor_of_not_fresh ha.not_fresh).trans hL)
    fun a n hL ho => ?_
  · obtain ⟨hL, hplaced⟩ := h'.space a ha
    exact hstore a (h'.at_process.exists_obj ha).1
      (hplaced.without fun hrec => hother hL (h.owns_recorded hrec).1).not_fresh
      fun hp => hother hL (h.space a hp).1
  · refine heffect.owns hg (fun i hi h0 => ⟨_, (h.owned i hi h0).2⟩) ho fun i hi _ he => ?_
    exact hother hL (he ▸ (h.owned i hi (he ▸ ho.ne_zero)).1)

theorem step_guarded (hg : Guarded k.table) (h : Holds L k process p t d f e)
    (hstep : AllocStep k ⟨process, call, res⟩ k') : Guarded k'.table := by
  obtain ⟨al, e', -, hstate, -, -⟩ := h.allocState.step (Kernel.without_guarded hg) hstep
  exact hstate.keeps.guarded (Kernel.without_guarded hg)

end Holds

/-! ## Runs -/

/-- The processes of `S` share the heap : each holds its structures and its allocations. -/
structure SharedHeap (S : ℕ → Prop) (k : Kernel) : Prop where
  guarded : Guarded k.table
  holds : ∃ L, ∀ process, S process → ∃ p t d f e, Holds L k process p t d f e

/-- What a call leaves to the processes of `S`. -/
structure CallOwned (S : ℕ → Prop) (k : Kernel) (x : AllocEvent) (k' : Kernel) : Prop where
  kept : ∀ process, S process → ∀ i < maxProgramAllocations, (k.records process i).ptr ≠ 0 →
    ¬(process = x.process ∧ x.call = .free (k.records process i).ptr) →
    k'.records process i = k.records process i
  fresh : x.result ≠ 0 →
    (∀ process, S process → ∀ i < maxProgramAllocations, (k.records process i).ptr ≠ x.result) ∧
      ∃ i < maxProgramAllocations, (k'.records x.process i).ptr = x.result

variable {S : ℕ → Prop} {x : AllocEvent}

theorem SharedHeap.owns (h : SharedHeap S k) (hS : S process) (hi : i < maxProgramAllocations)
    (h0 : (k.records process i).ptr ≠ 0) :
    k.Owns (k.records process i).ptr (requestBlocks (k.records process i).size) := by
  obtain ⟨L, hL⟩ := h.holds
  obtain ⟨p, t, d, f, e, hp⟩ := hL process hS
  rw [hp.at_process.records] at h0 ⊢
  exact (hp.owned i hi h0).2

theorem SharedHeap.step (h : SharedHeap S k) (hstep : AllocStep k x k') (hS : S x.process)
    (hc : x.call.Reserves k x.process) : SharedHeap S k' ∧ CallOwned S k x k' := by
  obtain ⟨process, call, res⟩ := x
  obtain ⟨L, hL⟩ := h.holds
  obtain ⟨p, t, d, f, e, hp⟩ := hL process hS
  obtain ⟨al, e', heffect, hp'⟩ := hp.step h.guarded hstep hc
  have hother {q : ℕ} (hq : S q) (hne : q ≠ process) : ∃ p t d f e, Holds L k q p t d f e ∧
      Holds (ledgerFor L k process) k' q p t d f e := by
    obtain ⟨p₁, t₁, d₁, f₁, e₁, h₁⟩ := hL q hq
    exact ⟨p₁, t₁, d₁, f₁, e₁, h₁, hp.step_other h.guarded hstep h₁ hne⟩
  refine ⟨⟨hp.step_guarded h.guarded hstep, ledgerFor L k process, fun q hq => ?_⟩, ?_, ?_⟩
  · by_cases hne : q = process
    · subst hne
      exact ⟨_, _, _, _, _, hp'⟩
    · obtain ⟨p₁, t₁, d₁, f₁, e₁, -, h₁⟩ := hother hq hne
      exact ⟨p₁, t₁, d₁, f₁, e₁, h₁⟩
  · intro q hq i hi h0 hno
    by_cases hne : q = process
    · subst hne
      rw [hp.at_process.records] at h0 hno ⊢
      rw [hp'.at_process.records]
      show al i = _
      cases heffect with
      | nothing => rfl
      | refused => rfl
      | served _ _ h0' _ => 
        refine if_neg ?_
        rintro rfl
        exact h0 h0'
      | freed _ _ _ => exact if_neg fun hc => hno ⟨rfl, by rw [hc.2]⟩
    · obtain ⟨p₁, t₁, d₁, f₁, e₁, h₁, h₁'⟩ := hother hq hne
      rw [h₁.at_process.records, h₁'.at_process.records]
  · intro hres
    cases heffect with
    | nothing => exact absurd rfl hres
    | refused => exact absurd rfl hres
    | @served size b i hb hi _ _ =>
      refine ⟨fun q hq j hj he => ?_, i, hi, ?_⟩
      · exact (h.owns hq hj (he.trans_ne hres)).not_fresh (he ▸ hb.fresh)
      · rw [hp'.at_process.records]
        exact congrArg ProcessAllocation.ptr (if_pos rfl)
    | freed => exact absurd rfl hres

/-- In the run `tr` no pointer is handed out again before its owner has freed it, and to free a
pointer leaves what else is recorded recorded and taken. -/
structure UniquelyOwned (S : ℕ → Prop) (tr : List (Kernel × AllocEvent × Kernel)) : Prop where
  unique : ∀ tr₁ x tr₂ y tr₃, tr = tr₁ ++ x :: tr₂ ++ y :: tr₃ → x.2.1.result ≠ 0 →
    y.2.1.result = x.2.1.result →
    ∃ z ∈ tr₂, z.2.1.process = x.2.1.process ∧ z.2.1.call = .free x.2.1.result
  kept : ∀ x ∈ tr, ∀ ptr, x.2.1.call = .free ptr → ∀ process, S process →
    ∀ i < maxProgramAllocations, (x.1.records process i).ptr ≠ 0 →
    ¬(process = x.2.1.process ∧ (x.1.records process i).ptr = ptr) →
    x.2.2.records process i = x.1.records process i ∧
      x.2.2.Owns (x.1.records process i).ptr (requestBlocks (x.1.records process i).size)

/-- What has been handed out in `tr` and not been freed since is recorded. -/
def HandedOut (tr : List (Kernel × AllocEvent × Kernel)) (k : Kernel) : Prop :=
  ∀ tr₁ x tr₂, tr = tr₁ ++ x :: tr₂ → x.2.1.result ≠ 0 →
    (¬∃ z ∈ tr₂, z.2.1.process = x.2.1.process ∧ z.2.1.call = .free x.2.1.result) →
    ∃ i < maxProgramAllocations, (k.records x.2.1.process i).ptr = x.2.1.result

/-- Allocations have one owner in every run all of whose requests take a block. -/
theorem allocation_run_owned (h₀ : SharedHeap S k₀) {tr : List (Kernel × AllocEvent × Kernel)}
    (htr : Trace AllocStep k₀ tr k) (hown : ∀ x ∈ tr, S x.2.1.process)
    (hres : ∀ x ∈ tr, x.2.1.call.Reserves x.1 x.2.1.process) : UniquelyOwned S tr := by
  have hhist := (htr.history (I := fun tr k => SharedHeap S k ∧ HandedOut tr k) []
    ⟨h₀, fun _ _ _ he => by simp at he⟩ ?_).2
  · refine ⟨fun tr₁ x tr₂ y tr₃ he hres₁ hres₂ => ?_, fun x hx ptr hcall q hq i hi h0 hno => ?_⟩
    · have hy : y ∈ tr := by simp [he]
      obtain ⟨hshared, hout⟩ := hhist _ _ _ he
      have hcall := (hshared.step (htr.step_of_mem y hy) (hown y hy) (hres y hy)).2
      by_contra hno
      obtain ⟨i, hi, hrec⟩ := hout tr₁ x tr₂ (List.nil_append _) hres₁ hno
      have hx : x ∈ tr := by simp [he]
      exact (hcall.fresh (hres₂.trans_ne hres₁)).1 _ (hown x hx) i hi (hrec.trans hres₂.symm)
    · obtain ⟨tr₁, tr₂, he⟩ := List.append_of_mem hx
      obtain ⟨hshared, hcall'⟩ :=
        (hhist _ _ _ he).1.step (htr.step_of_mem x hx) (hown x hx) (hres x hx)
      have hsame := hcall'.kept q hq i hi h0 fun h => hno ⟨h.1, ?_⟩
      · refine ⟨hsame, ?_⟩
        have ho := hshared.owns hq hi (by rwa [hsame])
        rwa [hsame] at ho
      · have hfree := hcall.symm.trans h.2
        rw [AllocCall.free.injEq] at hfree
        exact hfree.symm
  · rintro tr₁ s x t tr₂ he hs ⟨hshared, hout⟩
    have hmem : (s, x, t) ∈ tr := by simp [he]
    obtain ⟨hshared', hcall⟩ := hshared.step hs (hown _ hmem) (hres _ hmem)
    refine ⟨hshared', fun l₁ y l₂ hl hres₁ hno => ?_⟩
    rcases DList.split_append_singleton hl with ⟨rfl, rfl, rfl⟩ | ⟨l₃, rfl, hl'⟩
    · exact (hcall.fresh hres₁).2
    · have hy : y ∈ tr := by
        rw [List.nil_append] at hl'
        simp [he, hl']
      obtain ⟨i, hi, hrec⟩ := hout l₁ y l₃ hl' hres₁ fun ⟨z, hz, h⟩ =>
        hno ⟨z, List.mem_append_left _ hz, h⟩
      refine ⟨i, hi, ?_⟩
      rw [hcall.kept _ (hown y hy) i hi (hrec.trans_ne hres₁) fun h => ?_, hrec]
      exact hno ⟨(s, x, t), by simp, h.1.symm, hrec ▸ h.2⟩

/-- The process of the concrete kernel holds its structures. -/
theorem Kernel.oneSpaceProcess_shared :
    SharedHeap (fun process => process = 0x900000) (Kernel.oneSpaceProcess Process.zero) := by
  have hat := Kernel.oneSpaceProcess_at Process.zero
  have hempty (i : ℕ) (h0 : (Process.zero.allocations i).ptr ≠ 0) : False := h0 rfl
  refine ⟨⟨-1, by decide, by decide, rfl⟩, fun _ => some 0x900000, ?_⟩
  rintro _ rfl
  exact ⟨_, _, _, _, _, hat, fun a ha => ⟨rfl, .inr (Kernel.oneSpaceProcess_outside _ ha)⟩,
    fun i _ h0 => (hempty i h0).elim, fun a _ ⟨h0, i, _, he⟩ => h0 he.symm,
    fun i _ _ _ h0 => (hempty i h0).elim⟩

/-- Two requests, the first of which is freed before a third one. -/
def threeRequests : KernelM (ℕ × ℕ × ℕ) := do
  let ptr₁ ← processMalloc 0x900000 5000
  let ptr₂ ← processMalloc 0x900000 100
  processFree 0x900000 ptr₁
  let ptr₃ ← processMalloc 0x900000 4096
  return (ptr₁, ptr₂, ptr₃)

/-- The third request is served with the blocks of the first. -/
theorem allocation_run_owned_reused : ∃ k₁ k₂ k₃ k₄,
    UniquelyOwned (fun process => process = 0x900000) [
      (Kernel.oneSpaceProcess Process.zero, ⟨0x900000, .malloc 5000, blockAddr 0⟩, k₁),
      (k₁, ⟨0x900000, .malloc 100, blockAddr 2⟩, k₂), (k₂, ⟨0x900000, .free (blockAddr 0), 0⟩, k₃),
      (k₃, ⟨0x900000, .malloc 4096, blockAddr 0⟩, k₄)] := by
  have h : (threeRequests (Kernel.oneSpaceProcess Process.zero)).map Prod.fst =
      some (blockAddr 0, blockAddr 2, blockAddr 0) := by
    decide +kernel
  obtain ⟨⟨_, k₄⟩, hrun, hresults⟩ := Option.map_eq_some_iff.mp h
  obtain ⟨ptr₁, k₁, hfirst, hrun⟩ := bind_eq_some.mp hrun
  obtain ⟨ptr₂, k₂, hsecond, hrun⟩ := bind_eq_some.mp hrun
  obtain ⟨⟨⟩, k₃, hfree, hrun⟩ := bind_eq_some.mp hrun
  obtain ⟨ptr₃, k₅, hthird, hreturn⟩ := bind_eq_some.mp hrun
  cases hreturn
  obtain ⟨rfl, hlater⟩ := Prod.mk.inj hresults
  obtain ⟨rfl, rfl⟩ := Prod.mk.inj hlater
  refine ⟨k₁, k₂, k₃, k₄, allocation_run_owned Kernel.oneSpaceProcess_shared
    (.cons (.malloc hfirst (by decide)) (.cons (.malloc hsecond (by decide))
      (.cons (.free hfree (by decide)) (.cons (.malloc hthird (by decide)) (.nil _)))))
    (by simp) fun x hx => ?_⟩
  simp only [List.mem_cons, List.not_mem_nil, or_false] at hx
  rcases hx with rfl | rfl | rfl | rfl
  · exact .inl (by decide)
  · exact .inl (by decide)
  · trivial
  · exact .inl (by decide)

/-- A request of 0 bytes takes nothing, while every block is free. -/
theorem processMalloc_empty (hat : ProcessAt k process p t d f e)
    (hnf : ∀ a, ProcessPointer process p t d f a → ¬k.Fresh a) (hi : FirstEmptyRecord p i)
    (hfree : ∀ b < heapTotalBlocks, k.table.IsFree b) : ∃ k' e',
    processMalloc process 0 k = some (blockAddr 0, k') ∧
      (∀ b < heapTotalBlocks, k'.table.IsFree b) ∧
      ProcessAt k' process (p.withAllocation i ⟨blockAddr 0, 0⟩) t d f e' := by
  have hzero : requestBlocks 0 = 0 := by decide
  have hstart : heapGetStartBlock k.heap (requestBlocks 0) = 0 := by
    rcases heapGetStartBlock_cases k.heap (requestBlocks 0) with ⟨s, -, hpos, -⟩ |
      ⟨s, hs, -, hlast⟩ | ⟨-, -, hlast | hlast⟩
    · exact absurd hpos (by rw [hzero]; decide)
    · rcases hlast.maximal with rfl | hno
      · exact hs
      · have hlt : s < heapTotalBlocks := hlast.lt
        exact absurd (hfree (s - 1) (by omega)) hno
    · have htotal : k.heap.table.total = heapTotalBlocks := rfl
      exact absurd (htotal.symm.trans hlast) (by decide)
    · exact absurd (hfree (heapTotalBlocks - 1) (by decide)) hlast
  have hmalloc : Meets True (processMalloc process 0) k _ := processMalloc_rule hat hnf (by decide)
  obtain ⟨res, k', hrun, ⟨-, -, hnull⟩ | ⟨b, hb, hend⟩⟩ := hmalloc.exists_result
  · rw [hstart] at hnull
    exact absurd hnull (by decide)
  · obtain rfl : b = 0 := by
      have := hb.start.symm.trans hstart
      omega
    rcases hend with ⟨hall | hno, -, -⟩ | ⟨j, k₂, rfl, hj, ht, hat₂, rfl⟩
    · exact absurd hi.empty (hall i hi.lt)
    · exact absurd ⟨by decide, by decide, by decide, by decide⟩ hno
    · obtain rfl := hj.unique hi
      refine ⟨_, _, hrun, fun b hb' => ?_, hat₂.put rfl⟩
      have hheap : (k.allocated 0 0).table.IsFree b :=
        Kernel.allocated_isFree.mpr ⟨hfree b hb', by rw [hzero]; omega⟩
      show k₂.heapTable b = blockFree
      rw [ht.heapTable]
      exact hheap

/-- Two requests of 0 bytes are answered with the same pointer. -/
theorem allocation_run_twice : ∃ k k₁ k₂, SharedHeap (fun process => process = 0x900000) k ∧
    Trace AllocStep k [(k, ⟨0x900000, .malloc 0, blockAddr 0⟩, k₁),
      (k₁, ⟨0x900000, .malloc 0, blockAddr 0⟩, k₂)] k₂ ∧
    ¬UniquelyOwned (fun process => process = 0x900000)
      [(k, ⟨0x900000, .malloc 0, blockAddr 0⟩, k₁),
        (k₁, ⟨0x900000, .malloc 0, blockAddr 0⟩, k₂)] := by
  have hat := Kernel.oneSpaceProcess_at Process.zero
  have hnf := fun a ha (k : Kernel) => Kernel.oneSpaceProcess_not_fresh Process.zero (a := a) ha k
  obtain ⟨k₁, e₁, hrun₁, hfree₁, hat₁⟩ := processMalloc_empty (i := 0) hat
    (fun a ha => hnf a ha _) ⟨by decide, rfl, fun j hj => absurd hj (by omega)⟩ fun _ _ => rfl
  obtain ⟨k₂, e₂, hrun₂, -, -⟩ := processMalloc_empty (i := 1) hat₁
    (fun a ha => hnf a (ProcessPointer.withRecords.mp ha) _) ⟨by decide, rfl, fun j hj => by
      obtain rfl : j = 0 := by omega
      exact blockAddr_pos 0⟩ hfree₁
  refine ⟨_, k₁, k₂, Kernel.oneSpaceProcess_shared, .cons (.malloc hrun₁ (by decide))
    (.cons (.malloc hrun₂ (by decide)) (.nil _)), fun h => ?_⟩
  obtain ⟨z, hz, -⟩ := h.unique [] _ [] _ [] rfl (blockAddr_pos 0) rfl
  exact absurd hz List.not_mem_nil

end Hyperion
