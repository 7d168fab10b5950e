import Mathlib
import OsKernel.Lib.Run

/-! # Physical frames

`StackFrameAllocator` of `mm/frame_allocator.rs` and the bytes of every
physical frame.  `frame_alloc` zeroes the frame it hands out
(`FrameTracker::new`), and dropping a holding `FrameTracker` gives the frame
back through `frame_dealloc`, which panics on a frame that is not allocated.
The state-passing functions return `none` for a panic or an `unwrap` of
`None`.
-/

namespace OsKernel.Mm

/-- `PAGE_SIZE`. -/
def pageSize : Nat := 0x1000

/-- `StackFrameAllocator`; `last` is the field `end`. -/
structure StackFrameAllocator where
  current : Nat
  last : Nat
  recycled : List Nat

namespace StackFrameAllocator

/-- `StackFrameAllocator::new` followed by `init(l, r)`. -/
def init (l r : Nat) : StackFrameAllocator :=
  ⟨l, r, []⟩

/-- `alloc`: pop `recycled`, or else take `current`. -/
def alloc (a : StackFrameAllocator) : Option (Nat × StackFrameAllocator) :=
  match a.recycled.getLast? with
  | some ppn => some (ppn, { a with recycled := a.recycled.dropLast })
  | none => if a.current = a.last then none else some (a.current, { a with current := a.current + 1 })

/-- `dealloc`, with its validity check. -/
def dealloc (a : StackFrameAllocator) (ppn : Nat) : Option StackFrameAllocator :=
  if a.current ≤ ppn ∨ ppn ∈ a.recycled then none else some { a with recycled := a.recycled ++ [ppn] }

/-- A frame handed out and not given back. -/
def InUse (a : StackFrameAllocator) (ppn : Nat) : Prop :=
  ppn < a.current ∧ ppn ∉ a.recycled

/-- The allocator's own invariant: `recycled` holds distinct frames below
    `current`, and `current` never passes `end`. -/
structure Valid (a : StackFrameAllocator) : Prop where
  recycledBelow : ∀ ppn ∈ a.recycled, ppn < a.current
  recycledNodup : a.recycled.Nodup
  currentLe : a.current ≤ a.last

theorem alloc_spec {a a' : StackFrameAllocator} {ppn : Nat} (hvalid : a.Valid)
    (halloc : a.alloc = some (ppn, a')) :
    ¬ a.InUse ppn ∧ a'.InUse ppn ∧ (∀ q, a.InUse q → a'.InUse q) ∧ a'.Valid := by
  unfold alloc at halloc
  cases hlast : a.recycled.getLast? with
  | some r =>
      rw [hlast, Option.some.injEq, Prod.mk.injEq] at halloc
      obtain ⟨rfl, rfl⟩ := halloc
      have hmem : r ∈ a.recycled := List.mem_of_getLast? hlast
      have hsplit : a.recycled = a.recycled.dropLast ++ [r] :=
        (List.dropLast_append_getLast? r hlast).symm
      have hnodup : (a.recycled.dropLast ++ [r]).Nodup := hsplit ▸ hvalid.recycledNodup
      have hnot : r ∉ a.recycled.dropLast := by
        intro h
        exact (List.nodup_append.mp hnodup).2.2 r h r List.mem_cons_self rfl
      refine ⟨fun h => h.2 hmem, ⟨hvalid.recycledBelow r hmem, hnot⟩, ?_, ?_⟩
      · intro q hq
        exact ⟨hq.1, fun h => hq.2 (List.mem_of_mem_dropLast h)⟩
      · exact ⟨fun q hq => hvalid.recycledBelow q (List.mem_of_mem_dropLast hq),
          (List.nodup_append.mp hnodup).1, hvalid.currentLe⟩
  | none =>
      rw [hlast] at halloc
      have hempty : a.recycled = [] := List.getLast?_eq_none_iff.mp hlast
      by_cases hend : a.current = a.last
      · simp [hend] at halloc
      · simp only [hend, if_false, Option.some.injEq, Prod.mk.injEq] at halloc
        obtain ⟨rfl, rfl⟩ := halloc
        have hle := hvalid.currentLe
        refine ⟨fun h => Nat.lt_irrefl _ h.1, ⟨Nat.lt_succ_self _, by simp [hempty]⟩, ?_, ?_⟩
        · intro q hq
          exact ⟨Nat.lt_succ_of_lt hq.1, by simp [hempty]⟩
        · exact ⟨by simp [hempty], by simp [hempty], by simp; omega⟩

theorem dealloc_spec {a a' : StackFrameAllocator} {ppn : Nat} (h : a.dealloc ppn = some a') :
    a.InUse ppn ∧ a' = { a with recycled := a.recycled ++ [ppn] } := by
  unfold dealloc at h
  by_cases hbad : a.current ≤ ppn ∨ ppn ∈ a.recycled
  · simp [hbad] at h
  · simp only [hbad, if_false, Option.some.injEq] at h
    exact ⟨⟨by omega, fun hmem => hbad (Or.inr hmem)⟩, h.symm⟩

theorem alloc_last {a a' : StackFrameAllocator} {ppn : Nat} (h : a.alloc = some (ppn, a')) :
    a'.last = a.last := by
  unfold alloc at h
  split at h
  · cases h
    rfl
  · split at h
    · cases h
    · cases h
      rfl

theorem alloc_current_le {a a' : StackFrameAllocator} {ppn : Nat} (h : a.alloc = some (ppn, a')) :
    a.current ≤ a'.current := by
  unfold alloc at h
  split at h
  · cases h
    exact le_rfl
  · split at h
    · cases h
    · cases h
      exact Nat.le_succ _

theorem InUse.lt_last {a : StackFrameAllocator} {ppn : Nat} (hvalid : a.Valid) (h : a.InUse ppn) :
    ppn < a.last :=
  lt_of_lt_of_le h.1 hvalid.currentLe

theorem not_inUse_of_mem_recycled {a : StackFrameAllocator} {ppn : Nat} (h : ppn ∈ a.recycled) :
    ¬ a.InUse ppn :=
  fun hin => hin.2 h

/-- `unallocated_frames`: `recycled.len() + end - current`. -/
def unallocatedFrames (a : StackFrameAllocator) : Nat :=
  a.recycled.length + a.last - a.current

theorem unallocatedFrames_eq {a : StackFrameAllocator} (hvalid : a.Valid) :
    a.unallocatedFrames = (a.last - a.current) + a.recycled.length := by
  have := hvalid.currentLe
  unfold unallocatedFrames
  omega

theorem alloc_eq_none_iff (a : StackFrameAllocator) :
    a.alloc = none ↔ a.recycled = [] ∧ a.current = a.last := by
  unfold alloc
  cases hlast : a.recycled.getLast? with
  | some r =>
      have hne : a.recycled ≠ [] := by
        intro h
        rw [h] at hlast
        cases hlast
      simp [hne]
  | none =>
      have hempty : a.recycled = [] := List.getLast?_eq_none_iff.mp hlast
      by_cases hend : a.current = a.last <;> simp [hempty, hend]

theorem alloc_unallocatedFrames {a a' : StackFrameAllocator} {ppn : Nat} (hvalid : a.Valid)
    (h : a.alloc = some (ppn, a')) : a'.unallocatedFrames + 1 = a.unallocatedFrames := by
  have hle := hvalid.currentLe
  unfold alloc at h
  cases hlast : a.recycled.getLast? with
  | some r =>
      rw [hlast, Option.some.injEq, Prod.mk.injEq] at h
      obtain ⟨-, rfl⟩ := h
      have hne : a.recycled ≠ [] := by
        intro hnil
        rw [hnil] at hlast
        cases hlast
      have hlen : 0 < a.recycled.length := List.length_pos_iff.mpr hne
      simp only [unallocatedFrames, List.length_dropLast]
      omega
  | none =>
      rw [hlast] at h
      by_cases hend : a.current = a.last
      · rw [if_pos hend] at h
        cases h
      · rw [if_neg hend, Option.some.injEq, Prod.mk.injEq] at h
        obtain ⟨-, rfl⟩ := h
        simp only [unallocatedFrames]
        omega

theorem alloc_of_unallocatedFrames_pos {a : StackFrameAllocator} (hvalid : a.Valid)
    (hfree : 0 < a.unallocatedFrames) : ∃ ppn a', a.alloc = some (ppn, a') := by
  cases halloc : a.alloc with
  | some res => exact ⟨res.1, res.2, rfl⟩
  | none =>
      obtain ⟨hempty, hend⟩ := (alloc_eq_none_iff a).mp halloc
      rw [unallocatedFrames_eq hvalid, hempty, hend] at hfree
      simp at hfree

theorem dealloc_eq_none_iff (a : StackFrameAllocator) (ppn : Nat) :
    a.dealloc ppn = none ↔ ¬ a.InUse ppn := by
  unfold dealloc InUse
  by_cases hbad : a.current ≤ ppn ∨ ppn ∈ a.recycled
  · simp only [hbad, if_true, true_iff]
    rintro ⟨hlt, hnot⟩
    rcases hbad with hle | hmem
    · omega
    · exact hnot hmem
  · simp only [hbad, if_false, reduceCtorEq, false_iff, not_not]
    obtain ⟨hlt, hnot⟩ := not_or.mp hbad
    exact ⟨Nat.lt_of_not_le hlt, hnot⟩

/-! ## Runs of calls -/

/-- A call on the allocator. -/
inductive FrameEvent
  | alloc
  | dealloc (ppn : Nat)
  deriving DecidableEq, Repr

/-- One call; `none` is the panic of `dealloc`.  An `alloc` that finds no frame
    returns `None` and leaves the allocator as it is. -/
def step (a : StackFrameAllocator) : FrameEvent → Option StackFrameAllocator
  | .alloc => some ((a.alloc.map Prod.snd).getD a)
  | .dealloc ppn => a.dealloc ppn

theorem step_alloc_cases (a : StackFrameAllocator) :
    (∃ ppn, a.alloc = some (ppn, (step a .alloc).get rfl)) ∨
      (a.alloc = none ∧ step a .alloc = some a) := by
  cases halloc : a.alloc with
  | none => exact .inr ⟨rfl, by simp [step, halloc]⟩
  | some res => exact .inl ⟨res.1, by simp [step, halloc]⟩

theorem step_valid {a a' : StackFrameAllocator} {e : FrameEvent} (hvalid : a.Valid)
    (h : step a e = some a') : a'.Valid := by
  cases e with
  | alloc =>
      rcases step_alloc_cases a with ⟨ppn, halloc⟩ | ⟨-, hsame⟩
      · simp only [h, Option.get_some] at halloc
        exact (alloc_spec hvalid halloc).2.2.2
      · rw [hsame, Option.some.injEq] at h
        exact h ▸ hvalid
  | dealloc ppn =>
      obtain ⟨huse, rfl⟩ := dealloc_spec h
      refine ⟨fun q hq => ?_, ?_, hvalid.currentLe⟩
      · rcases List.mem_append.mp hq with hq | hq
        · exact hvalid.recycledBelow q hq
        · rw [List.mem_singleton.mp hq]
          exact huse.1
      · refine List.nodup_append.mpr ⟨hvalid.recycledNodup, List.nodup_singleton ppn, ?_⟩
        intro x hx y hy hxy
        rw [List.mem_singleton.mp hy] at hxy
        exact huse.2 (hxy ▸ hx)

theorem step_current_le {a a' : StackFrameAllocator} {e : FrameEvent} (h : step a e = some a') :
    a.current ≤ a'.current := by
  cases e with
  | alloc =>
      rcases step_alloc_cases a with ⟨ppn, halloc⟩ | ⟨-, hsame⟩
      · simp only [h, Option.get_some] at halloc
        exact alloc_current_le halloc
      · rw [hsame, Option.some.injEq] at h
        rw [h]
  | dealloc ppn =>
      obtain ⟨-, rfl⟩ := dealloc_spec h
      exact le_rfl

theorem step_last {a a' : StackFrameAllocator} {e : FrameEvent} (h : step a e = some a') :
    a'.last = a.last := by
  cases e with
  | alloc =>
      rcases step_alloc_cases a with ⟨ppn, halloc⟩ | ⟨-, hsame⟩
      · simp only [h, Option.get_some] at halloc
        exact alloc_last halloc
      · rw [hsame, Option.some.injEq] at h
        rw [h]
  | dealloc ppn =>
      obtain ⟨-, rfl⟩ := dealloc_spec h
      rfl

/-- What holds after `init(l, r)` and any calls: the allocator is valid, its
    bump pointer has not gone below `l` and its end is `r`. -/
structure Started (l r : Nat) (a : StackFrameAllocator) : Prop where
  valid : a.Valid
  startLe : l ≤ a.current
  lastEq : a.last = r

theorem started_init {l r : Nat} (hlr : l ≤ r) : Started l r (init l r) :=
  ⟨⟨fun _ h => absurd h List.not_mem_nil, List.nodup_nil, hlr⟩, le_rfl, rfl⟩

theorem Started.step {l r : Nat} {a a' : StackFrameAllocator} {e : FrameEvent}
    (hs : Started l r a) (h : step a e = some a') : Started l r a' :=
  ⟨step_valid hs.valid h, hs.startLe.trans (step_current_le h), (step_last h).trans hs.lastEq⟩

theorem exec_started {l r : Nat} {events : List FrameEvent} {a : StackFrameAllocator}
    (hlr : l ≤ r) (hrun : StepRun.exec step (init l r) events = some a) : Started l r a :=
  StepRun.exec_invariant step (fun _ _ _ hs h => hs.step h) events (started_init hlr) hrun

theorem exec_recycled_ge {l r : Nat} {events : List FrameEvent} {a : StackFrameAllocator}
    (hfrom : ∀ ppn, .dealloc ppn ∈ events → l ≤ ppn)
    (hrun : StepRun.exec step (init l r) events = some a) : ∀ q ∈ a.recycled, l ≤ q := by
  refine @StepRun.exec_invariant_of_mem StackFrameAllocator FrameEvent step
    (fun a => ∀ q ∈ a.recycled, l ≤ q) (fun e => ∀ ppn, e = .dealloc ppn → l ≤ ppn) ?_
    (init l r) a events (fun e he ppn hppn => hfrom ppn (hppn ▸ he))
    (fun q hq => absurd hq List.not_mem_nil) hrun
  intro s e next hallowed hs hstep q hq
  cases e with
  | alloc =>
      rcases step_alloc_cases s with ⟨ppn, halloc⟩ | ⟨-, hsame⟩
      · simp only [hstep, Option.get_some, alloc] at halloc
        split at halloc
        · cases halloc
          exact hs q (List.mem_of_mem_dropLast hq)
        · split at halloc
          · cases halloc
          · cases halloc
            exact hs q hq
      · rw [hsame, Option.some.injEq] at hstep
        exact hs q (hstep ▸ hq)
  | dealloc ppn =>
      obtain ⟨-, rfl⟩ := dealloc_spec hstep
      rcases List.mem_append.mp hq with hq | hq
      · exact hs q hq
      · rw [List.mem_singleton.mp hq]
        exact hallowed ppn rfl

/-- After `init(l, r)` and any calls, `dealloc` takes back a frame below `l`
    that no `alloc` handed out, since its check reads only `current` and
    `recycled`; the next `alloc` hands that frame out. -/
theorem dealloc_takes_frame_below_init {l r : Nat} {events : List FrameEvent}
    {a : StackFrameAllocator} (hlr : l ≤ r) (hrun : StepRun.exec step (init l r) events = some a)
    {p : Nat} (hp : p < l) (hnot : p ∉ a.recycled) :
    a.dealloc p = some { a with recycled := a.recycled ++ [p] } ∧
      ({ a with recycled := a.recycled ++ [p] } : StackFrameAllocator).alloc = some (p, a) := by
  have hcur := (exec_started hlr hrun).startLe
  have hbad : ¬ (a.current ≤ p ∨ p ∈ a.recycled) := by
    rintro (hle | hmem)
    · omega
    · exact hnot hmem
  refine ⟨by rw [dealloc, if_neg hbad], ?_⟩
  simp [alloc]

theorem dealloc_zero_after_init_one_two :
    (1 : Nat) ≤ 2 ∧ StepRun.exec step (init 1 2) [.alloc] = some ⟨2, 2, []⟩ ∧ 0 < 1 ∧
      0 ∉ (⟨2, 2, []⟩ : StackFrameAllocator).recycled ∧
      (⟨2, 2, []⟩ : StackFrameAllocator).dealloc 0 = some ⟨2, 2, [0]⟩ ∧
      (⟨2, 2, [0]⟩ : StackFrameAllocator).alloc = some (0, ⟨2, 2, []⟩) :=
  ⟨by decide, rfl, by decide, List.not_mem_nil,
    @dealloc_takes_frame_below_init 1 2 [.alloc] ⟨2, 2, []⟩ (by decide) rfl 0 (by decide)
      List.not_mem_nil⟩

end StackFrameAllocator

/-- Physical memory: the frame allocator and the bytes of every frame. -/
structure Phys where
  allocator : StackFrameAllocator
  mem : Nat → Nat → UInt8

/-- The machine after `init_frame_allocator(l, r)`, with zeroed memory. -/
def Phys.boot (l r : Nat) : Phys :=
  ⟨StackFrameAllocator.init l r, fun _ _ => 0⟩

/-- `frame_alloc`, with the page cleaning of `FrameTracker::new`. -/
def frameAlloc : StateT Phys Option Nat := fun p =>
  p.allocator.alloc.map fun (ppn, a) => (ppn, { allocator := a, mem := Function.update p.mem ppn fun _ => 0 })

/-- `frame_dealloc`, run when a holding `FrameTracker` is dropped. -/
def frameDealloc (ppn : Nat) : StateT Phys Option Unit := fun p =>
  (p.allocator.dealloc ppn).map fun a => ((), { p with allocator := a })

/-- `dst.get_bytes_array().copy_from_slice(src.get_bytes_array())`. -/
def copyFrame (dst src : Nat) : StateT Phys Option Unit := fun p =>
  some ((), { p with mem := Function.update p.mem dst (p.mem src) })

theorem frameAlloc_spec {p p' : Phys} {ppn : Nat} (hvalid : p.allocator.Valid)
    (halloc : frameAlloc p = some (ppn, p')) :
    ¬ p.allocator.InUse ppn ∧ p'.allocator.InUse ppn ∧
      (∀ q, p.allocator.InUse q → p'.allocator.InUse q) ∧ p'.allocator.Valid ∧
      p'.mem ppn = (fun _ => 0) ∧ ∀ q, q ≠ ppn → p'.mem q = p.mem q := by
  unfold frameAlloc at halloc
  cases h : p.allocator.alloc with
  | none => simp [h] at halloc
  | some res =>
      obtain ⟨r, a⟩ := res
      simp only [h, Option.map_some, Option.some.injEq, Prod.mk.injEq] at halloc
      obtain ⟨rfl, rfl⟩ := halloc
      obtain ⟨hfresh, huse, hkeep, hval⟩ := StackFrameAllocator.alloc_spec hvalid h
      exact ⟨hfresh, huse, hkeep, hval, by simp, fun q hq => by simp [Function.update_of_ne hq]⟩

theorem frameAlloc_of_unallocatedFrames_pos {p : Phys} (hvalid : p.allocator.Valid)
    (hfree : 0 < p.allocator.unallocatedFrames) :
    ∃ ppn p', frameAlloc p = some (ppn, p') ∧
      p'.allocator.unallocatedFrames + 1 = p.allocator.unallocatedFrames := by
  obtain ⟨ppn, a, halloc⟩ := StackFrameAllocator.alloc_of_unallocatedFrames_pos hvalid hfree
  refine ⟨ppn, ⟨a, Function.update p.mem ppn fun _ => 0⟩, by simp [frameAlloc, halloc], ?_⟩
  exact StackFrameAllocator.alloc_unallocatedFrames hvalid halloc

theorem copyFrame_spec {p p' : Phys} {dst src : Nat} {u : Unit}
    (h : copyFrame dst src p = some (u, p')) :
    p'.allocator = p.allocator ∧ p'.mem = Function.update p.mem dst (p.mem src) := by
  unfold copyFrame at h
  cases h
  exact ⟨rfl, rfl⟩

/-- `p'` comes from `p` by allocations and by writes to frames that were free in
    `p`: the allocator stays valid with the same end, and every frame in use stays
    in use with its bytes. -/
structure Phys.Keeps (p p' : Phys) : Prop where
  valid : p'.allocator.Valid
  last : p'.allocator.last = p.allocator.last
  inUse : ∀ q, p.allocator.InUse q → p'.allocator.InUse q
  mem : ∀ q, p.allocator.InUse q → p'.mem q = p.mem q

theorem Phys.Keeps.refl {p : Phys} (h : p.allocator.Valid) : p.Keeps p :=
  ⟨h, rfl, fun _ hq => hq, fun _ _ => rfl⟩

theorem Phys.Keeps.trans {p p' p'' : Phys} (h₁ : p.Keeps p') (h₂ : p'.Keeps p'') : p.Keeps p'' :=
  ⟨h₂.valid, h₂.last.trans h₁.last, fun q hq => h₂.inUse q (h₁.inUse q hq),
    fun q hq => (h₂.mem q (h₁.inUse q hq)).trans (h₁.mem q hq)⟩

theorem frameAlloc_keeps {p p' : Phys} {ppn : Nat} (hvalid : p.allocator.Valid)
    (halloc : frameAlloc p = some (ppn, p')) :
    p.Keeps p' ∧ ¬ p.allocator.InUse ppn ∧ p'.allocator.InUse ppn := by
  obtain ⟨hfresh, huse, hkeep, hval, -, hother⟩ := frameAlloc_spec hvalid halloc
  have hlast : p'.allocator.last = p.allocator.last := by
    unfold frameAlloc at halloc
    cases h : p.allocator.alloc with
    | none => simp [h] at halloc
    | some res =>
        simp only [h, Option.map_some, Option.some.injEq] at halloc
        rw [← (Prod.mk.inj halloc).2]
        exact StackFrameAllocator.alloc_last h
  refine ⟨⟨hval, hlast, hkeep, fun q hq => hother q ?_⟩, hfresh, huse⟩
  rintro rfl
  exact hfresh hq

theorem frameDealloc_spec {p p' : Phys} {ppn : Nat} {u : Unit}
    (h : frameDealloc ppn p = some (u, p')) :
    p'.mem = p.mem ∧ p'.allocator.current = p.allocator.current ∧
      p'.allocator.recycled = p.allocator.recycled ++ [ppn] := by
  unfold frameDealloc at h
  cases hd : p.allocator.dealloc ppn with
  | none => simp [hd] at h
  | some a =>
      simp only [hd, Option.map_some, Option.some.injEq, Prod.mk.injEq] at h
      obtain ⟨-, rfl⟩ := h
      obtain ⟨-, rfl⟩ := StackFrameAllocator.dealloc_spec hd
      exact ⟨rfl, rfl, rfl⟩

/-- `p'` comes from `p` by giving frames back: the bytes and `current` stay and
    `recycled` only grows. -/
structure Phys.Releases (p p' : Phys) : Prop where
  mem : p'.mem = p.mem
  current : p'.allocator.current = p.allocator.current
  recycled : ∀ q ∈ p.allocator.recycled, q ∈ p'.allocator.recycled

theorem Phys.Releases.refl (p : Phys) : p.Releases p :=
  ⟨rfl, rfl, fun _ hq => hq⟩

theorem Phys.Releases.trans {p p' p'' : Phys} (h₁ : p.Releases p') (h₂ : p'.Releases p'') :
    p.Releases p'' :=
  ⟨h₂.mem.trans h₁.mem, h₂.current.trans h₁.current, fun q hq => h₂.recycled q (h₁.recycled q hq)⟩

theorem frameDealloc_releases {p p' : Phys} {ppn : Nat} {u : Unit}
    (h : frameDealloc ppn p = some (u, p')) : p.Releases p' ∧ ppn ∈ p'.allocator.recycled := by
  obtain ⟨hmem, hcur, hrec⟩ := frameDealloc_spec h
  exact ⟨⟨hmem, hcur, fun q hq => by simp [hrec, hq]⟩, by simp [hrec]⟩

end OsKernel.Mm
