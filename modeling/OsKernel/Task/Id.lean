import OsKernel.Mm.MemorySet
import OsKernel.Lib.Run

/-! # Identifiers and the kernel stacks they place

`task/id.rs`.  A `RecycleAllocator` hands out the pids, the ids of the kernel
stacks and, in each process, the tids: `alloc` gives back the id freed last, or
else a new one, and `dealloc` asserts that the id was handed out and is not free
already.  It is a `StackFrameAllocator` without an end, and its lemmas are drawn
from that one's.  What it is for is the specification `IdSpec` over the set of
ids in use, which every run of it refines.

The id of a kernel stack fixes its place in `KERNEL_SPACE`: two pages, a guard
page below them, the trampoline above the first.  `kstack_alloc` maps the stack
and dropping the `KernelStack` unmaps it; over every run of the two,
`KERNEL_SPACE` holds one area for each live kernel stack, on its own pages,
above the areas it started with.
-/

namespace OsKernel.Task

open OsKernel.Mm StateLoop

structure RecycleAllocator where
  current : Nat
  recycled : List Nat
deriving DecidableEq, Repr

namespace RecycleAllocator

def new : RecycleAllocator :=
  ⟨0, []⟩

/-- `alloc`: `recycled.pop()`, or else `current += 1`. -/
def alloc (a : RecycleAllocator) : Nat × RecycleAllocator :=
  match a.recycled.getLast? with
  | some id => (id, { a with recycled := a.recycled.dropLast })
  | none => (a.current, { a with current := a.current + 1 })

/-- `dealloc`; its two `assert!`s are the `none`. -/
def dealloc (a : RecycleAllocator) (id : Nat) : Option RecycleAllocator :=
  if id < a.current then
    if a.recycled.any fun i => i == id then none
    else some { a with recycled := a.recycled ++ [id] }
  else none

/-- An id handed out and not given back. -/
def Live (a : RecycleAllocator) (id : Nat) : Prop :=
  id < a.current ∧ id ∉ a.recycled

instance (a : RecycleAllocator) (id : Nat) : Decidable (a.Live id) :=
  inferInstanceAs (Decidable (_ ∧ _))

/-- The allocator's own invariant: `recycled` holds distinct ids below `current`. -/
structure Valid (a : RecycleAllocator) : Prop where
  recycledBelow : ∀ id ∈ a.recycled, id < a.current
  recycledNodup : a.recycled.Nodup

/-! ## A frame allocator without an end -/

/-- The allocator as a `StackFrameAllocator` whose `end` is `last`. -/
def frames (a : RecycleAllocator) (last : Nat) : StackFrameAllocator :=
  ⟨a.current, last, a.recycled⟩

theorem frames_alloc (a : RecycleAllocator) {last : Nat} (h : a.current < last) :
    (a.frames last).alloc = some (a.alloc.1, a.alloc.2.frames last) := by
  simp only [frames, StackFrameAllocator.alloc, alloc]
  cases a.recycled.getLast? with
  | some id => rfl
  | none => simp [Nat.ne_of_lt h]

theorem frames_dealloc (a : RecycleAllocator) (last id : Nat) :
    (a.frames last).dealloc id = (a.dealloc id).map fun a' => a'.frames last := by
  simp only [frames, StackFrameAllocator.dealloc, dealloc]
  by_cases hid : id < a.current
  · by_cases hmem : id ∈ a.recycled
    · simp [hid, hmem]
    · simp [hid, hmem, Nat.not_le.mpr hid]
  · simp [hid, Nat.le_of_not_lt hid]

theorem Valid.frames {a : RecycleAllocator} (h : a.Valid) {last : Nat} (hle : a.current ≤ last) :
    (a.frames last).Valid :=
  ⟨h.recycledBelow, h.recycledNodup, hle⟩

theorem valid_of_frames {a : RecycleAllocator} {last : Nat} (h : (a.frames last).Valid) : a.Valid :=
  ⟨h.recycledBelow, h.recycledNodup⟩

/-! ## `alloc` and `dealloc` -/

theorem alloc_spec {a : RecycleAllocator} (hvalid : a.Valid) : ¬ a.Live a.alloc.1 ∧ a.alloc.2.Valid := by
  have hlt : a.current < a.current + 1 := Nat.lt_succ_self _
  obtain ⟨hfresh, -, -, hvalid'⟩ :=
    StackFrameAllocator.alloc_spec (hvalid.frames hlt.le) (a.frames_alloc hlt)
  exact ⟨hfresh, valid_of_frames hvalid'⟩

theorem live_alloc {a : RecycleAllocator} (hvalid : a.Valid) (id : Nat) :
    a.alloc.2.Live id ↔ id = a.alloc.1 ∨ a.Live id := by
  unfold alloc Live
  cases hlast : a.recycled.getLast? with
  | some r =>
      have hsplit : a.recycled = a.recycled.dropLast ++ [r] :=
        (List.dropLast_append_getLast? r hlast).symm
      have hr : r < a.current := hvalid.recycledBelow r (List.mem_of_getLast? hlast)
      have hnot : r ∉ a.recycled.dropLast := by
        have hnodup := hsplit ▸ hvalid.recycledNodup
        exact fun h => (List.nodup_append.mp hnodup).2.2 r h r List.mem_cons_self rfl
      constructor
      · rintro ⟨hlt, hnm⟩
        by_cases hid : id = r
        · exact .inl hid
        · refine .inr ⟨hlt, fun hm => hnm ?_⟩
          rw [hsplit] at hm
          rcases List.mem_append.mp hm with hm | hm
          · exact hm
          · exact absurd (List.mem_singleton.mp hm) hid
      · rintro (rfl | ⟨hlt, hnm⟩)
        · exact ⟨hr, hnot⟩
        · exact ⟨hlt, fun hm => hnm (List.mem_of_mem_dropLast hm)⟩
  | none =>
      have hempty : a.recycled = [] := List.getLast?_eq_none_iff.mp hlast
      simp only [hempty, List.not_mem_nil, not_false_eq_true, and_true]
      omega

theorem dealloc_eq_some {a a' : RecycleAllocator} {id : Nat} :
    a.dealloc id = some a' ↔ a.Live id ∧ a' = { a with recycled := a.recycled ++ [id] } := by
  unfold dealloc Live
  by_cases hid : id < a.current
  · by_cases hmem : id ∈ a.recycled
    · simp [hid, hmem]
    · simp only [hid, hmem, if_true, List.any_eq_true, beq_iff_eq, exists_eq_right, if_false,
        Option.some.injEq, not_false_eq_true, and_self, true_and]
      exact eq_comm
  · simp [hid]

theorem live_dealloc {a a' : RecycleAllocator} {id : Nat} (h : a.dealloc id = some a') (q : Nat) :
    a'.Live q ↔ q ≠ id ∧ a.Live q := by
  obtain ⟨-, rfl⟩ := dealloc_eq_some.mp h
  simp only [Live, List.mem_append, List.mem_singleton, not_or]
  tauto

theorem Valid.dealloc {a a' : RecycleAllocator} {id : Nat} (hvalid : a.Valid)
    (h : a.dealloc id = some a') : a'.Valid := by
  have hframes : StackFrameAllocator.step (a.frames a.current) (.dealloc id) = some (a'.frames a.current) := by
    rw [StackFrameAllocator.step, frames_dealloc, h, Option.map_some]
  exact valid_of_frames (StackFrameAllocator.step_valid (hvalid.frames le_rfl) hframes)

/-! ## Runs, and the specification they refine -/

/-- A call on the allocator. -/
inductive IdEvent
  | alloc
  | dealloc (id : Nat)
  deriving DecidableEq, Repr

/-- One call; `none` is a failed assertion of `dealloc`. -/
def step (a : RecycleAllocator) : IdEvent → Option RecycleAllocator
  | .alloc => some a.alloc.2
  | .dealloc id => a.dealloc id

/-- The ids in use. -/
def liveSet (a : RecycleAllocator) : Finset Nat :=
  (Finset.range a.current).filter fun id => id ∉ a.recycled

@[simp] theorem mem_liveSet {a : RecycleAllocator} {id : Nat} : id ∈ a.liveSet ↔ a.Live id := by
  simp [liveSet, Live]

/-- What an id allocator is for: a set of ids in use, to which `alloc` adds one
    that is not in it and from which `dealloc` takes one that is. -/
inductive IdSpec : Finset Nat → IdEvent → Finset Nat → Prop
  | alloc {used : Finset Nat} {id : Nat} : id ∉ used → IdSpec used .alloc (insert id used)
  | dealloc {used : Finset Nat} {id : Nat} : id ∈ used → IdSpec used (.dealloc id) (used.erase id)

theorem step_valid {a a' : RecycleAllocator} {e : IdEvent} (hvalid : a.Valid) (h : step a e = some a') :
    a'.Valid := by
  cases e with
  | alloc =>
      cases h
      exact (alloc_spec hvalid).2
  | dealloc id => exact hvalid.dealloc h

theorem step_refines {a a' : RecycleAllocator} {e : IdEvent} (hvalid : a.Valid)
    (h : step a e = some a') : IdSpec a.liveSet e a'.liveSet := by
  cases e with
  | alloc =>
      cases h
      have hset : a.alloc.2.liveSet = insert a.alloc.1 a.liveSet := by
        ext id
        simp [live_alloc hvalid id]
      rw [hset]
      exact IdSpec.alloc (by simpa using (alloc_spec hvalid).1)
  | dealloc id =>
      have hlive : a.Live id := (dealloc_eq_some.mp h).1
      have hset : a'.liveSet = a.liveSet.erase id := by
        ext q
        simp [live_dealloc h q]
      rw [hset]
      exact IdSpec.dealloc (mem_liveSet.mpr hlive)

theorem step_isSome {a : RecycleAllocator} {e : IdEvent} {used : Finset Nat}
    (hspec : IdSpec a.liveSet e used) : (step a e).isSome := by
  cases hspec with
  | alloc _ => rfl
  | dealloc hmem =>
      rename_i id
      obtain ⟨hlt, hnot⟩ := mem_liveSet.mp hmem
      simp [step, dealloc, hlt, hnot]

theorem valid_new : new.Valid :=
  ⟨fun _ h => absurd h List.not_mem_nil, List.nodup_nil⟩

theorem liveSet_new : new.liveSet = ∅ := rfl

/-- The allocator refines `IdSpec`: every run from `new` is a run of the
    specification from no ids in use to the live set it ends with, and in every
    state a run reaches it fails a call only where the specification has no
    step. -/
theorem recycleAllocator_refines_idSpec :
    (∀ (events : List IdEvent) (a : RecycleAllocator), StepRun.exec step new events = some a →
      StepRun.Steps IdSpec ∅ events a.liveSet) ∧
    (∀ (a : RecycleAllocator) (e : IdEvent), StepRun.Reachable step new a →
      (step a e = none ↔ ∀ used, ¬ IdSpec a.liveSet e used)) := by
  refine ⟨fun events a hrun => ?_, fun a e hreach => ⟨fun hnone used hspec => ?_, fun hno => ?_⟩⟩
  · rw [← liveSet_new]
    exact StepRun.exec_refines (fun _ _ _ hv h => step_valid hv h) (fun _ _ _ hv h => step_refines hv h)
      events valid_new hrun
  · simpa [hnone] using step_isSome hspec
  · have hvalid : a.Valid := hreach.invariant valid_new fun _ _ _ hv h => step_valid hv h
    cases hs : step a e with
    | none => rfl
    | some a' => exact absurd (step_refines hvalid hs) (hno _)

end RecycleAllocator

/-! ## Kernel stacks -/

def kernelStackSize : Nat := 4096 * 2

/-- `kernel_stack_position`: `(bottom, top)`.  For the ids below `2 ^ 27 / 3`,
    the only ones the theorems here speak of, nothing in it wraps. -/
def kernelStackPosition (kstackId : Nat) : Nat × Nat :=
  let top := trampoline - kstackId * (kernelStackSize + pageSize)
  let bottom := top - kernelStackSize
  (bottom, top)

/-- The first page and the end page of kernel stack `kstackId` in `KERNEL_SPACE`,
    as `MapArea::new` rounds the bounds of `kstack_alloc`. -/
def kstackPages (kstackId : Nat) : Nat × Nat :=
  (floor (vaFromUsize (kernelStackPosition kstackId).1), ceil (vaFromUsize (kernelStackPosition kstackId).2))

theorem kstackPages_eq {kstackId : Nat} (h : 3 * (kstackId + 1) ≤ 2 ^ 27) :
    kstackPages kstackId = (2 ^ 27 - 3 * (kstackId + 1), 2 ^ 27 - 3 * kstackId - 1) := by
  have htop : (kernelStackPosition kstackId).2 = 2 ^ 64 - (4096 + 12288 * kstackId) := by
    simp only [kernelStackPosition, trampoline, kernelStackSize, pageSize]
    omega
  have hbottom : (kernelStackPosition kstackId).1 = 2 ^ 64 - 12288 * (kstackId + 1) := by
    simp only [kernelStackPosition, trampoline, kernelStackSize, pageSize]
    omega
  rw [kstackPages, htop, hbottom, vaFromUsize_sub (by omega) (by omega), vaFromUsize_sub (by omega) (by omega),
    ceil_of_aligned (by omega) (by omega) (by simp only [pageSize]; omega)]
  simp only [floor, pageSize, Prod.mk.injEq]
  omega

theorem floor_trampoline : floor (vaFromUsize trampoline) = 2 ^ 27 - 1 := by
  rw [trampoline, pageSize, show 2 ^ 64 - 1 - 0x1000 + 1 = 2 ^ 64 - 4096 by norm_num,
    vaFromUsize_sub (by norm_num) (by norm_num), floor, pageSize]
  norm_num

theorem kstackPages_le_trampoline {i : Nat} (hi : 3 * (i + 1) ≤ 2 ^ 27) :
    (kstackPages i).2 ≤ floor (vaFromUsize trampoline) := by
  rw [kstackPages_eq hi, floor_trampoline]
  omega

theorem kstackPages_apart {i j : Nat} (hij : i < j) (hj : 3 * (j + 1) ≤ 2 ^ 27) :
    (kstackPages j).2 < (kstackPages i).1 := by
  have hi : 3 * (i + 1) ≤ 2 ^ 27 := by omega
  rw [kstackPages_eq hi, kstackPages_eq hj]
  omega

/-- Where `kstack_alloc` puts the kernel stacks: each is two pages, none reaches
    the trampoline, and between the stacks of two ids lies at least one page
    that neither maps. -/
theorem kernel_stack_layout {i j : Nat} (hij : i < j) (hj : 3 * (j + 1) ≤ 2 ^ 27) :
    (kstackPages i).2 = (kstackPages i).1 + 2 ∧ (kstackPages i).2 ≤ floor (vaFromUsize trampoline) ∧
      (kstackPages j).2 < (kstackPages i).1 := by
  have hi : 3 * (i + 1) ≤ 2 ^ 27 := by omega
  refine ⟨?_, kstackPages_le_trampoline hi, kstackPages_apart hij hj⟩
  rw [kstackPages_eq hi]
  omega

/-- `KSTACK_ALLOCATOR` and `KERNEL_SPACE`, the state that `kstack_alloc` and the
    drop of a `KernelStack` share. -/
structure KernelStacks where
  allocator : RecycleAllocator
  space : MemorySet

/-- `kstack_alloc`: map the stack `R | W` and hand out its id. -/
def kstackAlloc (k : KernelStacks) : StateT Phys Option (Nat × KernelStacks) := do
  let kstackId := k.allocator.alloc.1
  let space ← k.space.insertFramedArea (vaFromUsize (kernelStackPosition kstackId).1)
    (vaFromUsize (kernelStackPosition kstackId).2) (pteR ||| pteW)
  pure (kstackId, ⟨k.allocator.alloc.2, space⟩)

/-- `Drop for KernelStack`: unmap the stack, found by its first page, then free
    its id. -/
def KernelStacks.drop (k : KernelStacks) (kstackId : Nat) : StateT Phys Option KernelStacks := do
  let kernelStackBottomVa := vaFromUsize (kernelStackPosition kstackId).1
  let startVpn ← StateT.lift (vpnFromVa kernelStackBottomVa)
  let space ← k.space.removeAreaWithStartVpn startVpn
  let allocator ← StateT.lift (k.allocator.dealloc kstackId)
  pure ⟨allocator, space⟩

/-- A kernel stack made, or one dropped. -/
inductive KStackEvent
  | alloc
  | drop (kstackId : Nat)
  deriving DecidableEq, Repr

def KernelStacks.step (s : KernelStacks × Phys) : KStackEvent → Option (KernelStacks × Phys)
  | .alloc => (kstackAlloc s.1 s.2).map fun r => (r.1.2, r.2)
  | .drop kstackId => s.1.drop kstackId s.2

/-- `KERNEL_SPACE` as the kernel stacks leave it: the areas it started with, then
    one area for each live kernel stack, on that stack's pages. -/
structure StackAreas (base : List MapArea) (kstacks : List (Nat × MapArea)) (k : KernelStacks) : Prop where
  valid : k.allocator.Valid
  areas : k.space.areas = base ++ kstacks.map Prod.snd
  nodup : (kstacks.map Prod.fst).Nodup
  live : ∀ id, id ∈ kstacks.map Prod.fst ↔ k.allocator.Live id
  pages : ∀ s ∈ kstacks, s.2.vpnRange.l = (kstackPages s.1).1 ∧ s.2.vpnRange.r = (kstackPages s.1).2
  framed : ∀ s ∈ kstacks, s.2.mapType = .framed ∧ s.2.mapPerm = pteR ||| pteW

theorem kstackAlloc_eq_some {k k' : KernelStacks} {kstackId : Nat} {p p' : Phys}
    (h : kstackAlloc k p = some ((kstackId, k'), p')) :
    kstackId = k.allocator.alloc.1 ∧ k'.allocator = k.allocator.alloc.2 ∧
      ∃ area : MapArea, area.vpnRange.l = (kstackPages kstackId).1 ∧
        area.vpnRange.r = (kstackPages kstackId).2 ∧ area.mapType = .framed ∧ area.mapPerm = pteR ||| pteW ∧
        k'.space.areas = k.space.areas ++ [area] := by
  obtain ⟨space, p₁, hinsert, hpure⟩ := bind_eq_some.mp h
  obtain ⟨hpair, -⟩ := pure_eq_some.mp hpure
  cases hpair
  obtain ⟨area, hl, hr, hty, hperm, -, hspace⟩ := MemorySet.insertFramedArea_eq_some hinsert
  exact ⟨rfl, rfl, area, hl, hr, hty, hperm, by rw [hspace]⟩

theorem KernelStacks.drop_eq_some {k k' : KernelStacks} {kstackId : Nat} {p p' : Phys}
    (h : k.drop kstackId p = some (k', p')) :
    k.allocator.dealloc kstackId = some k'.allocator ∧
      ∃ idx, k.space.areas.findIdx? (fun area => area.vpnRange.l == (kstackPages kstackId).1) = some idx ∧
        k'.space.areas = k.space.areas.eraseIdx idx := by
  obtain ⟨startVpn, p₁, hvpn, hrest⟩ := bind_eq_some.mp h
  obtain ⟨hstartVpn, rfl⟩ := lift_eq_some.mp hvpn
  obtain ⟨space, p₂, hremove, hrest⟩ := bind_eq_some.mp hrest
  obtain ⟨allocator, p₃, hlift, hpure⟩ := bind_eq_some.mp hrest
  obtain ⟨hdealloc, rfl⟩ := lift_eq_some.mp hlift
  obtain ⟨rfl, -⟩ := pure_eq_some.mp hpure
  obtain ⟨-, hstart⟩ := vpnFromVa_eq_some.mp hstartVpn
  obtain ⟨idx, hfind, hspace⟩ := MemorySet.removeAreaWithStartVpn_eq_some hremove
  exact ⟨hdealloc, idx, by rw [kstackPages, hstart]; exact hfind, by rw [hspace]⟩

theorem StackAreas.alloc {base : List MapArea} {kstacks : List (Nat × MapArea)} {k k' : KernelStacks}
    {kstackId : Nat} {p p' : Phys} (hs : StackAreas base kstacks k)
    (h : kstackAlloc k p = some ((kstackId, k'), p')) : ∃ kstacks', StackAreas base kstacks' k' := by
  obtain ⟨rfl, hallocator, area, hl, hr, hty, hperm, hareas⟩ := kstackAlloc_eq_some h
  obtain ⟨hfresh, hvalid⟩ := RecycleAllocator.alloc_spec hs.valid
  refine ⟨kstacks ++ [(k.allocator.alloc.1, area)], ⟨hallocator ▸ hvalid, ?_, ?_, ?_, ?_, ?_⟩⟩
  · rw [hareas, hs.areas, List.map_append, List.append_assoc]
    rfl
  · rw [List.map_append, List.nodup_append]
    refine ⟨hs.nodup, List.nodup_singleton _, fun a ha b hb hab => ?_⟩
    have hb' : b = k.allocator.alloc.1 := by simpa using hb
    have hlive := (hs.live a).mp ha
    rw [hab, hb'] at hlive
    exact hfresh hlive
  · intro id
    rw [hallocator, RecycleAllocator.live_alloc hs.valid, List.map_append, List.mem_append, hs.live]
    simp only [List.map_cons, List.map_nil, List.mem_singleton]
    exact or_comm
  · intro s hmem
    rcases List.mem_append.mp hmem with hmem | hmem
    · exact hs.pages s hmem
    · rw [List.mem_singleton.mp hmem]
      exact ⟨hl, hr⟩
  · intro s hmem
    rcases List.mem_append.mp hmem with hmem | hmem
    · exact hs.framed s hmem
    · rw [List.mem_singleton.mp hmem]
      exact ⟨hty, hperm⟩

/-- The search of `remove_area_with_start_vpn` stops at the first match. -/
private theorem findIdx?_middle {α : Type _} {p : α → Bool} {pre post : List α} {x : α}
    (hpre : ∀ y ∈ pre, p y = false) (hx : p x = true) :
    (pre ++ x :: post).findIdx? p = some pre.length := by
  rw [List.findIdx?_append, List.findIdx?_eq_none_iff.mpr hpre, List.findIdx?_cons, if_pos hx]
  simp

private theorem eraseIdx_middle {α : Type _} (pre post : List α) (x : α) :
    (pre ++ x :: post).eraseIdx pre.length = pre ++ post := by
  rw [List.eraseIdx_append_of_length_le le_rfl, Nat.sub_self, List.eraseIdx_cons_zero]

theorem StackAreas.drop {n : Nat} (hn : 3 * n ≤ 2 ^ 27) {base : List MapArea}
    (hbase : ∀ area ∈ base, area.vpnRange.l < 2 ^ 27 - 3 * n) {kstacks : List (Nat × MapArea)}
    {k k' : KernelStacks} {kstackId : Nat} {p p' : Phys} (hs : StackAreas base kstacks k)
    (hcur : k.allocator.current ≤ n) (h : k.drop kstackId p = some (k', p')) :
    ∃ kstacks', StackAreas base kstacks' k' := by
  obtain ⟨hdealloc, idx, hfind, hareas⟩ := KernelStacks.drop_eq_some h
  have hlive : k.allocator.Live kstackId := (RecycleAllocator.dealloc_eq_some.mp hdealloc).1
  obtain ⟨s, hsmem, hsid⟩ := List.mem_map.mp ((hs.live kstackId).mpr hlive)
  obtain ⟨pre, post, hsplit⟩ := List.append_of_mem hsmem
  have hfirst : ∀ id, k.allocator.Live id → (kstackPages id).1 = 2 ^ 27 - 3 * (id + 1) := by
    intro id hid
    rw [kstackPages_eq (by have := hid.1; omega)]
  have hnodup := hs.nodup
  rw [hsplit, List.map_append, List.map_cons, List.nodup_middle, List.nodup_cons] at hnodup
  have hin : ∀ t, t ∈ pre ∨ t ∈ post → t ∈ kstacks := fun t ht => by
    rw [hsplit, List.mem_append, List.mem_cons]
    tauto
  have hbefore : ∀ y ∈ base ++ pre.map Prod.snd, (y.vpnRange.l == (kstackPages kstackId).1) = false := by
    intro y hy
    rw [beq_eq_false_iff_ne, hfirst kstackId hlive]
    have := hlive.1
    rcases List.mem_append.mp hy with hy | hy
    · have := hbase y hy
      omega
    · obtain ⟨t, htmem, rfl⟩ := List.mem_map.mp hy
      have htlive : k.allocator.Live t.1 := (hs.live t.1).mp (List.mem_map_of_mem (hin t (.inl htmem)))
      have hne : t.1 ≠ kstackId := fun heq =>
        hnodup.1 (by rw [hsid, ← heq]; exact List.mem_append_left _ (List.mem_map_of_mem htmem))
      rw [(hs.pages t (hin t (.inl htmem))).1, hfirst t.1 htlive]
      have := htlive.1
      omega
  have hat : (s.2.vpnRange.l == (kstackPages kstackId).1) = true := by
    rw [(hs.pages s hsmem).1, hsid]
    exact beq_self_eq_true _
  have hmid : k.space.areas = (base ++ pre.map Prod.snd) ++ s.2 :: post.map Prod.snd := by
    rw [hs.areas, hsplit]
    simp
  rw [hmid, findIdx?_middle hbefore hat] at hfind
  refine ⟨pre ++ post, ⟨hs.valid.dealloc hdealloc, ?_, by rw [List.map_append]; exact hnodup.2,
    fun id => ?_, fun t ht => hs.pages t (hin t (List.mem_append.mp ht)),
    fun t ht => hs.framed t (hin t (List.mem_append.mp ht))⟩⟩
  · rw [hareas, hmid, ← Option.some.inj hfind, eraseIdx_middle, List.append_assoc, List.map_append]
  · rw [RecycleAllocator.live_dealloc hdealloc, ← hs.live, hsplit]
    simp only [List.map_append, List.map_cons, List.mem_append, List.mem_cons]
    constructor
    · rintro (hid | hid)
      · exact ⟨fun heq => hnodup.1 (by rw [hsid, ← heq]; exact List.mem_append_left _ hid), .inl hid⟩
      · exact ⟨fun heq => hnodup.1 (by rw [hsid, ← heq]; exact List.mem_append_right _ hid), .inr (.inr hid)⟩
    · rintro ⟨hne, hid | hid | hid⟩
      · exact .inl hid
      · exact absurd (hid.trans hsid) hne
      · exact .inr hid

theorem KernelStacks.step_current_le {s s' : KernelStacks × Phys} {e : KStackEvent}
    (h : KernelStacks.step s e = some s') : s.1.allocator.current ≤ s'.1.allocator.current := by
  cases e with
  | alloc =>
      obtain ⟨⟨⟨kstackId, k'⟩, p'⟩, halloc, rfl⟩ := Option.map_eq_some_iff.mp h
      rw [(kstackAlloc_eq_some halloc).2.1]
      unfold RecycleAllocator.alloc
      split <;> simp
  | drop kstackId =>
      have hdealloc := (KernelStacks.drop_eq_some h).1
      rw [(RecycleAllocator.dealloc_eq_some.mp hdealloc).2]

/-- Over every run of `kstack_alloc` and drops of kernel stacks, as long as the
    ids stay below `n`: `KERNEL_SPACE` holds the areas it started with, then one
    area for each live kernel stack on that stack's pages; the stacks' areas are
    apart from one another by at least one page neither maps, and none reaches
    the trampoline. -/
theorem kernel_space_holds_live_stacks {n : Nat} (hn : 3 * n ≤ 2 ^ 27) {space : MemorySet}
    (hbase : ∀ area ∈ space.areas, area.vpnRange.l < 2 ^ 27 - 3 * n) {events : List KStackEvent}
    {k : KernelStacks} {p p' : Phys}
    (hrun : StepRun.exec KernelStacks.step (⟨RecycleAllocator.new, space⟩, p) events = some (k, p'))
    (hcur : k.allocator.current ≤ n) :
    ∃ kstacks : List (Nat × MapArea), StackAreas space.areas kstacks k ∧
      (kstacks.map Prod.snd).Pairwise (fun a b => a.vpnRange.r < b.vpnRange.l ∨ b.vpnRange.r < a.vpnRange.l) ∧
      ∀ area ∈ kstacks.map Prod.snd, area.vpnRange.r ≤ floor (vaFromUsize trampoline) := by
  -- the invariant holds of a state once its ids are below `n`, which they stay below
  -- in every earlier state of the run too
  have hinv := @StepRun.exec_invariant _ _ KernelStacks.step
    (fun s => s.1.allocator.current ≤ n → ∃ kstacks, StackAreas space.areas kstacks s.1)
    (fun s e s' hs hstep hcur' => ?_) _ _ events
    (fun _ => ⟨[], RecycleAllocator.valid_new, by simp, List.nodup_nil,
      fun id => by simp [RecycleAllocator.Live, RecycleAllocator.new], fun _ h => absurd h List.not_mem_nil,
      fun _ h => absurd h List.not_mem_nil⟩) hrun
  · obtain ⟨kstacks, hs⟩ : ∃ kstacks, StackAreas space.areas kstacks k := hinv hcur
    have hbound : ∀ t ∈ kstacks, 3 * (t.1 + 1) ≤ 2 ^ 27 := fun t ht => by
      have := ((hs.live t.1).mp (List.mem_map_of_mem ht)).1
      omega
    refine ⟨kstacks, hs, ?_, fun area harea => ?_⟩
    · have hids := List.pairwise_map.mp hs.nodup
      refine List.pairwise_map.mpr (hids.imp_of_mem fun {a b} ha hb hne => ?_)
      rw [(hs.pages a ha).1, (hs.pages a ha).2, (hs.pages b hb).1, (hs.pages b hb).2]
      rcases Nat.lt_or_gt_of_ne hne with hlt | hlt
      · exact .inr (kstackPages_apart hlt (hbound b hb))
      · exact .inl (kstackPages_apart hlt (hbound a ha))
    · obtain ⟨t, ht, rfl⟩ := List.mem_map.mp harea
      rw [(hs.pages t ht).2]
      exact kstackPages_le_trampoline (hbound t ht)
  · obtain ⟨kstacks, hs⟩ := hs ((KernelStacks.step_current_le hstep).trans hcur')
    cases e with
    | alloc =>
        obtain ⟨⟨⟨kstackId, k'⟩, p''⟩, halloc, rfl⟩ := Option.map_eq_some_iff.mp hstep
        exact hs.alloc halloc
    | drop kstackId =>
        have hle := KernelStacks.step_current_le hstep
        exact hs.drop hn hbase (hle.trans hcur') hstep

/-! ## Thread resources

`alloc_user_res` pushes the user stack of a thread, when it has its own, and its
trap context onto the address space of its process; `dealloc_user_res` takes
them out again by their first pages. -/

theorem allocUserRes_eq_some {ms ms' : MemorySet} {ustackTop tid : Nat} {allocUserStack : Bool}
    {p p' : Phys} (h : allocUserRes ms ustackTop tid allocUserStack p = some (ms', p')) :
    ∃ (stack : List MapArea) (trapCx : MapArea), ms'.areas = ms.areas ++ stack ++ [trapCx] ∧
      trapCx.vpnRange.l = floor (vaFromUsize (trapCxBottomFromTid tid)) ∧
      (∀ area ∈ stack ++ [trapCx], area.mapType = .framed ∧ area.Holds) ∧
      (allocUserStack = true → ∃ area, stack = [area] ∧
        area.vpnRange.l = floor (vaFromUsize (ustackTopFromId ustackTop tid - userStackSize))) ∧
      (allocUserStack = false → stack = []) := by
  cases allocUserStack with
  | false =>
      simp only [allocUserRes, Bool.false_eq_true, if_false, pure_bind] at h
      obtain ⟨trapCx, hl, -, hty, -, hholds, hms'⟩ := MemorySet.insertFramedArea_eq_some h
      refine ⟨[], trapCx, by rw [hms']; simp, hl, fun area harea => ?_, fun h => absurd h Bool.false_ne_true,
        fun _ => rfl⟩
      rw [List.nil_append, List.mem_singleton] at harea
      rw [harea]
      exact ⟨hty, hholds⟩
  | true =>
      simp only [allocUserRes, if_true] at h
      obtain ⟨ms₁, p₁, hstack, htrap⟩ := bind_eq_some.mp h
      obtain ⟨area, hl', -, hty', -, hholds', hms₁⟩ := MemorySet.insertFramedArea_eq_some hstack
      obtain ⟨trapCx, hl, -, hty, -, hholds, hms'⟩ := MemorySet.insertFramedArea_eq_some htrap
      refine ⟨[area], trapCx, by rw [hms', hms₁], hl, fun a ha => ?_, fun _ => ⟨area, rfl, hl'⟩,
        fun h => Bool.noConfusion h⟩
      rcases List.mem_append.mp ha with ha | ha
      · rw [List.mem_singleton.mp ha]
        exact ⟨hty', hholds'⟩
      · rw [List.mem_singleton.mp ha]
        exact ⟨hty, hholds⟩

/-- `remove_area_with_start_vpn` of the first page of a framed area pushed
    behind areas that start elsewhere takes out that area and gives back its
    frames. -/
private theorem removeArea_pushed {ms ms' : MemorySet} {before after : List MapArea} {area : MapArea}
    {vpn : Nat} {p p' : Phys} (hareas : ms.areas = before ++ area :: after)
    (hbefore : ∀ a ∈ before, a.vpnRange.l ≠ vpn) (hstart : area.vpnRange.l = vpn) (hframed : area.mapType = .framed)
    (h : ms.removeAreaWithStartVpn vpn p = some (ms', p')) :
    ms'.areas = before ++ after ∧ p.Releases p' ∧ area.Released p' := by
  obtain ⟨idx, hfind, hms'⟩ := MemorySet.removeAreaWithStartVpn_eq_some h
  obtain ⟨idx', area', hfind', hget, hreleases⟩ := MemorySet.removeAreaWithStartVpn_releases h
  have hmiddle := @findIdx?_middle MapArea (fun a => a.vpnRange.l == vpn) before after area
    (fun a ha => by simpa using hbefore a ha) (by simpa using hstart)
  rw [hareas, hmiddle] at hfind hfind'
  rw [hareas, ← Option.some.inj hfind', List.getElem?_append_right le_rfl, Nat.sub_self,
    List.getElem?_cons_zero, Option.some.injEq] at hget
  subst hget
  rw [hms', hareas, ← Option.some.inj hfind, eraseIdx_middle]
  exact ⟨rfl, hreleases hframed⟩

/-- `dealloc_user_res` undoes `alloc_user_res`, when no area of the address
    space starts on the first page of the thread's user stack or trap context:
    the areas are as they were, and every page of the areas that
    `alloc_user_res` pushed had a frame of its own, which is back in the frame
    allocator. -/
theorem deallocUserRes_after_allocUserRes {ms ms₁ ms₂ : MemorySet} {ustackTop tid : Nat}
    {selfStack : Bool} {p p₁ p₂ : Phys}
    (hfree : ∀ area ∈ ms.areas,
      area.vpnRange.l ≠ floor (vaFromUsize (ustackTopFromId ustackTop tid - userStackSize)) ∧
        area.vpnRange.l ≠ floor (vaFromUsize (trapCxBottomFromTid tid)))
    (halloc : allocUserRes ms ustackTop tid selfStack p = some (ms₁, p₁))
    (hdealloc : deallocUserRes ms₁ ustackTop tid selfStack p₁ = some (ms₂, p₂)) :
    ms₂.areas = ms.areas ∧ ∀ area ∈ ms₁.areas.drop ms.areas.length, ∀ vpn ∈ area.vpnRange.toList,
      ∃ frame, SortedMap.get? area.dataFrames vpn = some frame ∧ frame.ppn ∈ p₂.allocator.recycled := by
  obtain ⟨stack, trapCx, hareas, htrap, hnew, hwith, hwithout⟩ := allocUserRes_eq_some halloc
  have hframed := fun area harea => (hnew area harea).1
  have hdropped : ms₁.areas.drop ms.areas.length = stack ++ [trapCx] := by
    rw [hareas, List.append_assoc, List.drop_left]
  have htrapMem : trapCx ∈ stack ++ [trapCx] := List.mem_append_right _ (List.mem_singleton_self _)
  have htail : ∀ {ms₃ : MemorySet} {vpn : Nat} {p₃ : Phys}, ms₃.areas = ms.areas ++ [trapCx] →
      vpnFromVa (vaFromUsize (trapCxBottomFromTid tid)) = some vpn →
      ms₃.removeAreaWithStartVpn vpn p₃ = some (ms₂, p₂) →
      ms₂.areas = ms.areas ∧ p₃.Releases p₂ ∧ trapCx.Released p₂ := by
    intro ms₃ vpn p₃ hms₃ hvpn hremove
    have hstart := (vpnFromVa_eq_some.mp hvpn).2
    obtain ⟨hms₂, hrel⟩ := removeArea_pushed hms₃ (fun a ha => hstart ▸ (hfree a ha).2) (htrap.trans hstart)
      (hframed trapCx htrapMem) hremove
    rw [hms₂, List.append_nil]
    exact ⟨rfl, hrel⟩
  suffices hreleased : ms₂.areas = ms.areas ∧ ∀ area ∈ stack ++ [trapCx], area.Released p₂ by
    refine ⟨hreleased.1, fun area harea vpn hvpn => ?_⟩
    rw [hdropped] at harea
    obtain ⟨frame, hget, hhold⟩ := (hnew area harea).2 vpn hvpn
    exact ⟨frame, hget, hreleased.2 area harea vpn hvpn frame hget hhold⟩
  cases selfStack with
  | false =>
      simp only [deallocUserRes, Bool.false_eq_true, if_false, pure_bind] at hdealloc
      obtain ⟨vpn, p₃, hvpn, hremove⟩ := bind_eq_some.mp hdealloc
      obtain ⟨hvpn', rfl⟩ := lift_eq_some.mp hvpn
      rw [hwithout rfl] at hareas ⊢
      obtain ⟨hms₂, -, htrapReleased⟩ := htail (by rw [hareas, List.append_nil]) hvpn' hremove
      refine ⟨hms₂, fun area harea => ?_⟩
      rw [List.nil_append, List.mem_singleton] at harea
      exact harea ▸ htrapReleased
  | true =>
      obtain ⟨area, rfl, hstart⟩ := hwith rfl
      simp only [deallocUserRes, if_true] at hdealloc
      obtain ⟨stackVpn, p₃, hvpn, hrest⟩ := bind_eq_some.mp hdealloc
      obtain ⟨hstackVpn, rfl⟩ := lift_eq_some.mp hvpn
      have hstackStart := (vpnFromVa_eq_some.mp hstackVpn).2
      obtain ⟨ms₃, p₄, hremove, hrest⟩ := bind_eq_some.mp hrest
      obtain ⟨vpn, p₅, hvpn, hremove'⟩ := bind_eq_some.mp hrest
      obtain ⟨hvpn', rfl⟩ := lift_eq_some.mp hvpn
      have hsplit : ms₁.areas = ms.areas ++ area :: [trapCx] := by rw [hareas]; simp
      obtain ⟨hms₃, -, hstackReleased⟩ := removeArea_pushed hsplit
        (fun a ha => hstackStart ▸ (hfree a ha).1) (hstart.trans hstackStart)
        (hframed area (List.mem_append_left _ (List.mem_singleton_self _))) hremove
      obtain ⟨hms₂, hrel, htrapReleased⟩ := htail hms₃ hvpn' hremove'
      refine ⟨hms₂, fun a ha => ?_⟩
      rcases List.mem_append.mp ha with ha | ha
      · exact List.mem_singleton.mp ha ▸ hstackReleased.of_releases hrel
      · exact List.mem_singleton.mp ha ▸ htrapReleased

/-- `insert_framed_area` of two pages of code, R|X, into an empty memory set:
    run on the frames it is given, it returns the memory set with that one area. -/
def codeSpace : StateT Phys Option MemorySet :=
  MemorySet.insertFramedArea ⟨PageTable.emptyTable, [], [], [], 0, 0⟩ 0x1000 0x3000 (pteR ||| pteX)

theorem thread_resources_of_first_thread_freed :
    ∃ ms p ms₁ p₁ ms₂ p₂, codeSpace (Phys.boot 0x81 0x100) = some (ms, p) ∧
      allocUserRes ms stackTop 0 true p = some (ms₁, p₁) ∧
      deallocUserRes ms₁ stackTop 0 true p₁ = some (ms₂, p₂) ∧ ms.areas.length = 1 ∧
      ms₂.areas = ms.areas ∧ ∀ area ∈ ms₁.areas.drop ms.areas.length, ∀ vpn ∈ area.vpnRange.toList,
        ∃ frame, SortedMap.get? area.dataFrames vpn = some frame ∧ frame.ppn ∈ p₂.allocator.recycled := by
  have hcode : (codeSpace (Phys.boot 0x81 0x100)).any (fun r => r.1.areas.length == 1 &&
      r.1.areas.all (fun a => a.vpnRange.l != floor (vaFromUsize (ustackTopFromId stackTop 0 - userStackSize)) &&
        a.vpnRange.l != floor (vaFromUsize (trapCxBottomFromTid 0))) &&
      ((allocUserRes r.1 stackTop 0 true r.2).bind fun r₁ => deallocUserRes r₁.1 stackTop 0 true r₁.2).isSome) =
      true := by
    decide +kernel
  obtain ⟨⟨ms, p⟩, hms, hok⟩ := (Option.any_eq_true _ _).mp hcode
  simp only [Bool.and_eq_true, beq_iff_eq, List.all_eq_true, bne_iff_ne, ne_eq] at hok
  obtain ⟨⟨hlen, hfree⟩, hrun⟩ := hok
  obtain ⟨⟨ms₂, p₂⟩, hrun⟩ := Option.isSome_iff_exists.mp hrun
  obtain ⟨⟨ms₁, p₁⟩, halloc, hdealloc⟩ := Option.bind_eq_some_iff.mp hrun
  exact ⟨ms, p, ms₁, p₁, ms₂, p₂, hms, halloc, hdealloc, hlen,
    deallocUserRes_after_allocUserRes (fun a ha => hfree a ha) halloc hdealloc⟩

/-- Two kernel stacks made in a kernel space that starts with no areas. -/
theorem kernel_space_after_two_stacks :
    ∃ k p', StepRun.exec KernelStacks.step
        (⟨RecycleAllocator.new, ⟨PageTable.emptyTable, [], [], [], 0, 0⟩⟩, Phys.boot 0x81 0x100)
        [.alloc, .alloc] = some (k, p') ∧
      ∃ kstacks : List (Nat × MapArea), StackAreas [] kstacks k ∧
        (kstacks.map Prod.snd).Pairwise (fun a b => a.vpnRange.r < b.vpnRange.l ∨ b.vpnRange.r < a.vpnRange.l) ∧
        ∀ area ∈ kstacks.map Prod.snd, area.vpnRange.r ≤ floor (vaFromUsize trampoline) := by
  refine ⟨_, _, rfl, @kernel_space_holds_live_stacks 2 (by norm_num) ⟨PageTable.emptyTable, [], [], [], 0, 0⟩
    (fun _ h => absurd h List.not_mem_nil) [.alloc, .alloc] _ (Phys.boot 0x81 0x100) _ rfl ?_⟩
  decide

end OsKernel.Task
