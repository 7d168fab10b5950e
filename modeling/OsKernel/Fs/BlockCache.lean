import OsKernel.Fs.Cache
import OsKernel.Lib.Run

/-! # The block cache

`BlockCacheManager` of `fs/cache.rs`, the cache the FAT reads its sectors
through: sixteen 512-byte `BufferCache`s, each with a priority and the block
it holds, `usize::MAX` marking a free buffer.  A caller takes a buffer with
`get_block_cache`, reads or modifies it and drops its handle before its next
call, so, as for the page cache, every `Arc` count that `oom` tests is 1.  The
accesses stay inside the buffer: one past it, which the `debug_assert!` of
`read` and `modify` catches, is a panic here.

What the cache is for is a plain block device: `DiskView` takes the same
calls straight to the device, and a run of calls on the cache and the device
reads what the same run on the plain device reads, at every block but the
sentinel.
-/

namespace OsKernel.Fs

/-- `CACHEPOOLSIZE`. -/
def cachePoolSize : Nat := 16

/-- `len` bytes of `f` from `offset`. -/
def bytesAt (f : Nat → UInt8) (offset len : Nat) : List UInt8 :=
  (List.range len).map fun k => f (offset + k)

/-- `f` with `bytes` stored from `offset` on. -/
def patch (f : Nat → UInt8) (offset : Nat) (bytes : List UInt8) : Nat → UInt8 := fun j =>
  if offset ≤ j ∧ j < offset + bytes.length then bytes.getD (j - offset) 0 else f j

/-- `BufferCache`. -/
structure BufferCache where
  priority : Nat
  blockId : Nat
  buffer : Nat → UInt8

namespace BufferCache

/-- `BufferCache::new`, over a page that `frame_alloc` cleared. -/
def new : BufferCache := ⟨0, usizeMax, fun _ => 0⟩

/-- `read_block`: the buffer takes block `blockId` of the device. -/
def readBlock (c : BufferCache) (blockId : Nat) (d : Disk) : BufferCache :=
  { c with blockId := blockId, buffer := d blockId }

/-- `block_device.write_block(block_id, buf)`. -/
def writeBack (c : BufferCache) (d : Disk) : Disk := fun b =>
  if b = c.blockId then c.buffer else d b

/-- The bump of `try_get_block_cache` and `get_block_cache`, up to
    `PRIORITY_UPPERBOUND`. -/
def touch (c : BufferCache) : BufferCache :=
  if c.priority < priorityUpperbound then { c with priority := c.priority + 1 } else c

/-- `read` with a closure that copies `len` bytes from `offset`. -/
def read (c : BufferCache) (offset len : Nat) : List UInt8 :=
  bytesAt c.buffer offset len

/-- `modify` with a closure that stores `bytes` from `offset`. -/
def modify (c : BufferCache) (offset : Nat) (bytes : List UInt8) : BufferCache :=
  { c with buffer := patch c.buffer offset bytes }

/-- What a buffer becomes in `oom`: one priority lower, or free. -/
def age (c : BufferCache) : BufferCache :=
  if 0 < c.priority then { c with priority := c.priority - 1 } else { c with blockId := usizeMax }

/-- One buffer of the loop of `oom`: a buffer of priority 0 is written back to
    its block before it is freed. -/
def evict (c : BufferCache) (d : Disk) : BufferCache × Disk :=
  (c.age, if 0 < c.priority then d else c.writeBack d)

end BufferCache

/-- The loop of `oom` over `cache_pool`. -/
def oomLoop : List BufferCache → Disk → List BufferCache × Disk
  | [], d => ([], d)
  | c :: cs, d =>
      let r := c.evict d
      let rest := oomLoop cs r.2
      (r.1 :: rest.1, rest.2)

/-- `BlockCacheManager`; the frames in `_hold` are the buffers' memory. -/
structure BlockCacheManager where
  cachePool : List BufferCache

namespace BlockCacheManager

/-- `BlockCacheManager::new`: `CACHEPOOLSIZE` free buffers. -/
def new : BlockCacheManager := ⟨List.replicate cachePoolSize BufferCache.new⟩

/-- `oom`. -/
def oom (m : BlockCacheManager) (d : Disk) : BlockCacheManager × Disk :=
  let r := oomLoop m.cachePool d
  (⟨r.1⟩, r.2)

/-- `alloc_buffer_cache`: the first free buffer, after as many `oom` rounds as
    that takes; `fuel` bounds the rounds. -/
def allocBufferCache : Nat → BlockCacheManager → Disk → Option (Nat × BlockCacheManager × Disk)
  | 0, _, _ => none
  | fuel + 1, m, d =>
      match m.cachePool.findIdx? (·.blockId == usizeMax) with
      | some i => some (i, m, d)
      | none =>
          let r := m.oom d
          allocBufferCache fuel r.1 r.2

/-- `try_get_block_cache`. -/
def tryGetBlockCache (m : BlockCacheManager) (blockId : Nat) : Option (Nat × BlockCacheManager) :=
  (m.cachePool.findIdx? (·.blockId == blockId)).map fun i =>
    (i, ⟨m.cachePool.modify i BufferCache.touch⟩)

/-- Rounds of `alloc_buffer_cache` that always reach a free buffer
    (`allocBufferCache_isSome`). -/
def allocFuel : Nat := 3

/-- `get_block_cache`. -/
def getBlockCache (m : BlockCacheManager) (blockId : Nat) (d : Disk) :
    Option (Nat × BlockCacheManager × Disk) :=
  match m.tryGetBlockCache blockId with
  | some (i, m') => some (i, m', d)
  | none =>
      (allocBufferCache allocFuel m d).map fun r =>
        (r.1, ⟨r.2.1.cachePool.modify r.1 fun c => (c.readBlock blockId r.2.2).touch⟩, r.2.2)

/-- The buffer a handle of index `i` locks. -/
def buf (m : BlockCacheManager) (i : Nat) : BufferCache :=
  m.cachePool.getD i BufferCache.new

end BlockCacheManager

/-! ### Runs of calls on the cache -/

/-- A call of the file system: `get_block_cache(blockId)`, then `read` or
    `modify` on the buffer, and the handle dropped. -/
inductive BlockCall where
  | read (blockId offset len : Nat)
  | modify (blockId offset : Nat) (bytes : List UInt8)

namespace BlockCall

/-- The block a call names. -/
def blockId : BlockCall → Nat
  | .read blockId _ _ => blockId
  | .modify blockId _ _ => blockId

/-- The bytes a call touches lie inside one buffer. -/
def InBuffer : BlockCall → Prop
  | .read _ offset len => offset + len ≤ bufferSize
  | .modify _ offset bytes => offset + bytes.length ≤ bufferSize

instance (call : BlockCall) : Decidable call.InBuffer :=
  match call with
  | .read _ offset len => inferInstanceAs (Decidable (offset + len ≤ bufferSize))
  | .modify _ offset bytes => inferInstanceAs (Decidable (offset + bytes.length ≤ bufferSize))

end BlockCall

/-- One call on the manager and the device, with the bytes it reads. -/
def blockCall (s : BlockCacheManager × Disk) (call : BlockCall) :
    Option (List UInt8 × BlockCacheManager × Disk) :=
  if call.InBuffer then
    match call with
    | .read blockId offset len =>
        (s.1.getBlockCache blockId s.2).map fun r => ((r.2.1.buf r.1).read offset len, r.2)
    | .modify blockId offset bytes =>
        (s.1.getBlockCache blockId s.2).map fun r =>
          ([], ⟨r.2.1.cachePool.modify r.1 fun c => c.modify offset bytes⟩, r.2.2)
  else none

/-- The step of a run of calls. -/
def blockStep (s : BlockCacheManager × Disk) (call : BlockCall) : Option (BlockCacheManager × Disk) :=
  (blockCall s call).map Prod.snd

/-! ### The plain device the cache stands for -/

namespace DiskView

/-- A call taken straight to the device `v`. -/
def call (v : Disk) : BlockCall → List UInt8 × Disk
  | .read b offset len => (bytesAt (v b) offset len, v)
  | .modify b offset bytes => ([], Function.update v b (patch (v b) offset bytes))

/-- The device after a run of calls. -/
def run (v : Disk) (calls : List BlockCall) : Disk :=
  calls.foldl (fun v c => (call v c).2) v

end DiskView

/-! ### The invariant -/

/-- At most one buffer holds each block other than `usize::MAX`. -/
def UniqueIds (pool : List BufferCache) : Prop :=
  ∀ i j (hi : i < pool.length) (hj : j < pool.length),
    pool[i].blockId = pool[j].blockId → pool[i].blockId ≠ usizeMax → i = j

/-- The pool's invariant, and its link to the plain device `v`: a buffer
    holds the bytes of its block, and a block no buffer holds is on the device. -/
structure Coherent (s : BlockCacheManager × Disk) (v : Disk) : Prop where
  length_pool : s.1.cachePool.length = cachePoolSize
  priority_le : ∀ c ∈ s.1.cachePool, c.priority ≤ priorityUpperbound
  unique : UniqueIds s.1.cachePool
  buffer_eq : ∀ c ∈ s.1.cachePool, c.blockId ≠ usizeMax → c.buffer = v c.blockId
  disk_eq : ∀ b, b ≠ usizeMax → (∀ c ∈ s.1.cachePool, c.blockId ≠ b) → s.2 b = v b

/-! ### `oom` -/

namespace BufferCache

@[simp] theorem age_buffer (c : BufferCache) : c.age.buffer = c.buffer := by
  unfold age
  split <;> rfl

theorem age_blockId (c : BufferCache) :
    c.age.blockId = if 0 < c.priority then c.blockId else usizeMax := by
  unfold age
  split <;> rfl

theorem age_priority_le (c : BufferCache) : c.age.priority ≤ c.priority := by
  unfold age
  split
  · exact Nat.sub_le _ _
  · exact le_refl _

theorem writeBack_of_ne (c : BufferCache) (d : Disk) {b : Nat} (hb : b ≠ c.blockId) :
    c.writeBack d b = d b := by
  rw [writeBack, if_neg hb]

end BufferCache

theorem oomLoop_fst (cs : List BufferCache) (d : Disk) :
    (oomLoop cs d).1 = cs.map BufferCache.age := by
  induction cs generalizing d with
  | nil => rfl
  | cons c cs ih => simp only [oomLoop, BufferCache.evict, ih, List.map_cons]

theorem oomLoop_snd_of_forall (cs : List BufferCache) (d : Disk) {b : Nat}
    (hb : ∀ c ∈ cs, c.blockId = b → 0 < c.priority) : (oomLoop cs d).2 b = d b := by
  induction cs generalizing d with
  | nil => rfl
  | cons c cs ih =>
      have hrest := fun d' => ih d' (fun c' hc' => hb c' (List.mem_cons_of_mem c hc'))
      simp only [oomLoop, BufferCache.evict]
      rw [hrest]
      split
      · rfl
      · have hne : b ≠ c.blockId := fun heq => by
          have := hb c List.mem_cons_self heq.symm
          omega
        exact c.writeBack_of_ne d hne

theorem oomLoop_snd_of_evicted (cs : List BufferCache) (d : Disk) {i : Nat} (hi : i < cs.length)
    (hzero : cs[i].priority = 0) (hothers : ∀ j (hj : j < cs.length), j ≠ i → cs[j].blockId ≠ cs[i].blockId) :
    (oomLoop cs d).2 cs[i].blockId = cs[i].buffer := by
  induction cs generalizing d i with
  | nil => cases hi
  | cons c cs ih =>
      cases i with
      | zero =>
          have hrest : ∀ c' ∈ cs, c'.blockId = c.blockId → 0 < c'.priority := by
            intro c' hc' heq
            obtain ⟨j, hj, rfl⟩ := List.getElem_of_mem hc'
            exact absurd heq (hothers (j + 1) (by simp [hj]) (by omega))
          simp only [oomLoop, BufferCache.evict, List.getElem_cons_zero] at hzero ⊢
          rw [oomLoop_snd_of_forall cs _ hrest, if_neg (by omega), BufferCache.writeBack, if_pos rfl]
      | succ i =>
          simp only [oomLoop, List.getElem_cons_succ] at hzero ⊢
          exact ih _ (by simpa using hi) hzero fun j hj hji =>
            hothers (j + 1) (by simp [hj]) (by omega)

/-! ### The invariant, call by call -/

theorem mem_modify_cases {α : Type} {l : List α} {k : Nat} {f : α → α} {c : α}
    (hc : c ∈ l.modify k f) :
    (∃ j, ∃ hj : j < l.length, j ≠ k ∧ c = l[j]) ∨ ∃ hk : k < l.length, c = f l[k] := by
  obtain ⟨j, hj, rfl⟩ := List.getElem_of_mem hc
  have hj' : j < l.length := by simpa using hj
  rw [List.getElem_modify]
  split
  · next hkj =>
      subst hkj
      exact Or.inr ⟨hj', rfl⟩
  · next hkj => exact Or.inl ⟨j, hj', Ne.symm hkj, rfl⟩

theorem UniqueIds.of_blockId {pool pool' : List BufferCache} (h : UniqueIds pool)
    (hlen : pool'.length = pool.length)
    (hid : ∀ i (hi : i < pool'.length) (hi' : i < pool.length),
      pool'[i].blockId ≠ usizeMax → pool'[i].blockId = pool[i].blockId) :
    UniqueIds pool' := by
  intro i j hi hj heq hne
  have hi' : i < pool.length := hlen ▸ hi
  have hj' : j < pool.length := hlen ▸ hj
  have hidi := hid i hi hi' hne
  have hidj := hid j hj hj' (heq ▸ hne)
  exact h i j hi' hj' (by rw [← hidi, ← hidj, heq]) (by rw [← hidi]; exact hne)

namespace BufferCache

theorem age_priority_eq_zero (c : BufferCache) (h : c.priority ≤ priorityUpperbound) :
    c.age.priority = 0 := by
  unfold age
  split
  · show c.priority - 1 = 0
    unfold priorityUpperbound at h
    omega
  · show c.priority = 0
    omega

theorem age_blockId_of_priority_eq_zero (c : BufferCache) (h : c.priority = 0) :
    c.age.blockId = usizeMax := by
  rw [age_blockId, if_neg (by omega)]

theorem age_blockId_eq (c : BufferCache) (h : c.age.blockId ≠ usizeMax) : c.age.blockId = c.blockId := by
  rw [age_blockId] at h ⊢
  split at h
  · rw [if_pos ‹_›]
  · exact absurd rfl h

theorem touch_priority_le (c : BufferCache) (h : c.priority ≤ priorityUpperbound) :
    c.touch.priority ≤ priorityUpperbound := by
  unfold touch
  split
  · show c.priority + 1 ≤ priorityUpperbound
    omega
  · exact h

@[simp] theorem readBlock_blockId (c : BufferCache) (b : Nat) (d : Disk) :
    (c.readBlock b d).blockId = b := rfl

@[simp] theorem readBlock_buffer (c : BufferCache) (b : Nat) (d : Disk) :
    (c.readBlock b d).buffer = d b := rfl

@[simp] theorem readBlock_priority (c : BufferCache) (b : Nat) (d : Disk) :
    (c.readBlock b d).priority = c.priority := rfl

@[simp] theorem modify_priority (c : BufferCache) (offset : Nat) (bytes : List UInt8) :
    (c.modify offset bytes).priority = c.priority := rfl

@[simp] theorem touch_blockId (c : BufferCache) : c.touch.blockId = c.blockId := by
  unfold touch
  split <;> rfl

@[simp] theorem touch_buffer (c : BufferCache) : c.touch.buffer = c.buffer := by
  unfold touch
  split <;> rfl

end BufferCache

namespace BlockCacheManager

theorem oom_cachePool (m : BlockCacheManager) (d : Disk) :
    (m.oom d).1.cachePool = m.cachePool.map BufferCache.age :=
  oomLoop_fst _ _

theorem mem_oom_cachePool {m : BlockCacheManager} {d : Disk} {c : BufferCache}
    (hc : c ∈ (m.oom d).1.cachePool) : ∃ c₀ ∈ m.cachePool, c₀.age = c := by
  rw [oom_cachePool] at hc
  exact List.mem_map.mp hc

theorem oom_not_held {m : BlockCacheManager} (d : Disk) {b : Nat} (hb : b ≠ usizeMax)
    (hfree : ∀ c ∈ m.cachePool, c.blockId ≠ b) : ∀ c ∈ (m.oom d).1.cachePool, c.blockId ≠ b := by
  intro c hc heq
  obtain ⟨c₀, hc₀, rfl⟩ := mem_oom_cachePool hc
  exact hfree c₀ hc₀ (by rw [← c₀.age_blockId_eq (heq ▸ hb), heq])

theorem oom_coherent {m : BlockCacheManager} {d v : Disk} (h : Coherent (m, d) v) :
    Coherent (m.oom d) v where
  length_pool := by
    rw [oom_cachePool, List.length_map]
    exact h.length_pool
  priority_le := by
    intro c hc
    obtain ⟨c₀, hc₀, rfl⟩ := mem_oom_cachePool hc
    exact le_trans c₀.age_priority_le (h.priority_le c₀ hc₀)
  unique := by
    refine h.unique.of_blockId (by rw [oom_cachePool, List.length_map]) fun i hi hi' hne => ?_
    simp only [oom_cachePool, List.getElem_map] at hne ⊢
    exact BufferCache.age_blockId_eq _ hne
  buffer_eq := by
    intro c hc hid
    obtain ⟨c₀, hc₀, rfl⟩ := mem_oom_cachePool hc
    have hid₀ := c₀.age_blockId_eq hid
    rw [BufferCache.age_buffer, hid₀]
    exact h.buffer_eq c₀ hc₀ (hid₀ ▸ hid)
  disk_eq := by
    intro b hb hfree
    show (oomLoop m.cachePool d).2 b = v b
    by_cases hheld : ∃ i, ∃ hi : i < m.cachePool.length, m.cachePool[i].blockId = b
    · obtain ⟨i, hi, hib⟩ := hheld
      have hzero : m.cachePool[i].priority = 0 := by
        by_contra hpos
        have hkept := m.cachePool[i].age_blockId
        rw [if_pos (by omega)] at hkept
        refine hfree _ ?_ (hkept.trans hib)
        rw [oom_cachePool]
        exact List.mem_map_of_mem (List.getElem_mem hi)
      have hothers : ∀ j (hj : j < m.cachePool.length), j ≠ i →
          m.cachePool[j].blockId ≠ m.cachePool[i].blockId := fun j hj hji heq =>
        hji (h.unique j i hj hi heq (by rw [heq, hib]; exact hb))
      rw [← hib, oomLoop_snd_of_evicted _ d hi hzero hothers]
      exact h.buffer_eq _ (List.getElem_mem hi) (hib ▸ hb)
    · have hnone : ∀ c ∈ m.cachePool, c.blockId ≠ b := by
        intro c hc heq
        obtain ⟨i, hi, rfl⟩ := List.getElem_of_mem hc
        exact hheld ⟨i, hi, heq⟩
      rw [oomLoop_snd_of_forall _ d fun c hc heq => absurd heq (hnone c hc)]
      exact h.disk_eq b hb hnone

/-- Changing buffer `k` in place, its block kept: the invariant holds against
    a device `v'` that differs from `v` at that block at most, when the
    buffer holds `v'` there. -/
theorem coherent_modify {m : BlockCacheManager} {d v v' : Disk} (h : Coherent (m, d) v) {k : Nat}
    (hk : k < m.cachePool.length) (f : BufferCache → BufferCache)
    (hid : (f m.cachePool[k]).blockId = m.cachePool[k].blockId)
    (hprio : (f m.cachePool[k]).priority ≤ priorityUpperbound)
    (hbuf : m.cachePool[k].blockId ≠ usizeMax → (f m.cachePool[k]).buffer = v' m.cachePool[k].blockId)
    (hv : ∀ b, b ≠ m.cachePool[k].blockId → v' b = v b) :
    Coherent (⟨m.cachePool.modify k f⟩, d) v' := by
  have hids : ∀ j (hj : j < (m.cachePool.modify k f).length) (hj' : j < m.cachePool.length),
      (m.cachePool.modify k f)[j].blockId = m.cachePool[j].blockId := by
    intro j hj hj'
    rw [List.getElem_modify]
    split
    · next hkj =>
        subst hkj
        exact hid
    · rfl
  have hother : ∀ c ∈ m.cachePool, c.blockId ≠ usizeMax → c.blockId ≠ m.cachePool[k].blockId →
      v' c.blockId = v c.blockId := fun c _ _ hne => hv c.blockId hne
  refine ⟨by rw [List.length_modify]; exact h.length_pool, ?_,
    h.unique.of_blockId (List.length_modify _ _ _) fun j hj hj' _ => hids j hj hj', ?_, ?_⟩
  · intro c hc
    rcases mem_modify_cases hc with ⟨j, hj, -, rfl⟩ | ⟨_, rfl⟩
    · exact h.priority_le _ (List.getElem_mem hj)
    · exact hprio
  · intro c hc hne
    rcases mem_modify_cases hc with ⟨j, hj, hjk, rfl⟩ | ⟨_, rfl⟩
    · have hsame : m.cachePool[j].blockId ≠ m.cachePool[k].blockId := fun heq =>
        hjk (h.unique j k hj hk heq hne)
      rw [hother _ (List.getElem_mem hj) hne hsame]
      exact h.buffer_eq _ (List.getElem_mem hj) hne
    · rw [hid] at hne ⊢
      exact hbuf hne
  · intro b hb hfree
    have hnone : ∀ c ∈ m.cachePool, c.blockId ≠ b := by
      intro c hc heq
      obtain ⟨j, hj, rfl⟩ := List.getElem_of_mem hc
      have hj₂ : j < (m.cachePool.modify k f).length := by rw [List.length_modify]; exact hj
      exact hfree _ (List.getElem_mem hj₂) (by rw [hids j hj₂ hj, heq])
    have hbk : b ≠ m.cachePool[k].blockId := fun heq => hnone _ (List.getElem_mem hk) heq.symm
    rw [hv b hbk]
    exact h.disk_eq b hb hnone

theorem coherent_readBlock {m : BlockCacheManager} {d v : Disk} (h : Coherent (m, d) v) {k : Nat}
    (hk : k < m.cachePool.length) (hfree : m.cachePool[k].blockId = usizeMax) (b : Nat)
    (hb : b ≠ usizeMax → ∀ c ∈ m.cachePool, c.blockId ≠ b) :
    Coherent (⟨m.cachePool.modify k fun c => (c.readBlock b d).touch⟩, d) v := by
  have hids : ∀ j (hj : j < (m.cachePool.modify k fun c => (c.readBlock b d).touch).length)
      (hj' : j < m.cachePool.length),
      (m.cachePool.modify k fun c => (c.readBlock b d).touch)[j].blockId =
        if k = j then b else m.cachePool[j].blockId := by
    intro j hj hj'
    rw [List.getElem_modify]
    split
    · simp
    · rfl
  refine ⟨by rw [List.length_modify]; exact h.length_pool, ?_, ?_, ?_, ?_⟩
  · intro c hc
    rcases mem_modify_cases hc with ⟨j, hj, -, rfl⟩ | ⟨_, rfl⟩
    · exact h.priority_le _ (List.getElem_mem hj)
    · exact BufferCache.touch_priority_le _
        (by rw [BufferCache.readBlock_priority]; exact h.priority_le _ (List.getElem_mem hk))
  · intro i j hi hj heq hne
    have hi' : i < m.cachePool.length := by simpa using hi
    have hj' : j < m.cachePool.length := by simpa using hj
    rw [hids i hi hi', hids j hj hj'] at heq
    rw [hids i hi hi'] at hne
    by_cases hki : k = i <;> by_cases hkj : k = j
    · exact hki.symm.trans hkj
    · rw [if_pos hki, if_neg hkj] at heq
      rw [if_pos hki] at hne
      exact absurd heq.symm (hb hne _ (List.getElem_mem hj'))
    · rw [if_neg hki, if_pos hkj] at heq
      rw [if_neg hki] at hne
      exact absurd heq (hb (heq ▸ hne) _ (List.getElem_mem hi'))
    · rw [if_neg hki, if_neg hkj] at heq
      rw [if_neg hki] at hne
      exact h.unique i j hi' hj' heq hne
  · intro c hc hne
    rcases mem_modify_cases hc with ⟨j, hj, -, rfl⟩ | ⟨_, rfl⟩
    · exact h.buffer_eq _ (List.getElem_mem hj) hne
    · simp only [BufferCache.touch_blockId, BufferCache.readBlock_blockId] at hne
      simp only [BufferCache.touch_buffer, BufferCache.touch_blockId, BufferCache.readBlock_buffer,
        BufferCache.readBlock_blockId]
      exact h.disk_eq b hne (hb hne)
  · intro b' hb' hnot
    refine h.disk_eq b' hb' fun c hc heq => ?_
    obtain ⟨j, hj, rfl⟩ := List.getElem_of_mem hc
    have hj₂ : j < (m.cachePool.modify k fun c => (c.readBlock b d).touch).length := by
      rw [List.length_modify]
      exact hj
    by_cases hkj : k = j
    · subst hkj
      exact hb' (heq.symm.trans hfree)
    · exact hnot _ (List.getElem_mem hj₂) (by rw [hids j hj₂ hj, if_neg hkj, heq])

theorem allocBufferCache_spec {fuel : Nat} {m m₁ : BlockCacheManager} {d d₁ v : Disk} {k : Nat}
    (h : allocBufferCache fuel m d = some (k, m₁, d₁)) (hc : Coherent (m, d) v) :
    Coherent (m₁, d₁) v ∧ (∃ hk : k < m₁.cachePool.length, m₁.cachePool[k].blockId = usizeMax) ∧
      ∀ b, b ≠ usizeMax → (∀ c ∈ m.cachePool, c.blockId ≠ b) → ∀ c ∈ m₁.cachePool, c.blockId ≠ b := by
  induction fuel generalizing m d with
  | zero => cases h
  | succ fuel ih =>
      rw [allocBufferCache] at h
      split at h
      · next i hi =>
          cases h
          obtain ⟨hk, hfree, -⟩ := List.findIdx?_eq_some_iff_getElem.mp hi
          exact ⟨hc, ⟨hk, by simpa using hfree⟩, fun _ _ hfree' => hfree'⟩
      · obtain ⟨hc₁, hfree, hnot⟩ := ih h (oom_coherent hc)
        exact ⟨hc₁, hfree, fun b hb hfree' => hnot b hb (oom_not_held d hb hfree')⟩

theorem allocBufferCache_isSome {m : BlockCacheManager} {d v : Disk} (hc : Coherent (m, d) v) :
    (allocBufferCache allocFuel m d).isSome := by
  have hzero : ∀ c ∈ (m.oom d).1.cachePool, c.priority = 0 := by
    intro c hc'
    obtain ⟨c₀, hc₀, rfl⟩ := mem_oom_cachePool hc'
    exact c₀.age_priority_eq_zero (hc.priority_le c₀ hc₀)
  have hfree : (((m.oom d).1.oom (m.oom d).2).1.cachePool.findIdx? (·.blockId == usizeMax)).isSome := by
    rw [List.findIdx?_isSome, List.any_eq_true]
    have hlen : ((m.oom d).1.oom (m.oom d).2).1.cachePool.length = cachePoolSize :=
      (oom_coherent (oom_coherent hc)).length_pool
    obtain ⟨c, hc'⟩ := List.exists_mem_of_length_pos (by rw [hlen]; decide)
    refine ⟨c, hc', ?_⟩
    obtain ⟨c₀, hc₀, rfl⟩ := mem_oom_cachePool hc'
    simp [c₀.age_blockId_of_priority_eq_zero (hzero c₀ hc₀)]
  rw [allocFuel, allocBufferCache]
  split
  · rfl
  · rw [allocBufferCache]
    split
    · rfl
    · obtain ⟨i, hi⟩ := Option.isSome_iff_exists.mp hfree
      rw [allocBufferCache, hi]
      rfl

theorem tryGetBlockCache_eq_none {m : BlockCacheManager} {b : Nat} (h : m.tryGetBlockCache b = none) :
    ∀ c ∈ m.cachePool, c.blockId ≠ b := by
  intro c hc heq
  have hnone := List.findIdx?_eq_none_iff.mp (Option.map_eq_none_iff.mp h) c hc
  simp [heq] at hnone

theorem tryGetBlockCache_eq_some {m m' : BlockCacheManager} {d v : Disk} {b i : Nat}
    (h : m.tryGetBlockCache b = some (i, m')) (hc : Coherent (m, d) v) :
    Coherent (m', d) v ∧ ∃ hi : i < m'.cachePool.length, m'.cachePool[i].blockId = b := by
  obtain ⟨i', hi', heq⟩ := Option.map_eq_some_iff.mp h
  cases heq
  obtain ⟨hk, hhit, -⟩ := List.findIdx?_eq_some_iff_getElem.mp hi'
  have hid : m.cachePool[i].blockId = b := by simpa using hhit
  refine ⟨coherent_modify hc hk BufferCache.touch (BufferCache.touch_blockId _)
    (BufferCache.touch_priority_le _ (hc.priority_le _ (List.getElem_mem hk)))
    (fun hne => by rw [BufferCache.touch_buffer]; exact hc.buffer_eq _ (List.getElem_mem hk) hne)
    (fun _ _ => rfl), by rw [List.length_modify]; exact hk, ?_⟩
  rw [List.getElem_modify, if_pos rfl, BufferCache.touch_blockId, hid]

theorem getBlockCache_spec {m : BlockCacheManager} {d v : Disk} (hc : Coherent (m, d) v) (b : Nat) :
    ∃ i m' d', m.getBlockCache b d = some (i, m', d') ∧ Coherent (m', d') v ∧
      ∃ hi : i < m'.cachePool.length, m'.cachePool[i].blockId = b := by
  cases htry : m.tryGetBlockCache b with
  | some r =>
      obtain ⟨i, m'⟩ := r
      obtain ⟨hc', hheld⟩ := tryGetBlockCache_eq_some htry hc
      exact ⟨i, m', d, by rw [getBlockCache, htry], hc', hheld⟩
  | none =>
      obtain ⟨⟨k, m₁, d₁⟩, halloc⟩ := Option.isSome_iff_exists.mp (allocBufferCache_isSome hc)
      obtain ⟨hc₁, ⟨hk, hfree⟩, hnot⟩ := allocBufferCache_spec halloc hc
      have hnot₁ : b ≠ usizeMax → ∀ c ∈ m₁.cachePool, c.blockId ≠ b := fun hb =>
        hnot b hb (tryGetBlockCache_eq_none htry)
      refine ⟨k, ⟨m₁.cachePool.modify k fun c => (c.readBlock b d₁).touch⟩, d₁,
        by rw [getBlockCache, htry, halloc]; rfl, coherent_readBlock hc₁ hk hfree b hnot₁,
        by rw [List.length_modify]; exact hk, ?_⟩
      rw [List.getElem_modify, if_pos rfl]
      simp

theorem buf_eq_getElem (m : BlockCacheManager) {i : Nat} (hi : i < m.cachePool.length) :
    m.buf i = m.cachePool[i] := by
  rw [buf, List.getD_eq_getElem?_getD, List.getElem?_eq_getElem hi]
  rfl

end BlockCacheManager

open BlockCacheManager

theorem coherent_new (d₀ : Disk) : Coherent (BlockCacheManager.new, d₀) d₀ where
  length_pool := List.length_replicate
  priority_le := fun c hc => by
    rw [List.eq_of_mem_replicate hc]
    exact Nat.zero_le _
  unique := fun i _ hi _ _ hne => by
    simp only [BlockCacheManager.new, List.getElem_replicate] at hne
    exact absurd rfl hne
  buffer_eq := fun c hc hne => by
    rw [List.eq_of_mem_replicate hc] at hne
    exact absurd rfl hne
  disk_eq := fun _ _ _ => rfl

/-- One call from a coherent state: it returns, the state stays coherent with
    the plain device after the call, and a call at a block other than
    `usize::MAX` reads what the plain device reads. -/
theorem blockCall_spec {s : BlockCacheManager × Disk} {v : Disk} (hc : Coherent s v)
    {call : BlockCall} (hin : call.InBuffer) :
    ∃ out s', blockCall s call = some (out, s') ∧ Coherent s' (DiskView.call v call).2 ∧
      (call.blockId ≠ usizeMax → out = (DiskView.call v call).1) := by
  obtain ⟨m, d⟩ := s
  cases call with
  | read b offset len =>
      obtain ⟨i, m', d', hget, hc', hi, hib⟩ := getBlockCache_spec hc b
      refine ⟨_, (m', d'), by rw [blockCall, if_pos hin, hget]; rfl, hc', fun hb => ?_⟩
      have hbuf := hc'.buffer_eq _ (List.getElem_mem hi) (hib ▸ hb)
      rw [hib] at hbuf
      show (m'.buf i).read offset len = bytesAt (v b) offset len
      rw [buf_eq_getElem m' hi, BufferCache.read, hbuf]
  | modify b offset bytes =>
      obtain ⟨i, m', d', hget, hc', hi, hib⟩ := getBlockCache_spec hc b
      refine ⟨[], (⟨m'.cachePool.modify i fun c => c.modify offset bytes⟩, d'),
        by rw [blockCall, if_pos hin, hget]; rfl, ?_, fun _ => rfl⟩
      refine coherent_modify hc' hi _ rfl
        (by rw [BufferCache.modify_priority]; exact hc'.priority_le _ (List.getElem_mem hi)) (fun hne => ?_)
        (fun b' hb' => ?_)
      · have hbuf := hc'.buffer_eq _ (List.getElem_mem hi) hne
        rw [hib] at hbuf ⊢
        simp only [DiskView.call, Function.update_self, BufferCache.modify, hbuf]
      · rw [hib] at hb'
        exact Function.update_of_ne hb' _ _

/-- Every run of calls that each stay inside one buffer, from a new manager over
    the device `d₀`: it never panics or spins; at most one buffer holds each
    block other than `usize::MAX`; a read of such a block returns what the
    same run on the plain device left there; and `oom` writes each buffer it
    frees back to its own block, and leaves the blocks that it frees no buffer
    of as they are. -/
theorem block_cache_coherent {d₀ : Disk} {calls : List BlockCall}
    (hcalls : ∀ call ∈ calls, call.InBuffer) :
    ∃ s, StepRun.exec blockStep (BlockCacheManager.new, d₀) calls = some s ∧
      UniqueIds s.1.cachePool ∧
      (∀ b offset len, b ≠ usizeMax → offset + len ≤ bufferSize →
        ∃ s', blockCall s (.read b offset len) =
          some (bytesAt (DiskView.run d₀ calls b) offset len, s')) ∧
      (∀ i (hi : i < s.1.cachePool.length), s.1.cachePool[i].priority = 0 →
        s.1.cachePool[i].blockId ≠ usizeMax →
          (s.1.oom s.2).2 s.1.cachePool[i].blockId = s.1.cachePool[i].buffer) ∧
      ∀ b, (∀ c ∈ s.1.cachePool, c.blockId = b → 0 < c.priority) → (s.1.oom s.2).2 b = s.2 b := by
  -- the cache refines the plain device, call by call
  have hstep : ∀ s v call, BlockCall.InBuffer call → Coherent s v →
      ∃ next, blockStep s call = some next ∧ Coherent next (DiskView.call v call).2 := by
    intro s v call hin hc
    obtain ⟨out, s', hcall, hc', -⟩ := blockCall_spec hc hin
    exact ⟨s', by rw [blockStep, hcall]; rfl, hc'⟩
  obtain ⟨s, hrun, hc⟩ := StepRun.exec_of_total_simulation hstep calls hcalls (coherent_new d₀)
  refine ⟨s, hrun, hc.unique, fun b offset len hb hlen => ?_, fun i hi hzero hne => ?_,
    fun b hb => oomLoop_snd_of_forall _ _ hb⟩
  · obtain ⟨out, s', hcall, -, hout⟩ := @blockCall_spec s _ hc (.read b offset len) hlen
    exact ⟨s', by rw [hcall, hout hb]; rfl⟩
  · have hothers : ∀ j (hj : j < s.1.cachePool.length), j ≠ i →
        s.1.cachePool[j].blockId ≠ s.1.cachePool[i].blockId := fun j hj hji heq =>
      hji (hc.unique j i hj hi heq (heq ▸ hne))
    exact oomLoop_snd_of_evicted _ _ hi hzero hothers

/-- A write to block 5, then a read of it. -/
def writeThenRead : List BlockCall := [.modify 5 0 [7, 8], .read 5 1 1]

theorem block_cache_coherent_on_write_then_read :
    (∀ call ∈ writeThenRead, call.InBuffer) ∧
      ∃ s, StepRun.exec blockStep (BlockCacheManager.new, PageCache.blockIdDisk) writeThenRead = some s ∧
        UniqueIds s.1.cachePool ∧
        (∀ b offset len, b ≠ usizeMax → offset + len ≤ bufferSize →
          ∃ s', blockCall s (.read b offset len) =
            some (bytesAt (DiskView.run PageCache.blockIdDisk writeThenRead b) offset len, s')) ∧
        (∀ i (hi : i < s.1.cachePool.length), s.1.cachePool[i].priority = 0 →
          s.1.cachePool[i].blockId ≠ usizeMax →
            (s.1.oom s.2).2 s.1.cachePool[i].blockId = s.1.cachePool[i].buffer) ∧
        ∀ b, (∀ c ∈ s.1.cachePool, c.blockId = b → 0 < c.priority) → (s.1.oom s.2).2 b = s.2 b := by
  have hin : ∀ call ∈ writeThenRead, call.InBuffer := by decide
  exact ⟨hin, block_cache_coherent hin⟩

end OsKernel.Fs
