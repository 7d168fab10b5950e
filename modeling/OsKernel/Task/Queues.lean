import OsKernel.Task.Manager

/-! # The queue invariant on guarded runs

`wakeup_task` and `unblock_task` are safe when the task they wake leaves every
wait queue: a waiter is popped from the front of its one queue, and a task only
joins a queue while it runs, so it is in no queue then.  The invariant of
`Sched.Consistent` therefore holds on every run in which `fork` adds a task that
is neither scheduled nor blocked, and in which the exit of a child finds its
parent's main thread, if blocked, blocked in `wait4` and in no wait queue, so
that `exit_current_and_run_next` takes no waiter out of its queue behind the
queue's back.  That guard is not decidable, since the wait queues are indexed
by every number, and the guarded runs are `StepRun.Steps` of `Guarded`.
-/

namespace OsKernel.Task

namespace Sched

/-- A wait queue: of a `MutexBlocking`, a `Semaphore`, a `Condvar` or a futex word. -/
inductive WaitId where
  | mutex (mutex : Nat)
  | semaphore (sem : Nat)
  | condvar (condvar : Nat)
  | futex (uaddr : Nat)
  deriving DecidableEq, Repr

/-- The tasks a wait queue holds; a futex word without a queue holds none. -/
def waitQueue (s : Sched) : WaitId → List Nat
  | .mutex m => (s.mutexes m).waitQueue
  | .semaphore sem => (s.semaphores sem).waitQueue
  | .condvar c => s.condvars c
  | .futex uaddr => (s.futexes uaddr).getD []

theorem inWaitQueue_iff {s : Sched} {task : Nat} : s.InWaitQueue task ↔ ∃ q, task ∈ s.waitQueue q := by
  constructor
  · rintro (⟨m, h⟩ | ⟨sem, h⟩ | ⟨c, h⟩ | ⟨uaddr, queue, hq, h⟩)
    · exact ⟨.mutex m, h⟩
    · exact ⟨.semaphore sem, h⟩
    · exact ⟨.condvar c, h⟩
    · exact ⟨.futex uaddr, by simp [waitQueue, hq, h]⟩
  · rintro ⟨q, h⟩
    cases q with
    | mutex m => exact .inl ⟨m, h⟩
    | semaphore sem => exact .inr (.inl ⟨sem, h⟩)
    | condvar c => exact .inr (.inr (.inl ⟨c, h⟩))
    | futex uaddr =>
        cases hq : s.futexes uaddr with
        | none => simp [waitQueue, hq] at h
        | some queue => exact .inr (.inr (.inr ⟨uaddr, queue, hq, by simpa [waitQueue, hq] using h⟩))

/-! ## What each update changes -/

section Fields

variable (s : Sched)

@[simp] theorem status_setStatus (task : Nat) (status : TaskStatus) :
    (s.setStatus task status).status = Function.update s.status task status := rfl
@[simp] theorem current_setStatus (task : Nat) (status : TaskStatus) :
    (s.setStatus task status).current = s.current := rfl
@[simp] theorem readyQueue_setStatus (task : Nat) (status : TaskStatus) :
    (s.setStatus task status).readyQueue = s.readyQueue := rfl
@[simp] theorem waitQueue_setStatus (task : Nat) (status : TaskStatus) :
    (s.setStatus task status).waitQueue = s.waitQueue := rfl

@[simp] theorem status_addTask (task : Nat) : (s.addTask task).status = s.status := rfl
@[simp] theorem current_addTask (task : Nat) : (s.addTask task).current = s.current := rfl
@[simp] theorem readyQueue_addTask (task : Nat) : (s.addTask task).readyQueue = s.readyQueue ++ [task] := rfl
@[simp] theorem waitQueue_addTask (task : Nat) : (s.addTask task).waitQueue = s.waitQueue := rfl

@[simp] theorem status_blockTask (task : Nat) : (s.blockTask task).status = s.status := rfl
@[simp] theorem current_blockTask (task : Nat) : (s.blockTask task).current = s.current := rfl
@[simp] theorem readyQueue_blockTask (task : Nat) : (s.blockTask task).readyQueue = s.readyQueue := rfl
@[simp] theorem waitQueue_blockTask (task : Nat) : (s.blockTask task).waitQueue = s.waitQueue := rfl

@[simp] theorem status_setMutex (m : Nat) (inner : MutexBlockingInner) : (s.setMutex m inner).status = s.status := rfl
@[simp] theorem current_setMutex (m : Nat) (inner : MutexBlockingInner) : (s.setMutex m inner).current = s.current := rfl
@[simp] theorem readyQueue_setMutex (m : Nat) (inner : MutexBlockingInner) :
    (s.setMutex m inner).readyQueue = s.readyQueue := rfl

@[simp] theorem status_setSemaphore (sem : Nat) (inner : SemaphoreInner) :
    (s.setSemaphore sem inner).status = s.status := rfl
@[simp] theorem current_setSemaphore (sem : Nat) (inner : SemaphoreInner) :
    (s.setSemaphore sem inner).current = s.current := rfl
@[simp] theorem readyQueue_setSemaphore (sem : Nat) (inner : SemaphoreInner) :
    (s.setSemaphore sem inner).readyQueue = s.readyQueue := rfl

@[simp] theorem status_setCondvar (c : Nat) (queue : List Nat) : (s.setCondvar c queue).status = s.status := rfl
@[simp] theorem current_setCondvar (c : Nat) (queue : List Nat) : (s.setCondvar c queue).current = s.current := rfl
@[simp] theorem readyQueue_setCondvar (c : Nat) (queue : List Nat) :
    (s.setCondvar c queue).readyQueue = s.readyQueue := rfl

@[simp] theorem current_setFutex (uaddr : Nat) (queue : List Nat) :
    (s.setFutex uaddr queue).current = s.current := rfl
@[simp] theorem readyQueue_setFutex (uaddr : Nat) (queue : List Nat) :
    (s.setFutex uaddr queue).readyQueue = s.readyQueue := rfl

@[simp] theorem status_removeTask (task : Nat) : (s.removeTask task).status = s.status := rfl
@[simp] theorem current_removeTask (task : Nat) : (s.removeTask task).current = s.current := rfl
@[simp] theorem readyQueue_removeTask (task : Nat) :
    (s.removeTask task).readyQueue = s.readyQueue.erase task := rfl
@[simp] theorem waitQueue_removeTask (task : Nat) : (s.removeTask task).waitQueue = s.waitQueue := rfl

@[simp] theorem waitQueue_leave : ({ s with current := none } : Sched).waitQueue = s.waitQueue := rfl

@[simp] theorem waitQueue_setMutex (m : Nat) (inner : MutexBlockingInner) :
    (s.setMutex m inner).waitQueue = Function.update s.waitQueue (.mutex m) inner.waitQueue := by
  funext q
  cases q <;> simp [waitQueue, setMutex, Function.update_apply]
  split <;> rfl

@[simp] theorem waitQueue_setSemaphore (sem : Nat) (inner : SemaphoreInner) :
    (s.setSemaphore sem inner).waitQueue = Function.update s.waitQueue (.semaphore sem) inner.waitQueue := by
  funext q
  cases q <;> simp [waitQueue, setSemaphore, Function.update_apply]
  split <;> rfl

@[simp] theorem waitQueue_setCondvar (c : Nat) (queue : List Nat) :
    (s.setCondvar c queue).waitQueue = Function.update s.waitQueue (.condvar c) queue := by
  funext q
  cases q <;> simp [waitQueue, setCondvar, Function.update_apply]

@[simp] theorem waitQueue_setFutex (uaddr : Nat) (queue : List Nat) :
    (s.setFutex uaddr queue).waitQueue = Function.update s.waitQueue (.futex uaddr) queue := by
  funext q
  cases q <;> simp [waitQueue, setFutex, Function.update_apply]
  split <;> rfl

theorem waitQueue_setMutex_of_eq {m : Nat} {inner : MutexBlockingInner}
    (h : inner.waitQueue = (s.mutexes m).waitQueue) : (s.setMutex m inner).waitQueue = s.waitQueue := by
  rw [waitQueue_setMutex, h]
  exact Function.update_eq_self _ _

theorem waitQueue_setSemaphore_of_eq {sem : Nat} {inner : SemaphoreInner}
    (h : inner.waitQueue = (s.semaphores sem).waitQueue) : (s.setSemaphore sem inner).waitQueue = s.waitQueue := by
  rw [waitQueue_setSemaphore, h]
  exact Function.update_eq_self _ _

end Fields

/-! ## The invariant -/

/-- What the guarded runs keep: the three parts of `Consistent`, with waiting
    said of every queue, the current task running, and every waiting task in
    one queue, once. -/
structure QueueInv (s : Sched) : Prop where
  scheduledOnce : (s.current.toList ++ s.readyQueue).Nodup
  readyStatus : ∀ task ∈ s.readyQueue, s.status task = .ready
  waitingBlocked : ∀ task q, task ∈ s.waitQueue q → s.status task = .blocked
  currentRunning : ∀ task, s.current = some task → s.status task = .running
  waitNodup : ∀ q, (s.waitQueue q).Nodup
  waitUnique : ∀ task q q', task ∈ s.waitQueue q → task ∈ s.waitQueue q' → q = q'

namespace QueueInv

variable {s s' : Sched}

theorem consistent (hi : s.QueueInv) : s.Consistent where
  scheduledOnce := hi.scheduledOnce
  readyStatus := hi.readyStatus
  waitingBlocked task hwait := by
    obtain ⟨q, hq⟩ := inWaitQueue_iff.mp hwait
    exact hi.waitingBlocked task q hq

theorem not_mem_readyQueue (hi : s.QueueInv) {task : Nat} {q : WaitId} (hq : task ∈ s.waitQueue q) :
    task ∉ s.readyQueue := fun hready => by
  have hblocked := hi.waitingBlocked task q hq
  rw [hi.readyStatus task hready] at hblocked
  cases hblocked

theorem current_ne (hi : s.QueueInv) {task : Nat} {q : WaitId} (hq : task ∈ s.waitQueue q) :
    s.current ≠ some task := fun hcur => by
  have hblocked := hi.waitingBlocked task q hq
  rw [hi.currentRunning task hcur] at hblocked
  cases hblocked

theorem of_view_perm (hi : s.QueueInv) (hstatus : s'.status = s.status) (hcur : s'.current = s.current)
    (hready : s'.readyQueue.Perm s.readyQueue) (hwait : s'.waitQueue = s.waitQueue) : s'.QueueInv where
  scheduledOnce := by rw [hcur]; exact (hready.append_left _).nodup_iff.mpr hi.scheduledOnce
  readyStatus task h := by rw [hstatus]; exact hi.readyStatus task (hready.mem_iff.mp h)
  waitingBlocked task q h := by rw [hstatus]; exact hi.waitingBlocked task q (hwait ▸ h)
  currentRunning task h := by rw [hstatus]; exact hi.currentRunning task (hcur ▸ h)
  waitNodup q := hwait ▸ hi.waitNodup q
  waitUnique task q q' h h' := hi.waitUnique task q q' (hwait ▸ h) (hwait ▸ h')

theorem of_view (hi : s.QueueInv) (hstatus : s'.status = s.status) (hcur : s'.current = s.current)
    (hready : s'.readyQueue = s.readyQueue) (hwait : s'.waitQueue = s.waitQueue) : s'.QueueInv :=
  hi.of_view_perm hstatus hcur (hready ▸ List.Perm.refl _) hwait

theorem mem_update_iff {w : WaitId → List Nat} {q q' : WaitId} {queue : List Nat} {task : Nat} :
    task ∈ Function.update w q queue q' ↔ (q' = q ∧ task ∈ queue) ∨ (q' ≠ q ∧ task ∈ w q') := by
  by_cases h : q' = q
  · subst h
    simp
  · simp [h]

theorem of_block (hi : s.QueueInv) {task : Nat} {q : WaitId} {queue : List Nat}
    (hcur : s.current = some task) (hqueue : queue.Perm (task :: s.waitQueue q))
    (hstatus : s'.status = Function.update s.status task .blocked) (hcur' : s'.current = none)
    (hready : s'.readyQueue = s.readyQueue) (hwait : s'.waitQueue = Function.update s.waitQueue q queue) :
    s'.QueueInv := by
  have hsched := hi.scheduledOnce
  rw [hcur, Option.toList_some, List.singleton_append, List.nodup_cons] at hsched
  have hfree : ∀ q', task ∉ s.waitQueue q' := fun q' h => hi.current_ne h hcur
  have hmem : ∀ x q', x ∈ s'.waitQueue q' → x = task ∨ x ∈ s.waitQueue q' := by
    intro x q' h
    rw [hwait, mem_update_iff] at h
    rcases h with ⟨rfl, h⟩ | ⟨-, h⟩
    · exact List.mem_cons.mp (hqueue.mem_iff.mp h)
    · exact .inr h
  refine ⟨?_, fun x hx => ?_, fun x q' hx => ?_, fun x hx => ?_, fun q' => ?_, fun x q₁ q₂ h₁ h₂ => ?_⟩
  · rw [hcur', hready]
    exact hsched.2
  · have hne : x ≠ task := fun h => hsched.1 (h ▸ hready ▸ hx)
    rw [hstatus, Function.update_of_ne hne]
    exact hi.readyStatus x (hready ▸ hx)
  · rw [hstatus]
    rcases hmem x q' hx with rfl | h
    · exact Function.update_self _ _ _
    · by_cases hne : x = task
      · rw [hne, Function.update_self]
      · rw [Function.update_of_ne hne]
        exact hi.waitingBlocked x q' h
  · rw [hcur'] at hx
    cases hx
  · rw [hwait]
    by_cases h : q' = q
    · subst h
      rw [Function.update_self]
      exact hqueue.nodup_iff.mpr (List.nodup_cons.mpr ⟨hfree q', hi.waitNodup q'⟩)
    · rw [Function.update_of_ne h]
      exact hi.waitNodup q'
  · have honly : ∀ q', task ∈ s'.waitQueue q' → q' = q := by
      intro q' h
      rw [hwait, mem_update_iff] at h
      rcases h with ⟨rfl, -⟩ | ⟨-, h⟩
      · rfl
      · exact absurd h (hfree q')
    by_cases hx : x = task
    · subst hx
      rw [honly q₁ h₁, honly q₂ h₂]
    · exact hi.waitUnique x q₁ q₂ ((hmem x q₁ h₁).resolve_left hx) ((hmem x q₂ h₂).resolve_left hx)

/-- The front task of queue `q` leaves it and becomes ready; it joins
    `ready_queue` at either end, or, for `unblock_task` of a task not in
    `block_queue`, not at all. -/
theorem of_wake (hi : s.QueueInv) {task : Nat} {q : WaitId} {rest : List Nat}
    (hq : s.waitQueue q = task :: rest) (hstatus : s'.status = Function.update s.status task .ready)
    (hcur' : s'.current = s.current)
    (hready : s'.readyQueue.Perm (task :: s.readyQueue) ∨ s'.readyQueue = s.readyQueue)
    (hwait : s'.waitQueue = Function.update s.waitQueue q rest) : s'.QueueInv := by
  have hwaits : task ∈ s.waitQueue q := hq ▸ List.mem_cons_self
  have hnodup := hi.waitNodup q
  rw [hq, List.nodup_cons] at hnodup
  have hmem : ∀ x q', x ∈ s'.waitQueue q' → x ∈ s.waitQueue q' ∧ x ≠ task := by
    intro x q' h
    rw [hwait, mem_update_iff] at h
    rcases h with ⟨rfl, h⟩ | ⟨hne, h⟩
    · exact ⟨hq ▸ List.mem_cons_of_mem task h, fun hx => hnodup.1 (hx ▸ h)⟩
    · exact ⟨h, fun hx => hne (hi.waitUnique task q' q (hx ▸ h) hwaits)⟩
  have hready_mem : ∀ x ∈ s'.readyQueue, x = task ∨ x ∈ s.readyQueue := by
    intro x hx
    rcases hready with hperm | heq
    · exact List.mem_cons.mp (hperm.mem_iff.mp hx)
    · exact .inr (heq ▸ hx)
  have hnotready := hi.not_mem_readyQueue hwaits
  have hnotcur := hi.current_ne hwaits
  refine ⟨?_, fun x hx => ?_, fun x q' hx => ?_, fun x hx => ?_, fun q' => ?_, fun x q₁ q₂ h₁ h₂ => ?_⟩
  · rw [hcur']
    rcases hready with hperm | heq
    · have hout : task ∉ s.current.toList ++ s.readyQueue := by
        rw [List.mem_append, not_or]
        exact ⟨fun h => hnotcur (Option.mem_toList.mp h), hnotready⟩
      exact ((hperm.append_left s.current.toList).trans List.perm_middle).nodup_iff.mpr
        (List.nodup_cons.mpr ⟨hout, hi.scheduledOnce⟩)
    · rw [heq]
      exact hi.scheduledOnce
  · rw [hstatus]
    rcases hready_mem x hx with rfl | h
    · exact Function.update_self _ _ _
    · rw [Function.update_of_ne (fun hx : x = task => hnotready (hx ▸ h))]
      exact hi.readyStatus x h
  · obtain ⟨h, hne⟩ := hmem x q' hx
    rw [hstatus, Function.update_of_ne hne]
    exact hi.waitingBlocked x q' h
  · rw [hcur'] at hx
    rw [hstatus, Function.update_of_ne (fun h : x = task => hnotcur (h ▸ hx))]
    exact hi.currentRunning x hx
  · rw [hwait]
    by_cases h : q' = q
    · subst h
      rw [Function.update_self]
      exact hnodup.2
    · rw [Function.update_of_ne h]
      exact hi.waitNodup q'
  · exact hi.waitUnique x q₁ q₂ (hmem x q₁ h₁).1 (hmem x q₂ h₂).1

theorem leave (hi : s.QueueInv) : ({ s with current := none } : Sched).QueueInv where
  scheduledOnce := by
    have h := hi.scheduledOnce
    cases hcur : s.current with
    | none => rwa [hcur] at h
    | some task =>
        rw [hcur, Option.toList_some, List.singleton_append] at h
        exact (List.nodup_cons.mp h).2
  readyStatus := hi.readyStatus
  waitingBlocked := hi.waitingBlocked
  currentRunning _ h := by cases h
  waitNodup := hi.waitNodup
  waitUnique := hi.waitUnique

theorem setStatus_of_out (hi : s.QueueInv) {task : Nat} {status : TaskStatus}
    (hout : task ∉ s.current.toList ++ s.readyQueue) (hwait : status = .blocked ∨ ∀ q, task ∉ s.waitQueue q) :
    (s.setStatus task status).QueueInv where
  scheduledOnce := hi.scheduledOnce
  readyStatus x hx := by
    rw [status_setStatus, Function.update_of_ne (fun h : x = task => hout (h ▸ List.mem_append_right _ hx))]
    exact hi.readyStatus x hx
  waitingBlocked x q hx := by
    rw [status_setStatus]
    by_cases h : x = task
    · subst h
      rcases hwait with rfl | hfree
      · exact Function.update_self _ _ _
      · exact absurd hx (hfree q)
    · rw [Function.update_of_ne h]
      exact hi.waitingBlocked x q hx
  currentRunning x hx := by
    rw [current_setStatus] at hx
    rw [status_setStatus, Function.update_of_ne (fun h : x = task => hout (h ▸ List.mem_append_left _ (by simp [hx])))]
    exact hi.currentRunning x hx
  waitNodup := hi.waitNodup
  waitUnique := hi.waitUnique

theorem removeTask (hi : s.QueueInv) (task : Nat) : (s.removeTask task).QueueInv where
  scheduledOnce := by
    simp only [current_removeTask, readyQueue_removeTask]
    exact ((List.erase_sublist).append_left _).nodup hi.scheduledOnce
  readyStatus x hx := hi.readyStatus x (List.mem_of_mem_erase hx)
  waitingBlocked := hi.waitingBlocked
  currentRunning := hi.currentRunning
  waitNodup := hi.waitNodup
  waitUnique := hi.waitUnique

theorem removeTasks (threads : List Nat) :
    ∀ {s : Sched}, s.QueueInv → (threads.foldl Sched.removeTask s).QueueInv := by
  induction threads with
  | nil => exact id
  | cons task threads ih => exact fun hi => ih (hi.removeTask task)

theorem add (hi : s.QueueInv) {task : Nat} (hout : task ∉ s.current.toList ++ s.readyQueue)
    (hfree : ∀ q, task ∉ s.waitQueue q) : ((s.setStatus task .ready).addTask task).QueueInv := by
  have hnotcur : s.current ≠ some task := fun h => hout (List.mem_append_left _ (by simp [h]))
  have hnotready : task ∉ s.readyQueue := fun h => hout (List.mem_append_right _ h)
  refine ⟨?_, fun x hx => ?_, fun x q hx => ?_, fun x hx => ?_, hi.waitNodup, hi.waitUnique⟩
  · simp only [current_addTask, current_setStatus, readyQueue_addTask, readyQueue_setStatus,
      ← List.append_assoc]
    exact (List.perm_append_singleton task _).nodup_iff.mpr (List.nodup_cons.mpr ⟨hout, hi.scheduledOnce⟩)
  · simp only [readyQueue_addTask, readyQueue_setStatus, List.mem_append, List.mem_singleton] at hx
    simp only [status_addTask, status_setStatus]
    rcases hx with h | rfl
    · rw [Function.update_of_ne (fun hx : x = task => hnotready (hx ▸ h))]
      exact hi.readyStatus x h
    · exact Function.update_self _ _ _
  · simp only [waitQueue_addTask, waitQueue_setStatus] at hx
    simp only [status_addTask, status_setStatus]
    rw [Function.update_of_ne (fun h : x = task => hfree q (h ▸ hx))]
    exact hi.waitingBlocked x q hx
  · simp only [current_addTask, current_setStatus] at hx
    simp only [status_addTask, status_setStatus]
    rw [Function.update_of_ne (fun h : x = task => hnotcur (h ▸ hx))]
    exact hi.currentRunning x hx

theorem unblockTask_of_free (hi : s.QueueInv) {task : Nat} (hcur : s.current = none)
    (hblocked : s.status task = .blocked) (hfree : ∀ q, task ∉ s.waitQueue q) : (s.unblockTask task).QueueInv := by
  have hnotready : task ∉ s.readyQueue := fun h => by
    rw [hi.readyStatus task h] at hblocked
    cases hblocked
  have hout : task ∉ s.current.toList ++ s.readyQueue := by simpa [hcur] using hnotready
  unfold unblockTask
  dsimp only
  split
  · exact (hi.add hout hfree).of_view_perm rfl rfl (List.perm_append_singleton task s.readyQueue).symm rfl
  · exact hi.setStatus_of_out hout (.inr hfree)

theorem blockCurrent (hi : s.QueueInv) {s₁ : Sched} {task : Nat} {q : WaitId} {queue : List Nat}
    (hcur : s.current = some task) (h : s₁.blockCurrentAndRunNext = some s')
    (hwait : s₁.waitQueue = Function.update s.waitQueue q queue) (hqueue : queue.Perm (task :: s.waitQueue q))
    (hstatus : s₁.status = s.status) (hcur₁ : s₁.current = s.current) (hready : s₁.readyQueue = s.readyQueue) :
    s'.QueueInv := by
  rw [blockCurrentAndRunNext, hcur₁, hcur, Option.map_some, Option.some.injEq] at h
  subst h
  exact hi.of_block hcur hqueue (by simp [hstatus]) rfl (by simp [hready]) (by simp [hwait])

theorem wakeup (hi : s.QueueInv) {s₁ : Sched} {task : Nat} {q : WaitId} {rest : List Nat}
    (hq : s.waitQueue q = task :: rest) (hwait : s₁.waitQueue = Function.update s.waitQueue q rest)
    (hstatus : s₁.status = s.status) (hcur₁ : s₁.current = s.current) (hready : s₁.readyQueue = s.readyQueue) :
    (s₁.wakeupTask task).QueueInv :=
  hi.of_wake hq (by simp [wakeupTask, hstatus]) (by simp [wakeupTask, hcur₁])
    (.inl (by simp [wakeupTask, hready]))
    (by simp [wakeupTask, hwait])

theorem unblock (hi : s.QueueInv) {s₁ : Sched} {task : Nat} {q : WaitId} {rest : List Nat}
    (hq : s.waitQueue q = task :: rest) (hwait : s₁.waitQueue = Function.update s.waitQueue q rest)
    (hstatus : s₁.status = s.status) (hcur₁ : s₁.current = s.current) (hready : s₁.readyQueue = s.readyQueue) :
    (s₁.unblockTask task).QueueInv := by
  unfold unblockTask
  dsimp only
  split
  · exact hi.of_wake hq (by simp [hstatus]) (by simp [hcur₁]) (.inl (by simp [hready]))
      (by rw [← hwait]; rfl)
  · exact hi.of_wake hq (by simp [hstatus]) (by simp [hcur₁]) (.inr (by simp [hready])) (by simp [hwait])

/-! ### One lemma per operation -/

theorem fetch (hi : s.QueueInv) (h : s.runTasks = some s') : s'.QueueInv := by
  unfold Sched.runTasks at h
  cases hcur : s.current with
  | some _ => simp [hcur] at h
  | none =>
      cases hready : s.readyQueue with
      | nil =>
          simp only [hcur, hready, Option.some.injEq] at h
          exact h ▸ hi
      | cons task rest =>
          simp only [hcur, hready, Option.some.injEq] at h
          subst h
          have hsched := hi.scheduledOnce
          rw [hcur, hready, Option.toList_none, List.nil_append, List.nodup_cons] at hsched
          have hnotwait : ∀ q, task ∉ s.waitQueue q := fun q h =>
            hi.not_mem_readyQueue h (hready ▸ List.mem_cons_self)
          refine ⟨?_, fun x hx => ?_, fun x q hx => ?_, fun x hx => ?_, hi.waitNodup, hi.waitUnique⟩
          · simpa using hsched
          · simp only [readyQueue_setStatus] at hx
            rw [status_setStatus, Function.update_of_ne (fun h : x = task => hsched.1 (h ▸ hx))]
            exact hi.readyStatus x (hready ▸ List.mem_cons_of_mem task hx)
          · simp only [waitQueue_setStatus] at hx
            rw [status_setStatus, Function.update_of_ne (fun h : x = task => hnotwait q (h ▸ hx))]
            exact hi.waitingBlocked x q hx
          · simp only [current_setStatus, Option.some.injEq] at hx
            subst hx
            exact Function.update_self _ _ _

theorem mutexLock (hi : s.QueueInv) {m : Nat} (h : s.mutexLock m = some s') : s'.QueueInv := by
  unfold Sched.mutexLock at h
  obtain ⟨task, hcur, h⟩ := Option.bind_eq_some_iff.mp h
  dsimp only at h
  split at h
  · exact hi.blockCurrent hcur h (waitQueue_setMutex s m _) (List.perm_append_singleton task _) rfl rfl rfl
  · cases h
    exact hi.of_view rfl rfl rfl (waitQueue_setMutex_of_eq s rfl)

theorem mutexUnlock (hi : s.QueueInv) {m : Nat} (h : s.mutexUnlock m = some s') :
    s'.QueueInv ∧ s'.current = s.current := by
  unfold Sched.mutexUnlock at h
  dsimp only at h
  split at h
  · split at h
    · rename_i waking rest hq
      cases h
      have hq' : s.waitQueue (.mutex m) = waking :: rest := hq
      exact ⟨hi.wakeup hq' (waitQueue_setMutex s m _) rfl rfl rfl, rfl⟩
    · cases h
      exact ⟨hi.of_view rfl rfl rfl (waitQueue_setMutex_of_eq s rfl), rfl⟩
  · cases h

theorem semaphoreUp (hi : s.QueueInv) (sem : Nat) : (s.semaphoreUp sem).QueueInv := by
  unfold Sched.semaphoreUp
  dsimp only
  split
  · split
    · rename_i task rest hq
      have hq' : s.waitQueue (.semaphore sem) = task :: rest := hq
      exact hi.wakeup hq' (waitQueue_setSemaphore s sem _) rfl rfl rfl
    · exact hi.of_view rfl rfl rfl (waitQueue_setSemaphore_of_eq s rfl)
  · exact hi.of_view rfl rfl rfl (waitQueue_setSemaphore_of_eq s rfl)

theorem semaphoreDown (hi : s.QueueInv) {sem : Nat} (h : s.semaphoreDown sem = some s') : s'.QueueInv := by
  unfold Sched.semaphoreDown at h
  obtain ⟨task, hcur, h⟩ := Option.bind_eq_some_iff.mp h
  dsimp only at h
  split at h
  · exact hi.blockCurrent hcur h (waitQueue_setSemaphore s sem _) (List.perm_append_singleton task _) rfl rfl
      rfl
  · cases h
    exact hi.of_view rfl rfl rfl (waitQueue_setSemaphore_of_eq s rfl)

theorem condvarSignal (hi : s.QueueInv) (c : Nat) : (s.condvarSignal c).QueueInv := by
  unfold Sched.condvarSignal
  split
  · rename_i task rest hq
    have hq' : s.waitQueue (.condvar c) = task :: rest := hq
    exact hi.wakeup hq' (waitQueue_setCondvar s c rest) rfl rfl rfl
  · exact hi

theorem condvarWait (hi : s.QueueInv) {c m : Nat} (h : s.condvarWait c m = some s') : s'.QueueInv := by
  unfold Sched.condvarWait at h
  obtain ⟨s₁, hunlock, h⟩ := Option.bind_eq_some_iff.mp h
  obtain ⟨hi₁, -⟩ := hi.mutexUnlock hunlock
  obtain ⟨task, hcur, h⟩ := Option.bind_eq_some_iff.mp h
  exact hi₁.blockCurrent hcur h (waitQueue_setCondvar s₁ c _) (List.perm_append_singleton task _) rfl rfl rfl

theorem futexWait (hi : s.QueueInv) {uaddr : Nat} (h : s.futexWait uaddr = some s') : s'.QueueInv := by
  unfold Sched.futexWait at h
  obtain ⟨task, hcur, h⟩ := Option.bind_eq_some_iff.mp h
  exact hi.blockCurrent hcur h (waitQueue_setFutex s uaddr _) (List.Perm.refl _) rfl rfl rfl

theorem futexSignal (uaddr : Nat) : ∀ (val : Nat) {s : Sched}, s.QueueInv → (s.futexSignal uaddr val).QueueInv
  | 0, _, hi => hi
  | val + 1, s, hi => by
      rw [Sched.futexSignal]
      split
      · rename_i task rest hq
        have hq' : s.waitQueue (.futex uaddr) = task :: rest := by simp [waitQueue, hq]
        exact futexSignal uaddr val (hi.unblock hq' (waitQueue_setFutex s uaddr rest) rfl rfl rfl)
      · exact hi

end QueueInv

/-! ## Guarded runs -/

/-- The events the invariant needs guarded: `fork` adds a task that is neither
    scheduled nor blocked, and the exit of a child finds its parent's main
    thread, if blocked, in no wait queue, so that `unblock_task` takes no
    waiter out. -/
def Allowed (s : Sched) : Event → Prop
  | .spawn task => task ∉ s.current.toList ++ s.readyQueue ∧ s.status task ≠ .blocked
  | .exit (some parentMain) _ => s.status parentMain = .blocked → ∀ q, parentMain ∉ s.waitQueue q
  | _ => True

theorem queueInv_boot : boot.QueueInv := by
  have hempty : ∀ q, boot.waitQueue q = [] := fun q => by cases q <;> rfl
  refine ⟨by decide, fun task _ => rfl, fun task q h => ?_, fun task h => ?_, fun q => ?_,
    fun task q _ h _ => ?_⟩
  · rw [hempty] at h
    cases h
  · cases h
  · rw [hempty]
    exact List.nodup_nil
  · rw [hempty] at h
    cases h

theorem QueueInv.exit {s s' : Sched} (hi : s.QueueInv) {parentMain : Option Nat} {threads : List Nat}
    (hallowed : Allowed s (.exit parentMain threads)) (h : s.exitCurrentAndRunNext parentMain threads = some s') :
    s'.QueueInv := by
  obtain ⟨_, -, rfl⟩ := Option.map_eq_some_iff.mp h
  apply QueueInv.removeTasks
  cases parentMain with
  | none => exact hi.leave
  | some parentMain =>
      dsimp only
      split
      · rename_i hblocked
        exact hi.leave.unblockTask_of_free rfl hblocked (hallowed hblocked)
      · exact hi.leave

theorem QueueInv.step {s s' : Sched} (hi : s.QueueInv) {event : Event} (hallowed : Allowed s event)
    (h : step s event = some s') : s'.QueueInv := by
  cases event with
  | fetch => exact hi.fetch h
  | suspend =>
      obtain ⟨task, hcur, rfl⟩ := Option.map_eq_some_iff.mp h
      have hsched := hi.scheduledOnce
      rw [hcur, Option.toList_some, List.singleton_append, List.nodup_cons] at hsched
      exact hi.leave.add (by simpa using hsched.1) fun q h => hi.current_ne h hcur
  | spawn task =>
      cases h
      exact hi.add hallowed.1 fun q hq => hallowed.2 (hi.waitingBlocked task q hq)
  | mutexLock m => exact hi.mutexLock h
  | mutexUnlock m =>
      obtain ⟨_, -, h⟩ := Option.bind_eq_some_iff.mp h
      exact (hi.mutexUnlock h).1
  | semaphoreUp sem =>
      obtain ⟨_, -, rfl⟩ := Option.map_eq_some_iff.mp h
      exact hi.semaphoreUp sem
  | semaphoreDown sem => exact hi.semaphoreDown h
  | condvarSignal c =>
      obtain ⟨_, -, rfl⟩ := Option.map_eq_some_iff.mp h
      exact hi.condvarSignal c
  | condvarWait c m =>
      obtain ⟨_, -, h⟩ := Option.bind_eq_some_iff.mp h
      exact hi.condvarWait h
  | futexWait uaddr => exact hi.futexWait h
  | futexSignal uaddr val =>
      obtain ⟨_, -, rfl⟩ := Option.map_eq_some_iff.mp h
      exact QueueInv.futexSignal uaddr val hi
  | wait4 =>
      obtain ⟨task, hcur, rfl⟩ := Option.map_eq_some_iff.mp h
      have hsched := hi.scheduledOnce
      rw [hcur, Option.toList_some, List.singleton_append, List.nodup_cons] at hsched
      exact hi.leave.setStatus_of_out (by simpa using hsched.1) (.inl rfl) |>.of_view rfl rfl rfl rfl
  | exit parentMain threads => exact hi.exit hallowed h

/-- On every run from boot whose `fork`s add tasks that are neither scheduled
    nor blocked and whose exits find the parent's main thread, if blocked,
    blocked in `wait4` and in no wait queue, the queues stay consistent: no
    task is twice on the processor and in `ready_queue`, ready tasks are
    `Ready`, and waiting tasks are `Blocked`, each in one wait queue, once,
    while the current task runs. -/
theorem guarded_runs_keep_queue_invariant {events : List Event} {s : Sched}
    (hrun : StepRun.Steps (StepRun.Guarded Allowed step) boot events s) :
    StepRun.exec step boot events = some s ∧ s.Consistent ∧ s.QueueInv := by
  have hinv : s.QueueInv :=
    StepRun.Steps.invariant (fun _ _ _ hi h => hi.step h.1 h.2) hrun queueInv_boot
  exact ⟨StepRun.exec_of_steps_guarded hrun, hinv.consistent, hinv⟩

/-- Task 1 forks 2 and waits for it in `wait4`, and the exit of 2 wakes it;
    then 1 takes mutex 0 and forks 3, which blocks on the mutex until 1 unlocks
    it; at last 1 waits on futex word 7 and 3 wakes it. -/
def handoff : List Event :=
  [.fetch, .spawn 2, .wait4, .fetch, .exit (some 1) [2], .fetch, .mutexLock 0, .spawn 3, .suspend, .fetch,
    .mutexLock 0, .fetch, .mutexUnlock 0, .futexWait 7, .fetch, .futexSignal 7 1]

theorem handoff_keeps_queue_invariant :
    ∃ s, StepRun.Steps (StepRun.Guarded Allowed step) boot handoff s ∧
      StepRun.exec step boot handoff = some s ∧ s.Consistent ∧ s.QueueInv := by
  have hrun : StepRun.Steps (StepRun.Guarded Allowed step) boot handoff _ :=
    .cons ⟨trivial, rfl⟩ <| .cons ⟨⟨by decide, by decide⟩, rfl⟩ <| .cons ⟨trivial, rfl⟩ <|
    .cons ⟨trivial, rfl⟩ <| .cons ⟨fun _ q => by cases q <;> exact List.not_mem_nil, rfl⟩ <|
    .cons ⟨trivial, rfl⟩ <| .cons ⟨trivial, rfl⟩ <| .cons ⟨⟨by decide, by decide⟩, rfl⟩ <|
    .cons ⟨trivial, rfl⟩ <| .cons ⟨trivial, rfl⟩ <| .cons ⟨trivial, rfl⟩ <| .cons ⟨trivial, rfl⟩ <|
    .cons ⟨trivial, rfl⟩ <| .cons ⟨trivial, rfl⟩ <| .cons ⟨trivial, rfl⟩ <| .cons ⟨trivial, rfl⟩ <| .nil _
  exact ⟨_, hrun, guarded_runs_keep_queue_invariant hrun⟩

end Sched

end OsKernel.Task
