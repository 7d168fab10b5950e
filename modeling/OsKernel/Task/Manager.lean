import OsKernel.Lib.Run

/-! # The scheduler and its blocking primitives

One processor (`Processor::current`), the `TaskManager` with its `ready_queue`
and `block_queue` (`task/manager.rs`), the status of every task, and the wait
queues of `MutexBlocking`, `Semaphore`, `Condvar` and `Futex`
(`sync/*.rs`).  A task is its `Arc` pointer, here a number.  Every event but
`fetch` is performed by the current task; an event without a current task, or
a failed `assert!`, is `none`.

Two wake-up paths exist: `wakeup_task` (mutex unlock, semaphore up, condvar
signal) appends to `ready_queue` and leaves `block_queue` alone, while
`unblock_task` (futex signal, the exit of a child) takes the task out of
`block_queue` and puts it at the front of `ready_queue`.
-/

namespace OsKernel.Task

/-- `TaskStatus`. -/
inductive TaskStatus where
  | ready
  | running
  | blocked
  deriving DecidableEq, Repr

/-- `MutexBlockingInner`. -/
structure MutexBlockingInner where
  locked : Bool
  waitQueue : List Nat

/-- `SemaphoreInner`. -/
structure SemaphoreInner where
  count : Int
  waitQueue : List Nat

/-- The scheduling state of the whole system. -/
structure Sched where
  /-- `task_status` of every task. -/
  status : Nat → TaskStatus
  /-- `PROCESSOR.current`. -/
  current : Option Nat
  readyQueue : List Nat
  blockQueue : List Nat
  mutexes : Nat → MutexBlockingInner
  semaphores : Nat → SemaphoreInner
  /-- The wait queue of every `Condvar`. -/
  condvars : Nat → List Nat
  /-- `Futex::inner`: the wait queue of every futex word that has one. -/
  futexes : Nat → Option (List Nat)

/-- What the current task (or, for `fetch`, the idle loop) does. -/
inductive Event where
  /-- One round of `run_tasks`. -/
  | fetch
  /-- `suspend_current_and_run_next`. -/
  | suspend
  /-- `add_task` of a task just made by `fork` or `clone`. -/
  | spawn (task : Nat)
  | mutexLock (mutex : Nat)
  | mutexUnlock (mutex : Nat)
  | semaphoreUp (sem : Nat)
  | semaphoreDown (sem : Nat)
  | condvarSignal (condvar : Nat)
  | condvarWait (condvar mutex : Nat)
  /-- `futex_wait` when the futex word matches. -/
  | futexWait (uaddr : Nat)
  | futexSignal (uaddr val : Nat)
  /-- `sys_wait4` without `WNOHANG` while no child is a zombie: the task
      blocks in no wait queue. -/
  | wait4
  /-- `exit_current_and_run_next`: `parentMain` is the main thread of the
      parent process when the process has an `exit_signal` (`initproc` has
      none), and `threads` are the tasks of the process when the exiting thread
      is its main thread, which `remove_inactive_task` takes out of
      `ready_queue` (no task otherwise). -/
  | exit (parentMain : Option Nat) (threads : List Nat)

namespace Sched

def setStatus (s : Sched) (task : Nat) (status : TaskStatus) : Sched :=
  { s with status := Function.update s.status task status }

/-- `TaskManager::add`. -/
def addTask (s : Sched) (task : Nat) : Sched :=
  { s with readyQueue := s.readyQueue ++ [task] }

/-- `TaskManager::add_block`. -/
def blockTask (s : Sched) (task : Nat) : Sched :=
  { s with blockQueue := s.blockQueue ++ [task] }

/-- `wakeup_task`: mark ready and append to `ready_queue`. -/
def wakeupTask (s : Sched) (task : Nat) : Sched :=
  (s.setStatus task .ready).addTask task

/-- `unblock_task`: mark ready; if the task is in `block_queue`, move its first
    occurrence to the front of `ready_queue`. -/
def unblockTask (s : Sched) (task : Nat) : Sched :=
  let s := s.setStatus task .ready
  if task ∈ s.blockQueue then
    { s with blockQueue := s.blockQueue.erase task, readyQueue := task :: s.readyQueue }
  else s

/-- `suspend_current_and_run_next`. -/
def suspendCurrentAndRunNext (s : Sched) : Option Sched :=
  s.current.map fun task => (({ s with current := none } : Sched).setStatus task .ready).addTask task

/-- `block_current_and_run_next`. -/
def blockCurrentAndRunNext (s : Sched) : Option Sched :=
  s.current.map fun task =>
    (({ s with current := none } : Sched).setStatus task .blocked).blockTask task

/-- One round of the `run_tasks` loop, which only runs while no task does. -/
def runTasks (s : Sched) : Option Sched :=
  match s.current, s.readyQueue with
  | some _, _ => none
  | none, [] => some s
  | none, task :: rest =>
      some (({ s with readyQueue := rest, current := some task } : Sched).setStatus task .running)

def setMutex (s : Sched) (mutex : Nat) (inner : MutexBlockingInner) : Sched :=
  { s with mutexes := Function.update s.mutexes mutex inner }

def setSemaphore (s : Sched) (sem : Nat) (inner : SemaphoreInner) : Sched :=
  { s with semaphores := Function.update s.semaphores sem inner }

def setCondvar (s : Sched) (condvar : Nat) (queue : List Nat) : Sched :=
  { s with condvars := Function.update s.condvars condvar queue }

def setFutex (s : Sched) (uaddr : Nat) (queue : List Nat) : Sched :=
  { s with futexes := Function.update s.futexes uaddr (some queue) }

/-- `MutexBlocking::lock`. -/
def mutexLock (s : Sched) (mutex : Nat) : Option Sched :=
  s.current.bind fun task =>
    let inner := s.mutexes mutex
    if inner.locked then
      (s.setMutex mutex { inner with waitQueue := inner.waitQueue ++ [task] }).blockCurrentAndRunNext
    else some (s.setMutex mutex { inner with locked := true })

/-- `MutexBlocking::unlock`: hand the lock to the first waiter, if any. -/
def mutexUnlock (s : Sched) (mutex : Nat) : Option Sched :=
  let inner := s.mutexes mutex
  if inner.locked then
    match inner.waitQueue with
    | waking :: rest => some ((s.setMutex mutex { inner with waitQueue := rest }).wakeupTask waking)
    | [] => some (s.setMutex mutex { inner with locked := false })
  else none

/-- `Semaphore::up`. -/
def semaphoreUp (s : Sched) (sem : Nat) : Sched :=
  let inner := s.semaphores sem
  let inner := { inner with count := inner.count + 1 }
  if inner.count ≤ 0 then
    match inner.waitQueue with
    | task :: rest => (s.setSemaphore sem { inner with waitQueue := rest }).wakeupTask task
    | [] => s.setSemaphore sem inner
  else s.setSemaphore sem inner

/-- `Semaphore::down`. -/
def semaphoreDown (s : Sched) (sem : Nat) : Option Sched :=
  s.current.bind fun task =>
    let inner := s.semaphores sem
    let inner := { inner with count := inner.count - 1 }
    if inner.count < 0 then
      (s.setSemaphore sem { inner with waitQueue := inner.waitQueue ++ [task] }).blockCurrentAndRunNext
    else some (s.setSemaphore sem inner)

/-- `Condvar::signal`. -/
def condvarSignal (s : Sched) (condvar : Nat) : Sched :=
  match s.condvars condvar with
  | task :: rest => (s.setCondvar condvar rest).wakeupTask task
  | [] => s

/-- `Condvar::wait` up to its block: unlock the mutex, queue the current task
    and block.  Taking the mutex again is a later `mutexLock` of the task. -/
def condvarWait (s : Sched) (condvar mutex : Nat) : Option Sched :=
  (s.mutexUnlock mutex).bind fun s =>
    s.current.bind fun task =>
      (s.setCondvar condvar (s.condvars condvar ++ [task])).blockCurrentAndRunNext

/-- `futex_wait` of a matching word: push the current task at the front of the
    word's queue and block. -/
def futexWait (s : Sched) (uaddr : Nat) : Option Sched :=
  s.current.bind fun task =>
    (s.setFutex uaddr (task :: (s.futexes uaddr).getD [])).blockCurrentAndRunNext

/-- The loop of `futex_signal`: up to `val` times, pop the front waiter and
    `unblock_task` it; the loop returns at an empty queue or a missing word. -/
def futexSignal (s : Sched) (uaddr : Nat) : Nat → Sched
  | 0 => s
  | val + 1 =>
      match s.futexes uaddr with
      | some (task :: rest) => ((s.setFutex uaddr rest).unblockTask task).futexSignal uaddr val
      | _ => s

/-- `EINVAL`, which `futex_signal` returns for a word that has no queue. -/
def einval : Int := -22

/-- The loop `for cnt in 0..val` of `futex_signal` with what it returns,
    `rounds` rounds before its end: `cnt + 1` at an empty queue, `EINVAL` for a
    word without a queue, and `val` after the last round. -/
def futexSignalLoop (s : Sched) (uaddr val : Nat) : Nat → Nat → Sched × Int
  | 0, _ => (s, val)
  | rounds + 1, cnt =>
      match s.futexes uaddr with
      | some (task :: rest) =>
          ((s.setFutex uaddr rest).unblockTask task).futexSignalLoop uaddr val rounds (cnt + 1)
      | some [] => (s, cnt + 1)
      | none => (s, einval)

/-- `futex_signal(uaddr, val)`: the system after it and its return value. -/
def futexSignalCall (s : Sched) (uaddr val : Nat) : Sched × Int :=
  s.futexSignalLoop uaddr val val 0

/-- `TaskManager::remove`: the first occurrence of the task leaves `ready_queue`. -/
def removeTask (s : Sched) (task : Nat) : Sched :=
  { s with readyQueue := s.readyQueue.erase task }

/-- The scheduling part of `exit_current_and_run_next`: the task leaves the
    processor; when the parent's main thread is blocked, `unblock_task` wakes
    it; the exit of a main thread then removes every thread of its process from
    `ready_queue`. -/
def exitCurrentAndRunNext (s : Sched) (parentMain : Option Nat) (threads : List Nat) : Option Sched :=
  s.current.map fun _ =>
    let s : Sched := { s with current := none }
    let s := match parentMain with
      | some parentMain => if s.status parentMain = .blocked then s.unblockTask parentMain else s
      | none => s
    threads.foldl removeTask s

/-- The step function of the system. -/
def step (s : Sched) : Event → Option Sched
  | .fetch => s.runTasks
  | .suspend => s.suspendCurrentAndRunNext
  | .spawn task => some ((s.setStatus task .ready).addTask task)
  | .mutexLock mutex => s.mutexLock mutex
  | .mutexUnlock mutex => s.current.bind fun _ => s.mutexUnlock mutex
  | .semaphoreUp sem => s.current.map fun _ => s.semaphoreUp sem
  | .semaphoreDown sem => s.semaphoreDown sem
  | .condvarSignal condvar => s.current.map fun _ => s.condvarSignal condvar
  | .condvarWait condvar mutex => s.current.bind fun _ => s.condvarWait condvar mutex
  | .futexWait uaddr => s.futexWait uaddr
  | .futexSignal uaddr val => s.current.map fun _ => s.futexSignal uaddr val
  | .wait4 => s.blockCurrentAndRunNext
  | .exit parentMain threads => s.exitCurrentAndRunNext parentMain threads

/-- Task `task` waits on some mutex, semaphore, condvar or futex word. -/
def InWaitQueue (s : Sched) (task : Nat) : Prop :=
  (∃ m, task ∈ (s.mutexes m).waitQueue) ∨ (∃ sem, task ∈ (s.semaphores sem).waitQueue) ∨
    (∃ c, task ∈ s.condvars c) ∨ (∃ uaddr queue, s.futexes uaddr = some queue ∧ task ∈ queue)

/-- No task is twice on the processor and in `ready_queue` together, every
    task in `ready_queue` is `Ready`, and every task in a wait queue is
    `Blocked`. -/
structure Consistent (s : Sched) : Prop where
  scheduledOnce : (s.current.toList ++ s.readyQueue).Nodup
  readyStatus : ∀ task ∈ s.readyQueue, s.status task = .ready
  waitingBlocked : ∀ task, s.InWaitQueue task → s.status task = .blocked

/-- The system after boot: the main thread `1` of `initproc` is ready. -/
def boot : Sched where
  status := fun _ => .ready
  current := none
  readyQueue := [1]
  blockQueue := []
  mutexes := fun _ => ⟨false, []⟩
  semaphores := fun _ => ⟨0, []⟩
  condvars := fun _ => []
  futexes := fun _ => none

@[simp] theorem futexes_setFutex (s : Sched) (uaddr : Nat) (queue : List Nat) :
    (s.setFutex uaddr queue).futexes = Function.update s.futexes uaddr (some queue) :=
  rfl

@[simp] theorem status_setFutex (s : Sched) (uaddr : Nat) (queue : List Nat) :
    (s.setFutex uaddr queue).status = s.status :=
  rfl

@[simp] theorem futexes_unblockTask (s : Sched) (task : Nat) :
    (s.unblockTask task).futexes = s.futexes := by
  unfold unblockTask
  dsimp only
  split <;> rfl

@[simp] theorem status_unblockTask (s : Sched) (task : Nat) :
    (s.unblockTask task).status = Function.update s.status task .ready := by
  unfold unblockTask
  dsimp only
  split <;> rfl

theorem futexSignalLoop_fst (uaddr val : Nat) :
    ∀ (rounds : Nat) (s : Sched) (cnt : Nat),
      (s.futexSignalLoop uaddr val rounds cnt).1 = s.futexSignal uaddr rounds
  | 0, s, cnt => rfl
  | rounds + 1, s, cnt => by
      rw [futexSignalLoop, futexSignal]
      cases s.futexes uaddr with
      | none => rfl
      | some queue =>
          cases queue with
          | nil => rfl
          | cons task rest => exact futexSignalLoop_fst uaddr val rounds _ (cnt + 1)

theorem futexSignalLoop_snd (uaddr val : Nat) :
    ∀ (rounds : Nat) (s : Sched) (cnt : Nat),
      (s.futexSignalLoop uaddr val rounds cnt).2 =
        match s.futexes uaddr with
        | none => if rounds = 0 then (val : Int) else einval
        | some queue => if queue.length < rounds then ((cnt + queue.length + 1 : Nat) : Int)
            else val
  | 0, s, cnt => by
      cases s.futexes uaddr <;> rfl
  | rounds + 1, s, cnt => by
      rw [futexSignalLoop]
      cases hqueue : s.futexes uaddr with
      | none => rfl
      | some queue =>
          cases queue with
          | nil => simp
          | cons task rest =>
              dsimp only
              rw [futexSignalLoop_snd uaddr val rounds]
              simp only [futexes_unblockTask, futexes_setFutex, Function.update_self,
                List.length_cons]
              by_cases hlt : rest.length < rounds
              · rw [if_pos hlt, if_pos (by omega)]
                congr 1
                omega
              · rw [if_neg hlt, if_neg (by omega)]

theorem futexSignalLoop_futexes (uaddr val : Nat) :
    ∀ (rounds : Nat) (s : Sched) (cnt : Nat),
      (s.futexSignalLoop uaddr val rounds cnt).1.futexes =
        match s.futexes uaddr with
        | none => s.futexes
        | some queue => Function.update s.futexes uaddr (some (queue.drop rounds))
  | 0, s, cnt => by
      cases hqueue : s.futexes uaddr with
      | none => rfl
      | some queue => simp [futexSignalLoop, ← hqueue]
  | rounds + 1, s, cnt => by
      rw [futexSignalLoop]
      cases hqueue : s.futexes uaddr with
      | none => rfl
      | some queue =>
          cases queue with
          | nil => simp [← hqueue]
          | cons task rest =>
              dsimp only
              rw [futexSignalLoop_futexes uaddr val rounds]
              simp

theorem futexSignalLoop_status_of_ready (uaddr val : Nat) {task : Nat} :
    ∀ (rounds : Nat) (s : Sched) (cnt : Nat), s.status task = .ready →
      (s.futexSignalLoop uaddr val rounds cnt).1.status task = .ready
  | 0, s, cnt, h => h
  | rounds + 1, s, cnt, h => by
      rw [futexSignalLoop]
      cases s.futexes uaddr with
      | none => exact h
      | some queue =>
          cases queue with
          | nil => exact h
          | cons woken rest =>
              apply futexSignalLoop_status_of_ready uaddr val rounds
              by_cases hw : task = woken
              · simp [hw]
              · simp [Function.update_of_ne hw, h]

theorem futexSignalLoop_status (uaddr val : Nat) :
    ∀ (rounds : Nat) (s : Sched) (cnt : Nat),
      ∀ task ∈ ((s.futexes uaddr).getD []).take rounds,
        (s.futexSignalLoop uaddr val rounds cnt).1.status task = .ready
  | 0, s, cnt, task, htask => by simp at htask
  | rounds + 1, s, cnt, task, htask => by
      rw [futexSignalLoop]
      cases hqueue : s.futexes uaddr with
      | none => simp [hqueue] at htask
      | some queue =>
          rw [hqueue] at htask
          cases queue with
          | nil => simp at htask
          | cons woken rest =>
              dsimp only
              rcases List.mem_cons.mp (List.take_succ_cons ▸ htask) with rfl | hrest
              · apply futexSignalLoop_status_of_ready
                simp
              · apply futexSignalLoop_status uaddr val rounds
                simpa using hrest

/-- `futex_signal(uaddr, val)` wakes the first `val` tasks of the queue of
    `uaddr`, at most all of them, and leaves the other words alone; it returns
    `val` when the queue holds that many, one more than the queue's length when
    it holds fewer, and `EINVAL` for a word that has no queue. -/
theorem futex_signal_spec (s : Sched) (uaddr val : Nat) :
    (s.futexSignalCall uaddr val).1.futexes =
        (match s.futexes uaddr with
        | none => s.futexes
        | some queue => Function.update s.futexes uaddr (some (queue.drop val))) ∧
      (∀ task ∈ ((s.futexes uaddr).getD []).take val,
        (s.futexSignalCall uaddr val).1.status task = .ready) ∧
      (s.futexSignalCall uaddr val).2 =
        match s.futexes uaddr with
        | none => if val = 0 then 0 else einval
        | some queue => if queue.length < val then ((queue.length + 1 : Nat) : Int) else val := by
  refine ⟨futexSignalLoop_futexes uaddr val val s 0, futexSignalLoop_status uaddr val val s 0, ?_⟩
  rw [futexSignalCall, futexSignalLoop_snd]
  cases s.futexes uaddr with
  | none =>
      by_cases hval : val = 0
      · simp [hval]
      · simp [hval]
  | some queue => simp

/-- One task waits on word 5: waking two returns 2; a word nobody waited on gives
    `EINVAL`. -/
example : ((boot.setFutex 5 [1]).futexSignalCall 5 2).2 = 2 ∧ (boot.futexSignalCall 5 1).2 = einval := by
  decide

end Sched

end OsKernel.Task
