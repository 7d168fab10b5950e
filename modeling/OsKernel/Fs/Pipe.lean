import Mathlib
import OsKernel.Lib.Fifo

/-! # The pipe ring buffer

`PipeRingBuffer` of `fs/dev/pipe.rs`: the 1024 bytes `arr`, the cell `head` the
next read takes, the cell `tail` the next write fills, and `status`.  When
`head = tail` the buffer is either full or empty, and only `status` tells which.

The pipe ends call `write_byte` only while `available_write` is positive, and
`read_byte` only while `available_read` is.  Under that guard the buffer holds a
queue of capacity 1024 (`Holds`), and each run of such calls is a run of
`Fifo.step 1024`.  `writeLoop` and `readLoop` are the loops of `Pipe::write_user`,
`Pipe::write` and `Pipe::read_user` under one hold of the lock, which make their
calls that way.

The weak pointers to the two ends are left out.  Only `all_write_ends_closed`,
which ends a reader's wait, reads them.
-/

namespace OsKernel.Fs

/-- `RING_BUFFER_SIZE`. -/
def ringBufferSize : Nat := 1024

instance : NeZero ringBufferSize := ⟨by decide⟩

inductive RingBufferStatus where
  | full
  | empty
  | normal
  deriving DecidableEq, Repr

structure PipeRingBuffer where
  arr : Fin ringBufferSize → UInt8
  head : Fin ringBufferSize
  tail : Fin ringBufferSize
  status : RingBufferStatus

namespace PipeRingBuffer

def new : PipeRingBuffer := ⟨fun _ => 0, 0, 0, .empty⟩

def writeByte (rb : PipeRingBuffer) (byte : UInt8) : PipeRingBuffer :=
  let tail := Fin.ofNat ringBufferSize (rb.tail.val + 1)
  { arr := Function.update rb.arr rb.tail byte, head := rb.head, tail,
    status := if tail = rb.head then .full else .normal }

def readByte (rb : PipeRingBuffer) : UInt8 × PipeRingBuffer :=
  let head := Fin.ofNat ringBufferSize (rb.head.val + 1)
  (rb.arr rb.head, { rb with head, status := if head = rb.tail then .empty else .normal })

def availableRead (rb : PipeRingBuffer) : Nat :=
  if rb.status = .empty then 0
  else if rb.tail > rb.head then rb.tail.val - rb.head.val
  else rb.tail.val + ringBufferSize - rb.head.val

def availableWrite (rb : PipeRingBuffer) : Nat :=
  if rb.status = .full then 0 else ringBufferSize - rb.availableRead

/-- `rb` holds the queue `q`: the bytes of `q` are the `q.length` cells from `head`
    on, `tail` is the cell after them, and `status` says whether `q` is empty, full
    or neither. -/
structure Holds (rb : PipeRingBuffer) (q : List UInt8) : Prop where
  length_le : q.length ≤ ringBufferSize
  window_eq : Ring.window rb.arr rb.head q.length = q
  tail_eq : rb.tail = Fin.ofNat ringBufferSize (rb.head.val + q.length)
  status_eq : rb.status = if q = [] then .empty else if q.length = ringBufferSize then .full else .normal

theorem holds_new : Holds new [] where
  length_le := by simp
  window_eq := rfl
  tail_eq := by decide
  status_eq := rfl

namespace Holds

variable {rb : PipeRingBuffer} {q : List UInt8}

theorem status_eq_empty_iff (h : Holds rb q) : rb.status = .empty ↔ q = [] := by
  rw [h.status_eq]
  split_ifs <;> simp_all

theorem status_eq_full_iff (h : Holds rb q) : rb.status = .full ↔ q.length = ringBufferSize := by
  rw [h.status_eq]
  split_ifs with hnil hfull
  · simp [hnil, ringBufferSize]
  · simp [hfull]
  · simp [hfull]

theorem availableRead_eq (h : Holds rb q) : rb.availableRead = q.length := by
  have htail : rb.tail.val = (rb.head.val + q.length) % 1024 := by
    rw [h.tail_eq, Fin.val_ofNat]
    rfl
  have hhead : rb.head.val < 1024 := rb.head.isLt
  have hle : q.length ≤ 1024 := h.length_le
  unfold availableRead
  by_cases hnil : q = []
  · simp [h.status_eq_empty_iff.mpr hnil, hnil]
  · have hpos : 0 < q.length := List.length_pos_iff.mpr hnil
    have hne : rb.status ≠ .empty := fun he => hnil (h.status_eq_empty_iff.mp he)
    simp only [hne, if_false, gt_iff_lt, Fin.lt_def]
    show _ = q.length
    split_ifs <;> simp only [ringBufferSize] <;> omega

theorem availableWrite_eq (h : Holds rb q) :
    rb.availableWrite = ringBufferSize - q.length := by
  unfold availableWrite
  by_cases hfull : rb.status = .full
  · simp [hfull, h.status_eq_full_iff.mp hfull]
  · simp [hfull, h.availableRead_eq]

theorem writeByte (h : Holds rb q) (hroom : q.length < ringBufferSize) (byte : UInt8) :
    Holds (rb.writeByte byte) (q ++ [byte]) := by
  have hhead : rb.head.val < 1024 := rb.head.isLt
  have hroom' : q.length < 1024 := hroom
  have hnewTail : (Fin.ofNat ringBufferSize (rb.tail.val + 1)).val = (rb.head.val + (q.length + 1)) % 1024 := by
    rw [Fin.val_ofNat, h.tail_eq, Fin.val_ofNat]
    show ((rb.head.val + q.length) % 1024 + 1) % 1024 = _
    omega
  have hfull : Fin.ofNat ringBufferSize (rb.tail.val + 1) = rb.head ↔ q.length + 1 = ringBufferSize := by
    rw [Fin.ext_iff, hnewTail]
    show _ ↔ q.length + 1 = 1024
    omega
  constructor
  · simp only [List.length_append, List.length_singleton]
    exact hroom
  · simp only [PipeRingBuffer.writeByte, List.length_append, List.length_singleton]
    rw [h.tail_eq, Ring.window_push _ _ hroom, h.window_eq]
  · ext
    simp only [PipeRingBuffer.writeByte, List.length_append, List.length_singleton, hnewTail,
      Fin.val_ofNat]
    rfl
  · simp only [PipeRingBuffer.writeByte, List.append_eq_nil_iff, List.cons_ne_nil, and_false,
      if_false, List.length_append, List.length_singleton]
    by_cases hlast : q.length + 1 = ringBufferSize
    · rw [if_pos (hfull.mpr hlast)]
      simp [hlast]
    · rw [if_neg (mt hfull.mp hlast)]
      simp [hlast]

theorem readByte {a : UInt8} {rest : List UInt8} (h : Holds rb (a :: rest)) :
    rb.readByte.1 = a ∧ Holds rb.readByte.2 rest := by
  have hwin := h.window_eq
  rw [List.length_cons, Ring.window_pop] at hwin
  obtain ⟨hfirst, hrest⟩ := List.cons_eq_cons.mp hwin
  have hhead : rb.head.val < 1024 := rb.head.isLt
  have hlen : rest.length + 1 ≤ 1024 := h.length_le
  have htail : rb.tail.val = (rb.head.val + (rest.length + 1)) % 1024 := by
    rw [h.tail_eq, Fin.val_ofNat]
    rfl
  have hempty : Fin.ofNat ringBufferSize (rb.head.val + 1) = rb.tail ↔ rest = [] := by
    rw [Fin.ext_iff, Fin.val_ofNat, htail, ← List.length_eq_zero_iff]
    show (rb.head.val + 1) % 1024 = _ ↔ _
    omega
  refine ⟨hfirst, ⟨show rest.length ≤ 1024 by omega, hrest, ?_, ?_⟩⟩
  · ext
    show rb.tail.val = ((Fin.ofNat ringBufferSize (rb.head.val + 1)).val + rest.length) % ringBufferSize
    rw [Fin.val_ofNat, Nat.mod_add_mod, htail]
    show _ = (rb.head.val + 1 + rest.length) % 1024
    omega
  · have hnotFull : rest.length ≠ ringBufferSize := by
      show rest.length ≠ 1024
      omega
    simp only [PipeRingBuffer.readByte]
    by_cases hnil : rest = []
    · rw [if_pos (hempty.mpr hnil)]
      simp [hnil]
    · rw [if_neg (mt hempty.mp hnil)]
      simp [hnil, hnotFull]

end Holds

end PipeRingBuffer

/-- The buffer the two ends of a pipe share, and the bytes the read end has taken. -/
structure PipeState where
  buffer : PipeRingBuffer
  taken : List UInt8

namespace PipeState

def init : PipeState := ⟨PipeRingBuffer.new, []⟩

/-- One call of `write_byte` (a push) or `read_byte` (a pop) as the pipe ends make it:
    only while `available_write`, resp. `available_read`, is positive. -/
def step (s : PipeState) : Fifo.Op UInt8 → Option PipeState
  | .push byte =>
      if 0 < s.buffer.availableWrite then some ⟨s.buffer.writeByte byte, s.taken⟩ else none
  | .pop =>
      if 0 < s.buffer.availableRead then
        some ⟨s.buffer.readByte.2, s.taken ++ [s.buffer.readByte.1]⟩
      else none

/-- The pipe is in the queue state whose queue its buffer holds and whose output
    its reader has taken. -/
def Refines (s : PipeState) (t : Fifo.State UInt8) : Prop :=
  s.buffer.Holds t.queue ∧ s.taken = t.out

theorem step_simulates (s : PipeState) (t : Fifo.State UInt8) (op : Fifo.Op UInt8)
    (next : PipeState) (hR : Refines s t) (hstep : step s op = some next) :
    ∃ t', Fifo.step ringBufferSize t op = some t' ∧ Refines next t' := by
  obtain ⟨hholds, htaken⟩ := hR
  cases op with
  | push byte =>
      have hroom : t.queue.length < ringBufferSize := by
        by_cases hw : 0 < s.buffer.availableWrite
        · rw [hholds.availableWrite_eq] at hw
          omega
        · simp [step, hw] at hstep
      simp only [step, hholds.availableWrite_eq, Nat.sub_pos_of_lt hroom, if_true,
        Option.some.injEq] at hstep
      subst hstep
      exact ⟨⟨t.queue ++ [byte], t.out⟩, by simp [Fifo.step, hroom], hholds.writeByte hroom byte,
        htaken⟩
  | pop =>
      cases hq : t.queue with
      | nil =>
          rw [hq] at hholds
          simp [step, hholds.availableRead_eq] at hstep
      | cons a rest =>
          rw [hq] at hholds
          obtain ⟨hfirst, hrest⟩ := hholds.readByte
          simp only [step, hholds.availableRead_eq, List.length_cons, Nat.succ_pos, if_true,
            Option.some.injEq] at hstep
          subst hstep
          exact ⟨⟨rest, t.out ++ [a]⟩, by simp [Fifo.step, hq], hrest, by simp [htaken, hfirst]⟩

theorem step_enabled (s : PipeState) (t : Fifo.State UInt8) (op : Fifo.Op UInt8)
    (hR : Refines s t) (hfifo : (Fifo.step ringBufferSize t op).isSome) : (step s op).isSome := by
  obtain ⟨hholds, -⟩ := hR
  cases op with
  | push byte =>
      have hroom : t.queue.length < ringBufferSize := by
        by_contra hfull
        simp [Fifo.step, hfull] at hfifo
      simp [step, hholds.availableWrite_eq, hroom]
  | pop =>
      cases hq : t.queue with
      | nil => simp [Fifo.step, hq] at hfifo
      | cons a rest =>
          rw [hq] at hholds
          simp [step, hholds.availableRead_eq]

theorem refines_init : Refines init ⟨[], []⟩ := ⟨PipeRingBuffer.holds_new, rfl⟩

theorem exec_isSome_of_fifo {calls : List (Fifo.Op UInt8)}
    (h : (StepRun.exec (Fifo.step ringBufferSize) ⟨[], []⟩ calls).isSome) :
    (StepRun.exec step init calls).isSome :=
  StepRun.exec_isSome_of_simulation step_simulates step_enabled calls refines_init h

theorem pipe_ring_buffer_is_bounded_fifo {calls : List (Fifo.Op UInt8)} {s : PipeState}
    (hrun : StepRun.exec step init calls = some s) :
    ∃ q, StepRun.exec (Fifo.step ringBufferSize) ⟨[], []⟩ calls = some ⟨q, s.taken⟩ ∧
      s.buffer.availableRead = q.length ∧
      s.buffer.availableWrite = ringBufferSize - q.length ∧
      (∀ a rest, q = a :: rest → s.buffer.readByte.1 = a) ∧
      (s.buffer.status = .empty ↔ q = []) ∧
      (s.buffer.status = .full ↔ q.length = ringBufferSize) ∧
      s.taken ++ q = Fifo.pushed calls := by
  obtain ⟨t, hfifo, hholds, htaken⟩ :=
    StepRun.exec_simulation step_simulates calls refines_init hrun
  have hout := Fifo.exec_out_append_queue calls hfifo
  simp only [List.nil_append] at hout
  refine ⟨t.queue, ?_, hholds.availableRead_eq, hholds.availableWrite_eq, ?_,
    hholds.status_eq_empty_iff, hholds.status_eq_full_iff, by rw [htaken, hout]⟩
  · rw [hfifo, htaken]
  · intro a rest hq
    rw [hq] at hholds
    exact hholds.readByte.1

theorem two_writes_one_read_is_fifo :
    ∃ s, StepRun.exec step init [.push 7, .push 8, .pop] = some s ∧
      ∃ q, StepRun.exec (Fifo.step ringBufferSize) ⟨[], []⟩ [.push 7, .push 8, .pop] =
          some ⟨q, s.taken⟩ ∧
        s.buffer.availableRead = q.length ∧
        s.buffer.availableWrite = ringBufferSize - q.length ∧
        (∀ a rest, q = a :: rest → s.buffer.readByte.1 = a) ∧
        (s.buffer.status = .empty ↔ q = []) ∧
        (s.buffer.status = .full ↔ q.length = ringBufferSize) ∧
        s.taken ++ q = Fifo.pushed [.push 7, .push 8, .pop] := by
  obtain ⟨s, hs⟩ := Option.isSome_iff_exists.mp
    (by decide +kernel : (StepRun.exec step init [.push 7, .push 8, .pop]).isSome)
  exact ⟨s, hs, pipe_ring_buffer_is_bounded_fifo hs⟩

/-! ## The loops of the pipe ends -/

/-- The `for` loop of `Pipe::write_user` and `Pipe::write` under one hold of the lock:
    `n` is `loop_write`, and each pass writes the next byte of the user's buffer until
    that is used up.  Returns the ring buffer and the bytes still to write. -/
def writeLoop : Nat → PipeRingBuffer → List UInt8 → PipeRingBuffer × List UInt8
  | 0, rb, bytes => (rb, bytes)
  | _ + 1, rb, [] => (rb, [])
  | n + 1, rb, byte :: bytes => writeLoop n (rb.writeByte byte) bytes

/-- The `for` loop of `Pipe::read_user` under one hold of the lock: `n` is
    `loop_read` and `room` the bytes left in the user's buffer.  Returns the ring
    buffer and the bytes read. -/
def readLoop : Nat → PipeRingBuffer → Nat → PipeRingBuffer × List UInt8
  | 0, rb, _ => (rb, [])
  | _ + 1, rb, 0 => (rb, [])
  | n + 1, rb, room + 1 =>
      let (rb', bytes) := readLoop n rb.readByte.2 room
      (rb', rb.readByte.1 :: bytes)

theorem writeLoop_snd : ∀ (n : Nat) (rb : PipeRingBuffer) (bytes : List UInt8),
    (writeLoop n rb bytes).2 = bytes.drop n
  | 0, _, _ => rfl
  | _ + 1, _, [] => rfl
  | n + 1, _, _ :: bytes => writeLoop_snd n _ bytes

theorem length_readLoop : ∀ (n : Nat) (rb : PipeRingBuffer) (room : Nat),
    (readLoop n rb room).2.length = min n room
  | 0, _, _ => by simp [readLoop]
  | _ + 1, _, 0 => by simp [readLoop]
  | n + 1, rb, room + 1 => by
      simp [readLoop, length_readLoop n _ room, Nat.succ_min_succ]

theorem exec_writeLoop : ∀ (n : Nat) (s : PipeState) (q bytes : List UInt8),
    s.buffer.Holds q → n ≤ s.buffer.availableWrite →
    StepRun.exec step s ((bytes.take n).map .push) = some ⟨(writeLoop n s.buffer bytes).1, s.taken⟩
  | 0, _, _, _, _, _ => rfl
  | _ + 1, _, _, [], _, _ => rfl
  | n + 1, s, q, byte :: bytes, hholds, hn => by
      rw [hholds.availableWrite_eq] at hn
      have hroom : q.length < ringBufferSize := by omega
      have hnext := hholds.writeByte hroom byte
      have hstep : step s (.push byte) = some ⟨s.buffer.writeByte byte, s.taken⟩ := by
        simp [step, hholds.availableWrite_eq, hroom]
      have hn' : n ≤ (s.buffer.writeByte byte).availableWrite := by
        rw [hnext.availableWrite_eq, List.length_append, List.length_singleton]
        omega
      simp only [List.take_succ_cons, List.map_cons, StepRun.exec_cons, hstep, Option.bind_some]
      exact exec_writeLoop n ⟨s.buffer.writeByte byte, s.taken⟩ (q ++ [byte]) bytes hnext hn'

theorem exec_readLoop : ∀ (n : Nat) (s : PipeState) (q : List UInt8) (room : Nat),
    s.buffer.Holds q → n ≤ s.buffer.availableRead →
    StepRun.exec step s (List.replicate (min n room) .pop) =
      some ⟨(readLoop n s.buffer room).1, s.taken ++ (readLoop n s.buffer room).2⟩
  | 0, _, _, _, _, _ => by simp [readLoop]
  | _ + 1, _, _, 0, _, _ => by simp [readLoop]
  | n + 1, s, q, room + 1, hholds, hn => by
      rw [hholds.availableRead_eq] at hn
      obtain ⟨a, rest, rfl⟩ : ∃ a rest, q = a :: rest := List.exists_cons_of_length_pos (by omega)
      obtain ⟨hfirst, hnext⟩ := hholds.readByte
      have hstep : step s .pop = some ⟨s.buffer.readByte.2, s.taken ++ [a]⟩ := by
        simp [step, hholds.availableRead_eq, hfirst]
      have hn' : n ≤ s.buffer.readByte.2.availableRead := by
        rw [hnext.availableRead_eq]
        simp only [List.length_cons] at hn
        omega
      simp only [Nat.succ_min_succ, List.replicate_succ, StepRun.exec_cons, hstep, Option.bind_some]
      rw [exec_readLoop n _ rest room hnext hn']
      simp [readLoop, hfirst]

end PipeState

end OsKernel.Fs
