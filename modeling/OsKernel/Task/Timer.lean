import OsKernel.Lib.Word

/-! # Timeouts

The deadlines of `sys_sleep` (`syscall/sync.rs`), `sys_sigtimedwait`
(`syscall/signal.rs`) and `pselect` (`syscall/ppoll.rs`), and the waits that
test them.  `sys_sleep` counts in ticks of the board's `CLOCK_FREQ`; the other
two add a user `TimeSpec` to `TimeSpec::now()` with `impl Add for TimeSpec`.
All of it is unchecked `usize` arithmetic, which wraps in a release build.
-/

namespace OsKernel.Timer

def nsecPerSec : Nat := 1000000000

def success : Int := 0
def eagain : Int := -11

structure TimeSpec where
  tvSec : Nat
  tvNsec : Nat
  deriving DecidableEq, Repr

namespace TimeSpec

/-- `impl Add for TimeSpec`: both fields wrap, then the nanoseconds carry. -/
def add (a b : TimeSpec) : TimeSpec :=
  let sec := Word.add 64 a.tvSec b.tvSec
  let nsec := Word.add 64 a.tvNsec b.tvNsec
  ⟨Word.add 64 sec (nsec / nsecPerSec), nsec % nsecPerSec⟩

/-- `impl Ord for TimeSpec`: seconds first, then nanoseconds. -/
def cmp (a b : TimeSpec) : Ordering :=
  match compare a.tvSec b.tvSec with
  | .lt => .lt
  | .eq => compare a.tvNsec b.tvNsec
  | .gt => .gt

/-- `a < b` through `partial_cmp`. -/
def lt (a b : TimeSpec) : Bool :=
  a.cmp b == .lt

/-- `a >= b` through `partial_cmp`. -/
def ge (a b : TimeSpec) : Bool :=
  a.cmp b != .lt

/-- `TimeSpec::from_tick`. -/
def fromTick (clockFreq tick : Nat) : TimeSpec :=
  ⟨tick / clockFreq, Word.mul 64 (tick % clockFreq) nsecPerSec / clockFreq⟩

/-- `TimeSpec::now()` at the clock reading `tick`. -/
def now (clockFreq tick : Nat) : TimeSpec :=
  fromTick clockFreq tick

/-- The time in nanoseconds, as a number that does not wrap. -/
def nanos (t : TimeSpec) : Nat :=
  t.tvSec * nsecPerSec + t.tvNsec

end TimeSpec

/-- The `end_time` of `sys_sleep`:
    `get_time() + sec * CLOCK_FREQ + nano_sec * CLOCK_FREQ / NSEC_PER_SEC`. -/
def sleepEndTime (clockFreq now sec nanoSec : Nat) : Nat :=
  Word.add 64 (Word.add 64 now (Word.mul 64 sec clockFreq)) (Word.mul 64 nanoSec clockFreq / nsecPerSec)

/-- `is_end` of `sys_sleep`. -/
def isEnd (endTime currentTime : Nat) : Bool :=
  decide (endTime ≤ currentTime)

/-- The loop of `sys_sleep` over the clock readings of its rounds: it returns at
    the first reading that is past `end_time`, and waits while there is none. -/
def sleepLoop (endTime : Nat) : List Nat → Option Nat
  | [] => none
  | t :: ts => if isEnd endTime t then some t else sleepLoop endTime ts

/-- The loop of `sys_sigtimedwait` over its rounds: whether a signal of the set
    is pending, and `TimeSpec::now()`. -/
def sigtimedwaitLoop (limitTime : TimeSpec) : List (Bool × TimeSpec) → Option Int
  | [] => none
  | (matched, now) :: rounds =>
      if matched then some success
      else if limitTime.lt now then some eagain
      else sigtimedwaitLoop limitTime rounds

/-- The deadline of `pselect`: `*timeout + TimeSpec::now()`. -/
def pselectDeadline (timeout now : TimeSpec) : TimeSpec :=
  timeout.add now

/-- The timeout test of a `pselect` round: `TimeSpec::now() >= timeout`. -/
def pselectExpired (deadline now : TimeSpec) : Bool :=
  now.ge deadline

namespace TimeSpec

/-! ### Times as nanoseconds -/

theorem cmp_eq_compare_nanos {a b : TimeSpec} (ha : a.tvNsec < nsecPerSec) (hb : b.tvNsec < nsecPerSec) :
    a.cmp b = compare a.nanos b.nanos := by
  unfold cmp nanos
  unfold nsecPerSec at ha hb ⊢
  rcases lt_trichotomy a.tvSec b.tvSec with hsec | hsec | hsec
  · have hlt : a.tvSec * 1000000000 + a.tvNsec < b.tvSec * 1000000000 + b.tvNsec := by omega
    rw [Nat.compare_eq_lt.mpr hsec, Nat.compare_eq_lt.mpr hlt]
  · rw [hsec, Nat.compare_eq_eq.mpr rfl]
    rcases lt_trichotomy a.tvNsec b.tvNsec with hns | hns | hns
    · have hlt : b.tvSec * 1000000000 + a.tvNsec < b.tvSec * 1000000000 + b.tvNsec := by omega
      rw [Nat.compare_eq_lt.mpr hns, Nat.compare_eq_lt.mpr hlt]
    · simp [hns]
    · have hgt : b.tvSec * 1000000000 + b.tvNsec < b.tvSec * 1000000000 + a.tvNsec := by omega
      rw [Nat.compare_eq_gt.mpr hns, Nat.compare_eq_gt.mpr hgt]
  · have hgt : b.tvSec * 1000000000 + b.tvNsec < a.tvSec * 1000000000 + a.tvNsec := by omega
    rw [Nat.compare_eq_gt.mpr hsec, Nat.compare_eq_gt.mpr hgt]

theorem add_of_no_wrap {a b : TimeSpec} (hnsec : a.tvNsec + b.tvNsec < 2 ^ 64)
    (hsec : a.tvSec + b.tvSec + (a.tvNsec + b.tvNsec) / nsecPerSec < 2 ^ 64) :
    (a.add b).nanos = a.nanos + b.nanos ∧ (a.add b).tvNsec < nsecPerSec := by
  have hsecs : a.tvSec + b.tvSec < 2 ^ 64 := lt_of_le_of_lt (Nat.le_add_right _ _) hsec
  have hsum : Word.add 64 a.tvSec b.tvSec = a.tvSec + b.tvSec := Word.add_of_lt hsecs
  have hns : Word.add 64 a.tvNsec b.tvNsec = a.tvNsec + b.tvNsec := Word.add_of_lt hnsec
  simp only [add, nanos, hsum, hns, Word.add_of_lt hsec]
  unfold nsecPerSec
  omega

theorem fromTick_nsec_lt {clockFreq : Nat} (hfreq : 0 < clockFreq) (tick : Nat) :
    (fromTick clockFreq tick).tvNsec < nsecPerSec := by
  -- the wrapped product is at most `(tick % CLOCK_FREQ) * NSEC_PER_SEC`
  have hle : Word.mul 64 (tick % clockFreq) nsecPerSec ≤ (tick % clockFreq) * nsecPerSec :=
    Nat.mod_le _ _
  have hlt : (tick % clockFreq) * nsecPerSec < nsecPerSec * clockFreq := by
    rw [Nat.mul_comm nsecPerSec]
    exact Nat.mul_lt_mul_of_pos_right (Nat.mod_lt _ hfreq) (by decide)
  exact (Nat.div_lt_iff_lt_mul hfreq).mpr (lt_of_le_of_lt hle hlt)

end TimeSpec

/-! ### The waits when nothing wraps -/

theorem le_of_sleepLoop {endTime t : Nat} :
    ∀ {readings : List Nat}, sleepLoop endTime readings = some t → endTime ≤ t := by
  intro readings
  induction readings with
  | nil => intro h; cases h
  | cons r rs ih =>
    intro h
    simp only [sleepLoop] at h
    split at h
    · rename_i hend
      cases h
      simpa [isEnd] using hend
    · exact ih h

theorem sleep_waits_of_no_wrap {clockFreq now sec nanoSec t : Nat} {readings : List Nat}
    (hsec : sec * clockFreq < 2 ^ 64) (hnsec : nanoSec * clockFreq < 2 ^ 64)
    (hend : now + sec * clockFreq + nanoSec * clockFreq / nsecPerSec < 2 ^ 64)
    (h : sleepLoop (sleepEndTime clockFreq now sec nanoSec) readings = some t) :
    now + sec * clockFreq + nanoSec * clockFreq / nsecPerSec ≤ t := by
  have hdeadline : sleepEndTime clockFreq now sec nanoSec =
      now + sec * clockFreq + nanoSec * clockFreq / nsecPerSec := by
    have hstart : now + sec * clockFreq < 2 ^ 64 := by
      unfold nsecPerSec at hend
      omega
    unfold sleepEndTime Word.mul
    rw [Nat.mod_eq_of_lt hsec, Nat.mod_eq_of_lt hnsec, Word.add_of_lt hstart, Word.add_of_lt hend]
  rw [← hdeadline]
  exact le_of_sleepLoop h

theorem sigtimedwaitLoop_eagain {limitTime : TimeSpec} :
    ∀ {rounds : List (Bool × TimeSpec)}, sigtimedwaitLoop limitTime rounds = some eagain →
      ∃ round ∈ rounds, round.1 = false ∧ limitTime.lt round.2 = true := by
  intro rounds
  induction rounds with
  | nil => intro h; cases h
  | cons round rounds ih =>
    obtain ⟨matched, now⟩ := round
    intro h
    simp only [sigtimedwaitLoop] at h
    split at h
    · cases h
    · split at h
      · rename_i hmatched hlate
        exact ⟨(matched, now), List.mem_cons_self, by simpa using hmatched, hlate⟩
      · obtain ⟨r, hr, hmatched, hlate⟩ := ih h
        exact ⟨r, List.mem_cons_of_mem _ hr, hmatched, hlate⟩

theorem sigtimedwait_waits_of_no_wrap {now timeout : TimeSpec} {rounds : List (Bool × TimeSpec)}
    (hnsec : now.tvNsec + timeout.tvNsec < 2 ^ 64)
    (hsec : now.tvSec + timeout.tvSec + (now.tvNsec + timeout.tvNsec) / nsecPerSec < 2 ^ 64)
    (hnormal : ∀ round ∈ rounds, round.2.tvNsec < nsecPerSec)
    (h : sigtimedwaitLoop (now.add timeout) rounds = some eagain) :
    ∃ round ∈ rounds, now.nanos + timeout.nanos < round.2.nanos := by
  obtain ⟨round, hmem, -, hlate⟩ := sigtimedwaitLoop_eagain h
  obtain ⟨hsum, hlimit⟩ := TimeSpec.add_of_no_wrap hnsec hsec
  refine ⟨round, hmem, ?_⟩
  simp only [TimeSpec.lt, beq_iff_eq, TimeSpec.cmp_eq_compare_nanos hlimit (hnormal round hmem),
    Nat.compare_eq_lt] at hlate
  omega

theorem pselectExpired_of_no_wrap {timeout now later : TimeSpec}
    (hnsec : timeout.tvNsec + now.tvNsec < 2 ^ 64)
    (hsec : timeout.tvSec + now.tvSec + (timeout.tvNsec + now.tvNsec) / nsecPerSec < 2 ^ 64)
    (hlater : later.tvNsec < nsecPerSec)
    (h : pselectExpired (pselectDeadline timeout now) later = true) :
    timeout.nanos + now.nanos ≤ later.nanos := by
  obtain ⟨hsum, hdeadline⟩ := TimeSpec.add_of_no_wrap hnsec hsec
  simp only [pselectExpired, pselectDeadline, TimeSpec.ge, bne_iff_ne, ne_eq,
    TimeSpec.cmp_eq_compare_nanos hlater hdeadline, Nat.compare_eq_lt] at h
  omega

/-! ### A timeout of `u64::MAX` seconds -/

/-- `u64::MAX` seconds, the "infinite" timeout of user programs. -/
def maxTimeout : TimeSpec :=
  ⟨2 ^ 64 - 1, 0⟩

theorem add_maxTimeout {a : TimeSpec} (hsec : 1 ≤ a.tvSec) (hsecw : a.tvSec < 2 ^ 64)
    (hnsec : a.tvNsec < nsecPerSec) :
    a.add maxTimeout = ⟨a.tvSec - 1, a.tvNsec⟩ ∧ maxTimeout.add a = ⟨a.tvSec - 1, a.tvNsec⟩ := by
  obtain ⟨sec, nsec⟩ := a
  unfold nsecPerSec at hnsec
  simp only [TimeSpec.add, maxTimeout, Word.add, nsecPerSec] at hsec hsecw hnsec ⊢
  constructor <;> congr 1 <;> omega

/-- A timeout of `u64::MAX` seconds ends in the past at every clock reading
    after the first second: the tick product of `sys_sleep` and the seconds of
    `TimeSpec::add` wrap to one second before now, so the sleep, the
    `sigtimedwait` and the `pselect` all give up at their first check. -/
theorem max_timeout_expires_at_first_check {clockFreq tick t : Nat} (hfreq : 0 < clockFreq)
    (hfreqw : clockFreq < 2 ^ 64) (hstart : clockFreq ≤ tick) (hlater : tick ≤ t) (ht : t < 2 ^ 64)
    (readings : List Nat) (rounds : List (Bool × TimeSpec)) :
    sleepEndTime clockFreq tick (2 ^ 64 - 1) 0 = tick - clockFreq ∧
      sleepLoop (sleepEndTime clockFreq tick (2 ^ 64 - 1) 0) (t :: readings) = some t ∧
      sigtimedwaitLoop ((TimeSpec.now clockFreq tick).add maxTimeout)
        ((false, TimeSpec.now clockFreq t) :: rounds) = some eagain ∧
      pselectExpired (pselectDeadline maxTimeout (TimeSpec.now clockFreq tick))
        (TimeSpec.now clockFreq t) = true := by
  have hend : sleepEndTime clockFreq tick (2 ^ 64 - 1) 0 = tick - clockFreq := by
    simp only [sleepEndTime, Word.add, Word.mul, Nat.zero_mul, Nat.zero_mod, Nat.zero_div,
      Nat.add_zero]
    omega
  have hsecs : tick / clockFreq ≤ t / clockFreq := Nat.div_le_div_right hlater
  have hsec : 1 ≤ tick / clockFreq := (Nat.one_le_div_iff hfreq).mpr hstart
  have hsecw : tick / clockFreq < 2 ^ 64 :=
    lt_of_le_of_lt (Nat.div_le_self _ _) (lt_of_le_of_lt hlater ht)
  obtain ⟨hlimit, hdeadline⟩ := @add_maxTimeout (TimeSpec.now clockFreq tick) hsec hsecw
    (TimeSpec.fromTick_nsec_lt hfreq tick)
  have hbefore : compare (tick / clockFreq - 1) (t / clockFreq) = .lt := Nat.compare_eq_lt.mpr (by omega)
  have hnowSec : ∀ x, (TimeSpec.now clockFreq x).tvSec = x / clockFreq := fun _ => rfl
  refine ⟨hend, ?_, ?_, ?_⟩
  · rw [hend, sleepLoop, if_pos (by simp only [isEnd, decide_eq_true_eq]; omega)]
  · have hlt : ((TimeSpec.now clockFreq tick).add maxTimeout).lt (TimeSpec.now clockFreq t) = true := by
      rw [hlimit]
      simp only [TimeSpec.lt, TimeSpec.cmp, hnowSec]
      rw [hbefore]
      rfl
    rw [sigtimedwaitLoop, if_neg Bool.false_ne_true, if_pos hlt]
  · rw [pselectExpired, pselectDeadline, hdeadline]
    simp only [TimeSpec.ge, TimeSpec.cmp, hnowSec]
    rw [Nat.compare_eq_gt.mpr (by omega : tick / clockFreq - 1 < t / clockFreq)]
    rfl

theorem max_timeout_expires_on_qemu :
    0 < 12500000 ∧ 12500000 < 2 ^ 64 ∧ 12500000 ≤ 1000000000 ∧ 1000000000 ≤ 1000000000 ∧
      1000000000 < 2 ^ 64 ∧
      sleepEndTime 12500000 1000000000 (2 ^ 64 - 1) 0 = 1000000000 - 12500000 ∧
      sleepLoop (sleepEndTime 12500000 1000000000 (2 ^ 64 - 1) 0) [1000000000] = some 1000000000 ∧
      sigtimedwaitLoop ((TimeSpec.now 12500000 1000000000).add maxTimeout)
        [(false, TimeSpec.now 12500000 1000000000)] = some eagain ∧
      pselectExpired (pselectDeadline maxTimeout (TimeSpec.now 12500000 1000000000))
        (TimeSpec.now 12500000 1000000000) = true :=
  ⟨by decide, by decide, by decide, le_rfl, by decide,
    max_timeout_expires_at_first_check (by decide) (by decide) (by decide) le_rfl (by decide) [] []⟩

end OsKernel.Timer
