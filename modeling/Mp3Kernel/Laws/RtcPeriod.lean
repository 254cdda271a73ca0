import Mp3Kernel.Kernel.Machine
import Mp3Kernel.Lib.Ticks
import Mathlib.Algebra.Group.Int.Defs
import Mathlib.Algebra.Group.Nat.Defs

/-!
# The period of a virtual RTC

`RTC_write` accepts the powers of two from 2 to 1024 and sets the executing terminal's counter
to one less than the hardware ticks of a period. The interrupt handler counts a tick for the
terminal that executes when it comes, and for no other. So a read of the RTC waits one tick
less than its period, and one more for each tick that another terminal got.
-/

namespace Mp3Kernel

/-! ## The frequencies accepted -/

/-- The loop of `check_power`, on a positive number it has fuel for: the exponent of a power
of two is added to the count, and any other number is refused. -/
theorem checkPowerFrom_eq {fuel n : Nat} (pos : 1 ≤ n) (enough : n < 2 ^ fuel) (count : Int) :
    (∃ j : Nat, n = 2 ^ j ∧ checkPowerFrom fuel n count = count + j) ∨
      (∀ j : Nat, n ≠ 2 ^ j) ∧ checkPowerFrom fuel n count = -1 := by
  induction fuel generalizing n count with
  | zero => omega
  | succ fuel ih =>
    unfold checkPowerFrom
    by_cases hone : n = 1
    · refine .inl ⟨0, hone, ?_⟩
      rw [if_neg (by omega)]
      simp
    · have hmod : (n : Int).tmod 2 = ((n % 2 : Nat) : Int) := rfl
      have hdiv : (n : Int).tdiv 2 = ((n / 2 : Nat) : Int) := rfl
      rw [if_pos (by omega), hmod, hdiv]
      have hdouble : ∀ j, n = 2 ^ j → ∃ i, j = i + 1 ∧ n = 2 * 2 ^ i := by
        intro j hj
        cases j with
        | zero => exact absurd hj hone
        | succ i => exact ⟨i, rfl, by rw [hj, Nat.pow_succ, Nat.mul_comm]⟩
      by_cases hodd : n % 2 = 1
      · refine .inr ⟨fun j hj => ?_, if_pos (by omega)⟩
        obtain ⟨i, _, hi⟩ := hdouble j hj
        omega
      · rw [if_neg (by omega)]
        rw [Nat.pow_succ] at enough
        rcases ih (n := n / 2) (by omega) (by omega) (count + 1) with ⟨i, hi, hcount⟩ | ⟨hno, hcount⟩
        · refine .inl ⟨i + 1, ?_, ?_⟩
          · rw [Nat.pow_succ]
            omega
          · rw [hcount]
            omega
        · refine .inr ⟨fun j hj => ?_, hcount⟩
          obtain ⟨i, _, hi⟩ := hdouble j hj
          exact hno i (by omega)

/-- The frequency a buffer asks for. -/
def requested (buf : Buf) : Int :=
  i32 ((buf 0).toNat + 256 * (buf 1).toNat + 65536 * (buf 2).toNat + 16777216 * (buf 3).toNat)

theorem requested_range (buf : Buf) : requested buf < 2147483648 := by
  unfold requested i32
  have := @Int.bmod_lt ((buf 0).toNat + 256 * (buf 1).toNat + 65536 * (buf 2).toNat +
    16777216 * (buf 3).toNat) 4294967296 (by omega)
  omega

theorem rtcWrite_eq (buf : Buf) (k : Kernel) :
    k.rtcWrite buf =
      if checkPower (requested buf) = -1 then (k, -1)
      else if checkPower (requested buf) < 1 ∨ checkPower (requested buf) > 10 then (k, -1)
      else (k.rtcVirRate (checkPower (requested buf)).toNat, 0) := rfl

/-- The accepted frequencies, and what accepting one does. -/
theorem rtcWrite_accepted {buf : Buf} {k : Kernel} (accepted : (k.rtcWrite buf).2 = 0) :
    ∃ j : Nat, 1 ≤ j ∧ j ≤ 10 ∧ requested buf = 2 ^ j ∧ (k.rtcWrite buf).1 = k.rtcVirRate j := by
  rw [rtcWrite_eq] at accepted ⊢
  split at accepted
  next => cases accepted
  next hpower =>
    split at accepted
    next => cases accepted
    next hrange =>
      rw [if_neg hpower, if_neg hrange]
      have hpos : 1 ≤ requested buf := by
        by_contra hneg
        have hzero : checkPower (requested buf) = 0 := by
          unfold checkPower checkPowerFrom
          exact if_neg (by omega)
        omega
      obtain ⟨n, hn⟩ := Int.eq_ofNat_of_zero_le (show 0 ≤ requested buf by omega)
      have hlt := requested_range buf
      rw [hn] at hpower hrange hpos hlt ⊢
      have hcheck := @checkPowerFrom_eq 32 n (by omega) (by omega) 0
      unfold checkPower at hpower hrange ⊢
      rcases hcheck with ⟨j, hj, hcount⟩ | ⟨_, hcount⟩
      · rw [hcount] at hrange ⊢
        refine ⟨j, by omega, by omega, ?_, ?_⟩
        · rw [hj]
          exact Int.natCast_pow 2 j
        · have hnat : ((0 : Int) + j).toNat = j := by omega
          rw [hnat]
      · exact absurd hcount hpower

/-- What an accepted frequency leaves in the counter of the terminal that asked for it. -/
theorem rtcVirRate_counter {j : Nat} (small : j ≤ 10) {k : Kernel}
    (known : k.curExecuteTerm = 0 ∨ k.curExecuteTerm = 1 ∨ k.curExecuteTerm = 2) :
    (k.rtcVirRate j).rtc.virCounter (termSlot k.curExecuteTerm) = (1024 / 2 ^ j : Nat) - 1 := by
  have hdoubled : ∀ j ≤ 10, doubled j = 2 ^ j := by decide
  have hle : 1024 / 2 ^ j ≤ 1024 := Nat.div_le_self _ _
  unfold Kernel.rtcVirRate
  dsimp only
  rw [if_pos known, hdoubled j small]
  generalize 1024 / 2 ^ j = period at hle ⊢
  exact (Function.update_self ..).trans (i32_of_range (by omega) (by omega))

/-! ## Interrupts and switches -/

/-- What may happen while a read waits. -/
inductive RtcEvent
  | interrupt
  /-- Another terminal executes from now on. -/
  | switchTerms (visTerm exeTerm : Int)

def rtcStep (k : Kernel) : RtcEvent → Kernel
  | .interrupt => k.rtcHandler
  | .switchTerms visTerm exeTerm => k.switchTerms visTerm exeTerm

def runRtc (k : Kernel) (es : List RtcEvent) : Kernel := es.foldl rtcStep k

/-- The number of calls of the handler. -/
def interrupts : List RtcEvent → Nat
  | [] => 0
  | .interrupt :: es => interrupts es + 1
  | .switchTerms _ _ :: es => interrupts es

/-- The slot each interrupt finds executing, from a terminal on. -/
def ticksFrom : Int → List RtcEvent → List Nat
  | _, [] => []
  | exe, .interrupt :: es => termSlot exe :: ticksFrom exe es
  | _, .switchTerms _ exe :: es => ticksFrom exe es

theorem ticksFrom_length (exe : Int) (es : List RtcEvent) :
    (ticksFrom exe es).length = interrupts es := by
  induction es generalizing exe with
  | nil => rfl
  | cons e es ih =>
    cases e with
    | interrupt => exact congrArg (· + 1) (ih exe)
    | switchTerms _ exe' => exact ih exe'

/-- The ticks of the beginning of a run are the first ticks of the run. -/
theorem ticksFrom_take {p es : List RtcEvent} (h : p <+: es) (exe : Int) :
    ticksFrom exe p = (ticksFrom exe es).take (interrupts p) := by
  induction es generalizing p exe with
  | nil =>
    obtain rfl := List.prefix_nil.mp h
    rfl
  | cons e es ih =>
    rcases List.prefix_cons_iff.mp h with rfl | ⟨q, rfl, hq⟩
    · exact (List.take_zero ..).symm
    · cases e with
      | interrupt => exact congrArg (termSlot exe :: ·) (ih hq exe)
      | switchTerms _ exe' => exact ih hq exe'

/-- A run passes through every number of interrupts up to its own. -/
theorem exists_prefix {n : Nat} {es : List RtcEvent} (h : n ≤ interrupts es) :
    ∃ p, p <+: es ∧ interrupts p = n := by
  induction es generalizing n with
  | nil => exact ⟨[], List.prefix_refl _, (Nat.le_zero.mp h).symm⟩
  | cons e es ih =>
    cases n with
    | zero => exact ⟨[], List.nil_prefix, rfl⟩
    | succ n =>
      cases e with
      | interrupt =>
        obtain ⟨p, hp, hn⟩ := ih (Nat.le_of_succ_le_succ h)
        exact ⟨.interrupt :: p, List.cons_prefix_cons.mpr ⟨rfl, hp⟩, congrArg (· + 1) hn⟩
      | switchTerms vis exe =>
        obtain ⟨p, hp, hn⟩ := ih h
        exact ⟨.switchTerms vis exe :: p, List.cons_prefix_cons.mpr ⟨rfl, hp⟩, hn⟩

theorem runRtc_virCounter (k : Kernel) (es : List RtcEvent) :
    (runRtc k es).rtc.virCounter = k.rtc.virCounter := by
  induction es generalizing k with
  | nil => rfl
  | cons e es ih =>
    refine (ih (rtcStep k e)).trans ?_
    cases e <;> rfl

/-- After a run a slot has counted its own ticks. -/
theorem runRtc_rtcItrRec {k : Kernel} {es : List RtcEvent} {slot : Nat}
    (nonneg : 0 ≤ k.rtc.rtcItrRec slot)
    (room : k.rtc.rtcItrRec slot + interrupts es < 2147483648) :
    (runRtc k es).rtc.rtcItrRec slot =
      k.rtc.rtcItrRec slot + (ticksFrom k.curExecuteTerm es).count slot := by
  induction es generalizing k with
  | nil => simp [runRtc, ticksFrom]
  | cons e es ih =>
    cases e with
    | interrupt =>
      have hroom : k.rtc.rtcItrRec slot + (interrupts es + 1 : Nat) < 2147483648 := room
      show (runRtc k.rtcHandler es).rtc.rtcItrRec slot = _
      by_cases hslot : slot = termSlot k.curExecuteTerm
      · have hone : k.rtcHandler.rtc.rtcItrRec slot = k.rtc.rtcItrRec slot + 1 := by
          rw [hslot] at hroom nonneg ⊢
          exact (Function.update_self ..).trans (i32_of_range (by omega) (by omega))
        rw [ih (by omega) (by omega), hone]
        simp only [ticksFrom, hslot, List.count_cons_self]
        show _ + 1 + ((ticksFrom k.curExecuteTerm es).count _ : Int) = _
        omega
      · have hsame : k.rtcHandler.rtc.rtcItrRec slot = k.rtc.rtcItrRec slot :=
          Function.update_of_ne hslot _ _
        rw [ih (by omega) (by omega), hsame]
        simp only [ticksFrom, List.count_cons_of_ne (Ne.symm hslot)]
        rfl
    | switchTerms vis exe => exact ih (k := k.switchTerms vis exe) nonneg room

/-! ## The wait -/

/-- The waiting loop goes on until the period's last interrupt, and can stop then. -/
def KeepsPeriod (term : Int) (period : Nat) (k : Kernel) (es : List RtcEvent) : Prop :=
  ∀ p, p <+: es →
    (interrupts p < period → (runRtc k p).rtcWaits term = true) ∧
      (interrupts p = period → (runRtc k p).rtcWaits term = false)

/-- Of the first `period - 1` ticks one went elsewhere, and no other of the first `period`
did. -/
def OneLost (slot period : Nat) (ticks : List Nat) : Prop :=
  (ticks.take (period - 1)).count slot < period - 1 ∧
    (period ≤ ticks.length → (ticks.take period).count slot = period - 1)

/-- A read that begins to wait, with one less than its period in the counter. -/
theorem keepsPeriod_iff {term : Int} {period : Nat} {k : Kernel} (pos : 0 < period)
    (small : period < 2147483648) (clear : k.rtc.rtcItrRec (termSlot term) = 0)
    (counter : k.rtc.virCounter (termSlot term) = period - 1) (es : List RtcEvent) :
    KeepsPeriod term period k es ↔
      OneLost (termSlot term) period (ticksFrom k.curExecuteTerm es) := by
  have hwaits : ∀ p, p <+: es → interrupts p ≤ period →
      ((runRtc k p).rtcWaits term = true ↔
        ((ticksFrom k.curExecuteTerm es).take (interrupts p)).count (termSlot term) <
          period - 1) := by
    intro p hp hle
    unfold Kernel.rtcWaits
    rw [decide_eq_true_iff, runRtc_virCounter, counter, runRtc_rtcItrRec (by omega) (by omega),
      clear, ticksFrom_take hp]
    omega
  unfold OneLost
  rw [← Ticks.exact_iff pos, ticksFrom_length]
  constructor
  · intro h n hn
    obtain ⟨p, hp, rfl⟩ := exists_prefix hn
    obtain ⟨hbefore, hafter⟩ := h p hp
    refine ⟨fun hlt => (hwaits p hp (by omega)).mp (hbefore hlt), fun heq => ?_⟩
    have hstops := (hwaits p hp (by omega)).not.mp (by rw [hafter heq]; simp)
    omega
  · intro h p hp
    have hle : interrupts p ≤ interrupts es := by
      have := (ticksFrom_take hp k.curExecuteTerm) ▸ ticksFrom_length k.curExecuteTerm p
      rw [List.length_take, ticksFrom_length] at this
      omega
    obtain ⟨hbefore, hafter⟩ := h _ hle
    refine ⟨fun hlt => (hwaits p hp (by omega)).mpr (hbefore hlt), fun heq => ?_⟩
    have hcount := hafter heq
    have hstops : ¬ (runRtc k p).rtcWaits term = true := by
      rw [hwaits p hp (by omega)]
      omega
    exact Bool.eq_false_iff.mpr hstops

/-- A terminal that has had a frequency accepted, and whatever has happened since, issues a
read: the read waits for exactly one period of that frequency, in interrupts, just when one
interrupt before the period's last finds another terminal executing, and no other interrupt of
the period does. -/
theorem rtcPeriod_iff {k₀ : Kernel} {term : Int} (known : term = 0 ∨ term = 1 ∨ term = 2)
    (on : k₀.curExecuteTerm = term) {buf : Buf} (accepted : (k₀.rtcWrite buf).2 = 0)
    (before : List RtcEvent)
    (issued : (runRtc (k₀.rtcWrite buf).1 before).curExecuteTerm = term) (es : List RtcEvent) :
    KeepsPeriod term (1024 / requested buf).toNat (runRtc (k₀.rtcWrite buf).1 before).rtcClear
        es ↔
      OneLost (termSlot term) (1024 / requested buf).toNat (ticksFrom term es) := by
  obtain ⟨j, _, hj, hrequested, hstate⟩ := rtcWrite_accepted accepted
  have hperiod : (1024 / requested buf).toNat = 1024 / 2 ^ j := by
    have hall : ∀ j ≤ 10, (1024 / (2 : Int) ^ j).toNat = 1024 / 2 ^ j := by decide
    rw [hrequested, hall j hj]
  have hpos : ∀ j ≤ 10, 0 < 1024 / 2 ^ j := by decide
  have hle : 1024 / 2 ^ j ≤ 1024 := Nat.div_le_self _ _
  rw [hperiod]
  have hexe : (runRtc (k₀.rtcWrite buf).1 before).rtcClear.curExecuteTerm = term := issued
  have hiff := @keepsPeriod_iff term _ (runRtc (k₀.rtcWrite buf).1 before).rtcClear
    (hpos j hj) (by omega) ?_ ?_ es
  · rwa [hexe] at hiff
  · rw [← issued]
    exact Function.update_self ..
  · show (runRtc (k₀.rtcWrite buf).1 before).rtc.virCounter (termSlot term) = _
    rw [runRtc_virCounter, hstate, ← on]
    exact rtcVirRate_counter hj (on ▸ known)

/-- A machine whose terminal 0 has asked for the frequency in a buffer and now reads. -/
def reading (buf : List UInt8) : Kernel :=
  (runRtc (coldBoot.rtcWrite (cstr buf)).1 []).rtcClear

/-- At 256 Hz, with the second of four interrupts given to another terminal. -/
theorem rtcPeriod_one_lost :
    KeepsPeriod 0 4 (reading [0, 1])
      [.interrupt, .switchTerms 0 1, .interrupt, .switchTerms 0 0, .interrupt, .interrupt] := by
  have hperiod : (1024 / requested (cstr [0, 1])).toNat = 4 := by decide +kernel
  have hiff := @rtcPeriod_iff coldBoot 0 (.inl rfl) rfl (cstr [0, 1]) (by decide +kernel) [] rfl
    [.interrupt, .switchTerms 0 1, .interrupt, .switchTerms 0 0, .interrupt, .interrupt]
  rw [hperiod] at hiff
  exact hiff.mpr ⟨by decide, fun _ => by decide⟩

/-- At 512 Hz, with no other terminal executing, a read can end after one interrupt of two; at
1024 Hz it need not wait for any. -/
theorem rtcPeriod_short :
    ¬ KeepsPeriod 0 2 (reading [0, 2]) [.interrupt, .interrupt] ∧
      ¬ KeepsPeriod 0 1 (reading [0, 4]) [.interrupt] := by
  constructor
  · intro h
    have hwaits := (h [.interrupt] ⟨[.interrupt], rfl⟩).1 (by decide)
    exact absurd hwaits (by decide +kernel)
  · intro h
    have hwaits := (h [] List.nil_prefix).1 (by decide)
    exact absurd hwaits (by decide +kernel)

end Mp3Kernel
