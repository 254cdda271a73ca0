import Mp3Kernel.Laws.RtcPeriod
import Mathlib.Tactic.SplitIfs

/-!
# The rates of a virtual RTC

`check_power` halves a number down to one and reports how often; of a number below one it
reports nothing wrong, and the range test on the exponent refuses it. What is left are the
powers of two from 2 to 1024, whose exponents `RTC_vir_rate` doubles up again.
-/

namespace Mp3Kernel

/-! ## The two loops -/

/-- The loop of `check_power`, run to its end: from a number and a count to the result. -/
inductive HalvingLoop : Int → Int → Int → Prop
  | exit {temp count : Int} : ¬ temp > 1 → HalvingLoop temp count count
  | odd {temp count : Int} : temp > 1 → temp.tmod 2 = 1 → HalvingLoop temp count (-1)
  | turn {temp count result : Int} : temp > 1 → temp.tmod 2 ≠ 1 →
      HalvingLoop (temp.tdiv 2) (count + 1) result → HalvingLoop temp count result

/-- With enough halvings to come down to one, the loop ends as the bounded one does. -/
theorem halvingLoop_of_lt {fuel : Nat} {temp : Int} (small : temp < 2 ^ fuel) (count : Int) :
    HalvingLoop temp count (checkPowerFrom fuel temp count) := by
  induction fuel generalizing temp count with
  | zero =>
    apply HalvingLoop.exit
    rw [pow_zero] at small
    omega
  | succ fuel ih =>
    unfold checkPowerFrom
    rw [pow_succ] at small
    split_ifs with hmore hodd
    · exact .odd hmore hodd
    · apply HalvingLoop.turn hmore hodd
      apply ih
      rw [Int.tdiv_eq_ediv_of_nonneg (by omega)]
      omega
    · exact .exit hmore

/-- The doubling loop on the rates it is called with: no turn overflows, and the result is not
zero. -/
theorem doubled_exact {j : Nat} (small : j ≤ 10) :
    doubled j = 2 ^ j ∧ (∀ i < j, doubled i * 2 < 4294967296) ∧ doubled j ≠ 0 := by
  have hall : ∀ j ≤ 10,
      doubled j = 2 ^ j ∧ (∀ i < j, doubled i * 2 < 4294967296) ∧ doubled j ≠ 0 := by decide
  exact hall j small

/-! ## `RTC_write` -/

section Write

variable {buf : Buf} {k : Kernel}

/-- The exponent of a power of two an `int32_t` can hold. -/
theorem checkPower_pow {j : Nat} (small : j < 31) : checkPower (2 ^ j) = j := by
  have hlt : 2 ^ j < 2 ^ 31 := Nat.pow_lt_pow_right (by decide) small
  have hcheck := @checkPowerFrom_eq 32 (2 ^ j) (Nat.one_le_two_pow) (by omega) 0
  have hcast : ((2 ^ j : Nat) : Int) = 2 ^ j := Int.natCast_pow 2 j
  rw [hcast] at hcheck
  rcases hcheck with ⟨i, hi, hcount⟩ | ⟨hno, -⟩
  · obtain rfl := Nat.pow_right_injective (le_refl 2) hi
    exact hcount.trans (Int.zero_add _)
  · exact absurd rfl (hno j)

/-- The rates refused. -/
theorem rtcWrite_refused (refused : (k.rtcWrite buf).2 ≠ 0) : k.rtcWrite buf = (k, -1) := by
  unfold Kernel.rtcWrite at refused ⊢
  dsimp only at refused ⊢
  split_ifs at refused ⊢
  · rfl
  · rfl
  · exact absurd rfl refused

theorem rtcWrite_accepts_iff (buf : Buf) (k : Kernel) :
    (k.rtcWrite buf).2 = 0 ↔ ∃ j : Nat, 1 ≤ j ∧ j ≤ 10 ∧ requested buf = 2 ^ j := by
  constructor
  · intro accepted
    obtain ⟨j, lo, hi, hrequested, -⟩ := rtcWrite_accepted accepted
    exact ⟨j, lo, hi, hrequested⟩
  · rintro ⟨j, lo, hi, hrequested⟩
    have hpower : checkPower (requested buf) = j := by
      rw [hrequested]
      exact checkPower_pow (by omega)
    rw [rtcWrite_eq, hpower, if_neg (by omega), if_neg (by omega)]

/-- What a rate sets: the executing terminal's counter, and nothing else. -/
theorem rtcVirRate_counters {j : Nat} (small : j ≤ 10)
    (known : k.curExecuteTerm = 0 ∨ k.curExecuteTerm = 1 ∨ k.curExecuteTerm = 2) :
    (k.rtcVirRate j).rtc.virCounter =
      Function.update k.rtc.virCounter (termSlot k.curExecuteTerm) (1024 / 2 ^ j - 1) := by
  have hperiod : ∀ j ≤ 10, i32 ((1024 / 2 ^ j : Nat) - 1) = 1024 / 2 ^ j - 1 := by decide
  unfold Kernel.rtcVirRate
  rw [if_pos known, (doubled_exact small).1, hperiod j small]

theorem rtcWrite_sets (accepts : (k.rtcWrite buf).2 = 0)
    (known : k.curExecuteTerm = 0 ∨ k.curExecuteTerm = 1 ∨ k.curExecuteTerm = 2) :
    (k.rtcWrite buf).1.rtc.virCounter =
      Function.update k.rtc.virCounter (termSlot k.curExecuteTerm) (1024 / requested buf - 1) := by
  obtain ⟨j, -, hj, hrequested, hstate⟩ := rtcWrite_accepted accepts
  rw [hstate, rtcVirRate_counters hj known, hrequested]

/-- The exponent of an accepted rate: its powers stay below 2 to the 32, and the last of them
is what 1024 is divided by. -/
theorem rtcWrite_power (accepts : (k.rtcWrite buf).2 = 0) :
    ∃ rate : Nat, checkPower (requested buf) = rate ∧
      (∀ i < rate, doubled i * 2 < 4294967296) ∧ doubled rate ≠ 0 := by
  obtain ⟨j, -, hj, hrequested, -⟩ := rtcWrite_accepted accepts
  obtain ⟨-, hroom, hne⟩ := doubled_exact hj
  refine ⟨j, ?_, hroom, hne⟩
  rw [hrequested]
  exact checkPower_pow (by omega)

theorem requested_halving (buf : Buf) :
    HalvingLoop (requested buf) 0 (checkPower (requested buf)) := by
  apply halvingLoop_of_lt
  have := requested_range buf
  omega

/-- `RTC_write` accepts the powers of two from 2 to 1024, sets the counter of the terminal that
asks to one less than the period, and otherwise changes nothing; the loop of `check_power`
ends, whatever the number, and for an accepted one neither the doubling loop overflows nor the
division is by zero. -/
theorem rtcWrite_exact (buf : Buf) {k : Kernel}
    (known : k.curExecuteTerm = 0 ∨ k.curExecuteTerm = 1 ∨ k.curExecuteTerm = 2) :
    ((k.rtcWrite buf).2 = 0 ↔ ∃ j : Nat, 1 ≤ j ∧ j ≤ 10 ∧ requested buf = 2 ^ j) ∧
      ((k.rtcWrite buf).2 = 0 → (k.rtcWrite buf).1.rtc.virCounter =
        Function.update k.rtc.virCounter (termSlot k.curExecuteTerm)
          (1024 / requested buf - 1)) ∧
      ((k.rtcWrite buf).2 ≠ 0 → k.rtcWrite buf = (k, -1)) ∧
      HalvingLoop (requested buf) 0 (checkPower (requested buf)) ∧
      ((k.rtcWrite buf).2 = 0 → ∃ rate : Nat, checkPower (requested buf) = rate ∧
        (∀ i < rate, doubled i * 2 < 4294967296) ∧ doubled rate ≠ 0) :=
  ⟨rtcWrite_accepts_iff buf k, fun accepts => rtcWrite_sets accepts known, rtcWrite_refused,
    requested_halving buf, rtcWrite_power⟩

/-- 256 Hz. -/
theorem rtcWrite_exact_256 : (coldBoot.rtcWrite (cstr [0, 1])).2 = 0 ∧
    (coldBoot.rtcWrite (cstr [0, 1])).1.rtc.virCounter 0 = 3 := by
  obtain ⟨haccepts, hcounter, -⟩ := @rtcWrite_exact (cstr [0, 1]) coldBoot (.inl rfl)
  have hrequested : requested (cstr [0, 1]) = 2 ^ 8 := by decide +kernel
  have haccepted := haccepts.mpr ⟨8, by decide, by decide, hrequested⟩
  refine ⟨haccepted, ?_⟩
  rw [hcounter haccepted, hrequested]
  rfl

end Write

end Mp3Kernel
