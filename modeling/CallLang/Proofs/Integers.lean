import CallLang.Proofs.Following
import Mathlib

/-!
# Integers stay in range

An integer of a program fits into 64 bits with a sign. Numerals and conversions are checked, and so
is the arithmetic that could leave the range; the rest of the arithmetic cannot
(`Arith.fits_apply`). What remains are the integers that count something: a length, a number of
parameters, a type id, the seconds of the clock. That these are in range is up to the host.
`cappedEngine` is evaluation on a host that stops a program when it gets a value with more to count
than there are integers, and a run is `Machine.Roomy` if that makes no difference to it.
-/

namespace CallLang

open CallLang.Action CallLang.Builtin

/-! ### Arithmetic -/

theorem fits_wrap (n : Int) : Fits (wrap n) := by
  have low : 0 ≤ n % words ∧ n % words < words :=
    ⟨Int.emod_nonneg _ (by decide), Int.emod_lt_of_pos _ (by decide)⟩
  unfold Fits wrap minInt maxInt
  unfold words at low ⊢
  by_cases high : 9223372036854775807 < n % 18446744073709551616
  · simp only [high, if_true]
    omega
  · simp only [high, if_false]
    omega

/-- What is between zero and an integer in range is in range, too. -/
theorem fits_of_between {a n : Int} (ha : Fits a) (h : 0 ≤ n ∧ n ≤ a ∨ a ≤ n ∧ n ≤ 0) : Fits n := by
  unfold Fits minInt maxInt at *
  omega

/-- A remainder is between zero and the dividend. -/
theorem fits_tmod {a : Int} (ha : Fits a) (b : Int) : Fits (a.tmod b) := by
  have smaller : (a.tmod b).natAbs ≤ a.natAbs := by
    rw [Int.natAbs_tmod]
    exact Nat.mod_le _ _
  refine fits_of_between ha ?_
  rcases Int.le_total 0 a with pos | neg
  · have sign := Int.tmod_nonneg b pos
    omega
  · have sign := Int.tmod_nonneg b (Int.neg_nonneg_of_nonpos neg)
    rw [Int.neg_tmod] at sign
    omega

theorem fits_shiftRight {a : Int} (ha : Fits a) (n : Nat) : Fits (a >>> n) := by
  refine fits_of_between ha ?_
  rw [Int.shiftRight_eq_div_pow]
  have pow : (0 : Int) < (2 ^ n : Nat) := by exact_mod_cast Nat.two_pow_pos n
  rcases Int.le_total 0 a with pos | neg
  · exact .inl ⟨Int.ediv_nonneg pos pow.le, Int.ediv_le_self _ pos⟩
  · refine .inr ⟨?_, Int.ediv_nonpos_of_nonpos_of_neg neg pow⟩
    exact Int.le_ediv_of_mul_le pow (by nlinarith)

theorem fits_ofNat {m : Nat} : Fits (.ofNat m) ↔ m < 2 ^ 63 := by
  unfold Fits minInt maxInt
  simp only [Int.ofNat_eq_natCast]
  omega

theorem fits_negSucc {m : Nat} : Fits (.negSucc m) ↔ m < 2 ^ 63 := by
  unfold Fits minInt maxInt
  omega

/-- The exclusive or of two integers has no more bits than they have. -/
theorem fits_xorInt {a b : Int} (ha : Fits a) (hb : Fits b) : Fits (xorInt a b) := by
  cases a <;> cases b <;>
    simp only [xorInt, fits_ofNat, fits_negSucc] at ha hb ⊢ <;>
    exact Nat.xor_lt_two_pow ha hb

namespace Arith

theorem eq_of_checked {op : Arith} {a n : Int} (h : op.checked a = .ok n) : n = a ∧ Fits n := by
  rw [checked] at h
  split at h
  · rename_i fits
    obtain rfl := Except.ok.inj h
    exact ⟨rfl, fits⟩
  · cases h

/-- Operations on integers in range have results in range. -/
theorem fits_apply {op : Arith} {a b n : Int} (ha : Fits a) (hb : Fits b)
    (h : op.apply a b = .ok n) : Fits n := by
  cases op with
  | add | sub | mul => exact (eq_of_checked h).2
  | div =>
    rw [apply] at h
    split at h
    · cases h
    · exact (eq_of_checked h).2
  | rem =>
    rw [apply] at h
    split at h
    · cases h
    · cases hq : checked .rem (truncatedDiv a b) with
      | error cause => rw [hq] at h; cases h
      | ok quotient =>
        rw [hq] at h
        obtain rfl := Except.ok.inj h
        rw [(eq_of_checked hq).1, truncatedDiv_eq_tdiv, ← Int.tmod_def]
        exact fits_tmod ha b
  | shl =>
    rw [apply] at h
    cases hs : shiftAmount .shl b with
    | error cause => rw [hs] at h; cases h
    | ok amount =>
      rw [hs] at h
      obtain rfl := Except.ok.inj h
      exact fits_wrap _
  | shr =>
    rw [apply] at h
    cases hs : shiftAmount .shr b with
    | error cause => rw [hs] at h; cases h
    | ok amount =>
      rw [hs] at h
      obtain rfl := Except.ok.inj h
      exact fits_shiftRight ha amount
  | xor =>
    obtain rfl := Except.ok.inj h
    exact fits_xorInt ha hb

end Arith

/-! ### Hosts with limited room -/

/-- Stops a program that gets a value with more to count than there are integers. -/
def Action.capped (act : Action Atom) : Action Atom := do
  let a ← act
  if a.extent ≤ maxInt then return a else stop .exhausted

/-- Evaluation on a host that has no room for such values. -/
def cappedEngine (steps : Nat) : Nat → Engine
  | 0 =>
    let call := fun _ _ _ _ => stop .exhausted
    ⟨fun node => (evalWith call node).capped, call⟩
  | depth + 1 =>
    let call := applyWith (cappedEngine steps depth) steps
    ⟨fun node => (evalWith call node).capped, call⟩

/-- A run in which no value comes up that has more to count than there are integers: it goes the
same way on a host that has no room for such values. -/
structure Machine.Roomy (limits : Limits) (m : Machine) (source : Source) : Prop where
  run : (runText (cappedEngine limits.steps limits.depth) source).run m =
    (runText limits.engine source).run m
  trace : (runText (cappedEngine limits.steps limits.depth) source).trace m =
    (runText limits.engine source).trace m

/-- Integers are in range, and so are the seconds of the clock. -/
def rangeDiscipline : Discipline Unit where
  int := Fits
  type _ _ _ := True
  world _ w := ∀ i, Fits (w.clock i / Stream.nanosPerSecond : Nat)
  countable a := a.extent ≤ maxInt
  int_of_fits h := h
  int_apply := Arith.fits_apply
  int_extent {a} h := ⟨(by decide : minInt ≤ 0).trans (Int.natCast_nonneg a.extent), h⟩
  int_clock i h := h i
  type_mono _ _ := trivial
  world_congr same _ h := same ▸ h
  define _ _ h := ⟨(), le_rfl, trivial, h⟩

namespace Discipline

theorem Keeps.capped {t : Unit} {x : Action Atom}
    (hx : rangeDiscipline.Gives t x) :
    rangeDiscipline.Keeps t x.capped fun t' a =>
      rangeDiscipline.Over t' a.values ∧ rangeDiscipline.countable a := by
  refine hx.bind fun t' a _ ha => ?_
  split
  · rename_i small
    exact keeps_pure ⟨ha, small⟩
  · exact keeps_stop _

/-- What is evaluated where there is little room can be counted. -/
theorem follows_cappedEngine (steps depth : Nat) :
    rangeDiscipline.Follows (cappedEngine steps depth) := by
  induction depth with
  | zero =>
    exact ⟨fun hn => (keeps_evalWith (fun _ _ _ _ => keeps_stop _) hn).capped,
      fun _ _ _ _ => keeps_stop _⟩
  | succ depth ih =>
    exact ⟨fun hn => (keeps_evalWith (ih.apply steps) hn).capped, ih.apply steps⟩

end Discipline

theorem over_rangeDiscipline {values : List Atom} :
    rangeDiscipline.Over () values ↔ ∀ n, .int n ∈ values → Fits n := by
  constructor
  · intro h n hn
    exact h _ hn
  · intro h v hv
    match v with
    | .int n => exact h n hv
    | .bool _ | .null | .string _ | .list _ | .object _ _ | .function (.builtin ..)
    | .function (.closure ..) | .function (.thunk ..) | .function (.constructor ..) => trivial

/-! ### Runs -/

/-- If all integers in a machine are in range, they are so at every moment of a run and after it,
and so are those in its outcome, as long as the host has room for what the run needs and its clock
is in range. -/
theorem integers_in_range {m : Machine} (limits : Limits) (text name : String)
    (start : ∀ n, .int n ∈ m.values → Fits n)
    (clock : ∀ i, Fits (m.world.clock i / Stream.nanosPerSecond : Nat))
    (roomy : m.Roomy limits (m.sourceOf name text)) :
    (∀ x ∈ m.history limits text name, ∀ inner ∈ x.machines,
      ∀ n, .int n ∈ inner.values → Fits n) ∧
    (∀ n, .int n ∈ (m.run limits text name).1.values → Fits n) ∧
    ∀ n, .int n ∈ (m.run limits text name).2.values → Fits n := by
  have follows := Discipline.follows_cappedEngine limits.steps limits.depth
  have admitted : rangeDiscipline.Admits () m := ⟨clock, over_rangeDiscipline.mpr start⟩
  obtain ⟨during, _, -, after, given⟩ := follows.runText (m.sourceOf name text) m admitted
  rw [roomy.run] at after given
  rw [← Machine.run_snd] at after
  rw [roomy.trace] at during
  refine ⟨fun x hx inner hi => ?_, over_rangeDiscipline.mp (Discipline.over_run given),
    over_rangeDiscipline.mp after.values⟩
  obtain ⟨_, -, machines⟩ := during x hx
  exact over_rangeDiscipline.mp (machines inner hi).values

/-- A program that counts and calculates. -/
def countingProgram : String := "=(n, len(\"abc\")), <<(n, 62)"

theorem bare_clock (i : Nat) :
    Fits (Machine.bare.world.clock i / Stream.nanosPerSecond : Nat) :=
  (by decide : Fits (0 / Stream.nanosPerSecond : Nat))

theorem bare_in_range : ∀ n, .int n ∈ Machine.bare.values → Fits n :=
  over_rangeDiscipline.mp (Discipline.admits_start bare_clock _ _ _).values

/-- The bits of a number that are shifted out are lost. -/
theorem integers_in_range_of_counting :
    (Machine.bare.run ⟨10, 10⟩ countingProgram).1 = .ok (.int (-4611686018427387904)) ∧
    ∀ n, .int n ∈ (Machine.bare.run ⟨10, 10⟩ countingProgram).2.values → Fits n :=
  ⟨by cbv, (integers_in_range ⟨10, 10⟩ countingProgram "" bare_in_range bare_clock
    ⟨by cbv, by cbv⟩).2.2⟩

end CallLang
