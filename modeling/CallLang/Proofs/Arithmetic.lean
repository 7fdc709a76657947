import CallLang.Proofs.Answers
import CallLang.Proofs.Integers
import Mathlib

/-!
# Arithmetic against its mathematical meaning

Division is rounding toward zero of the rational quotient, and the remainder is what this quotient
leaves (`division_law`). Both fail for the same operands, also where only the quotient is out of
range and the remainder would not be. Shifts and exclusive or are calculated without a limit on the
bits; what comes out is what the operations on 64-bit vectors give (`bitwise_law`).
-/

namespace CallLang

/-! ### Rounding toward zero -/

/-- `x` without its fractional part. -/
def towardZero (x : ℚ) : Int := if 0 ≤ x then ⌊x⌋ else ⌈x⌉

/-- A quotient is rounded toward zero if its remainder is small and has the sign of the dividend. -/
theorem eq_towardZero {a b q r : Int} (h : a = b * q + r) (small : |r| < |b|)
    (sign : r = 0 ∨ r.sign = a.sign) : q = towardZero (a / b) := by
  have hb : (b : ℚ) ≠ 0 := by
    rintro zero
    rw [Int.cast_eq_zero.mp zero, abs_zero] at small
    exact absurd small (abs_nonneg r).not_gt
  have parts : (a / b : ℚ) = q + r / b := by
    rw [h]
    push_cast
    field_simp
  have fraction : |(r / b : ℚ)| < 1 := by
    rw [abs_div, div_lt_one (abs_pos.mpr hb)]
    exact_mod_cast small
  have up (ha : 0 ≤ a) : 0 ≤ r := by
    rcases sign with rfl | same
    · rfl
    · exact Int.sign_nonneg_iff.mp (same ▸ Int.sign_nonneg_iff.mpr ha)
  have down (ha : a ≤ 0) : r ≤ 0 := by
    rcases sign with rfl | same
    · rfl
    · exact Int.sign_nonpos_iff.mp (same ▸ Int.sign_nonpos_iff.mpr ha)
  have nonneg (h : (0 : ℚ) ≤ a / b) : (0 : ℚ) ≤ r / b := by
    rcases div_nonneg_iff.mp h with ⟨ha, hb⟩ | ⟨ha, hb⟩
    · exact div_nonneg (Int.cast_nonneg (up (Int.cast_nonneg_iff.mp ha))) hb
    · exact div_nonneg_of_nonpos (Int.cast_nonpos.mpr (down (Int.cast_nonpos.mp ha))) hb
  have nonpos (h : (a / b : ℚ) ≤ 0) : (r / b : ℚ) ≤ 0 := by
    rcases div_nonpos_iff.mp h with ⟨ha, hb⟩ | ⟨ha, hb⟩
    · exact div_nonpos_of_nonneg_of_nonpos (Int.cast_nonneg (up (Int.cast_nonneg_iff.mp ha))) hb
    · exact div_nonpos_of_nonpos_of_nonneg (Int.cast_nonpos.mpr (down (Int.cast_nonpos.mp ha))) hb
  obtain ⟨lower, upper⟩ := abs_lt.mp fraction
  rw [towardZero]
  split_ifs with ha
  · rw [eq_comm, Int.floor_eq_iff, parts]
    constructor <;> linarith [nonneg ha]
  · rw [eq_comm, Int.ceil_eq_iff, parts]
    constructor <;> linarith [nonpos (not_le.mp ha).le]

/-! ### Division -/

/-- The only quotient of integers in range that is out of range is the one of the least integer and
minus one. -/
theorem fits_tdiv_iff {a b : Int} (ha : Fits a) (hb : b ≠ 0) :
    Fits (a.tdiv b) ↔ ¬(a = minInt ∧ b = -1) := by
  by_cases minus : b = -1
  · subst minus
    rw [Int.tdiv_neg, Int.tdiv_one]
    unfold Fits minInt maxInt at *
    omega
  · by_cases one : b = 1
    · subst one
      rw [Int.tdiv_one]
      exact ⟨fun _ h => minus h.2, fun _ => ha⟩
    · have half : (a.tdiv b).natAbs ≤ a.natAbs / 2 := by
        rw [Int.natAbs_tdiv]
        exact Nat.div_le_div_left (by omega) (by decide)
      unfold Fits minInt maxInt at *
      omega

theorem sign_tmod (a b : Int) : a.tmod b = 0 ∨ (a.tmod b).sign = a.sign := by
  rw [Int.sign_tmod, ← Int.dvd_iff_tmod_eq_zero]
  split <;> simp_all

theorem abs_tmod_lt (a : Int) {b : Int} (hb : b ≠ 0) : |a.tmod b| < |b| := by
  rw [Int.abs_eq_natAbs, Int.abs_eq_natAbs, Int.natAbs_tmod]
  exact_mod_cast Nat.mod_lt _ (Int.natAbs_pos.mpr hb)

namespace Arith

variable {op : Arith} {a b : Int}

theorem checked_of_fits {n : Int} (h : Fits n) : op.checked n = .ok n := if_pos h

theorem checked_of_not_fits {n : Int} (h : ¬Fits n) :
    op.checked n = .error (.operationOverflow op.symbol) :=
  if_neg h

theorem apply_div (hb : b ≠ 0) (fits : Fits (a.tdiv b)) : apply .div a b = .ok (a.tdiv b) := by
  rw [apply, if_neg hb, truncatedDiv_eq_tdiv, checked_of_fits fits]

theorem apply_rem (hb : b ≠ 0) (fits : Fits (a.tdiv b)) : apply .rem a b = .ok (a.tmod b) := by
  rw [apply, if_neg hb, truncatedDiv_eq_tdiv, checked_of_fits fits, Int.tmod_def]
  rfl

/-- Division and remainder fail if the divisor is zero or the quotient out of range. -/
theorem overflows_of_not_fits (hop : op = .div ∨ op = .rem) (h : b = 0 ∨ ¬Fits (a.tdiv b)) :
    ∃ cause : Cause, cause.kind = "Overflow" ∧ op.apply a b = .error cause := by
  by_cases zero : b = 0
  · subst zero
    rcases hop with rfl | rfl
    · exact ⟨.divisionByZero, rfl, rfl⟩
    · exact ⟨.remainderByZero, rfl, rfl⟩
  · have large := h.resolve_left zero
    refine ⟨.operationOverflow op.symbol, rfl, ?_⟩
    rcases hop with rfl | rfl <;>
      rw [apply, if_neg zero, truncatedDiv_eq_tdiv, checked_of_not_fits large]
    rfl

/-- Division and remainder fail for the same operands. -/
theorem overflows_iff (hop : op = .div ∨ op = .rem) (ha : Fits a) :
    (∃ cause : Cause, cause.kind = "Overflow" ∧ op.apply a b = .error cause) ↔
      b = 0 ∨ a = minInt ∧ b = -1 := by
  constructor
  · rintro ⟨cause, -, failed⟩
    by_contra possible
    obtain ⟨nonzero, small⟩ := not_or.mp possible
    have fits := (fits_tdiv_iff ha nonzero).mpr small
    rcases hop with rfl | rfl
    · rw [apply_div nonzero fits] at failed
      cases failed
    · rw [apply_rem nonzero fits] at failed
      cases failed
  · intro impossible
    refine overflows_of_not_fits hop ?_
    by_cases zero : b = 0
    · exact .inl zero
    · have large := impossible.resolve_left zero
      exact .inr fun fits => (fits_tdiv_iff ha zero).mp fits large

end Arith

/-- Division rounds toward zero and the remainder has the sign of the dividend. Both fail for a
divisor of zero and for the least integer divided by minus one, and for nothing else. -/
theorem division_law (stamp : Stamp) {a b : Int} (ha : Fits a) :
    let div := Callable.builtin stamp (.binary (.arith .div))
    let rem := Callable.builtin stamp (.binary (.arith .rem))
    let impossible := b = 0 ∨ a = minInt ∧ b = -1
    (div.Fails [.int a, .int b] "Overflow" ↔ impossible) ∧
    (rem.Fails [.int a, .int b] "Overflow" ↔ impossible) ∧
    (¬impossible → ∃ q r : Int,
      div.Answers [.int a, .int b] (.ok (.int q)) ∧ Fits q ∧
      rem.Answers [.int a, .int b] (.ok (.int r)) ∧ Fits r ∧
      a = b * q + r ∧ |r| < |b| ∧ (r = 0 ∨ r.sign = a.sign) ∧ q = towardZero (a / b)) := by
  intro div rem impossible
  refine ⟨?_, ?_, fun possible => ?_⟩
  · rw [fails_arith_iff]
    exact Arith.overflows_iff (.inl rfl) ha
  · rw [fails_arith_iff]
    exact Arith.overflows_iff (.inr rfl) ha
  · obtain ⟨nonzero, small⟩ := not_or.mp possible
    have fits := (fits_tdiv_iff ha nonzero).mpr small
    have parts : a = b * a.tdiv b + a.tmod b := (Int.mul_tdiv_add_tmod a b).symm
    have less := abs_tmod_lt a nonzero
    have sign := sign_tmod a b
    refine ⟨a.tdiv b, a.tmod b, ?_, fits, ?_, fits_tmod ha b, parts, less, sign,
      eq_towardZero parts less sign⟩
    · rw [returns_arith_iff, Arith.apply_div nonzero fits]
    · rw [returns_arith_iff, Arith.apply_rem nonzero fits]

/-- Minus seven halves are rounded up to minus three, and minus one remains. Nothing remains when
the least integer is divided by minus one, but this is a fault. -/
theorem division_law_of_negative :
    (Callable.builtin [] (.binary (.arith .div))).Answers [.int (-7), .int 2] (.ok (.int (-3))) ∧
    (Callable.builtin [] (.binary (.arith .rem))).Answers [.int (-7), .int 2] (.ok (.int (-1))) ∧
    towardZero ((-7 : Int) / (2 : Int)) = -3 ∧
    (Callable.builtin [] (.binary (.arith .rem))).Fails [.int minInt, .int (-1)] "Overflow" := by
  obtain ⟨-, -, law⟩ := division_law [] (a := -7) (b := 2) (by decide)
  obtain ⟨-, least, -⟩ := division_law [] (a := minInt) (b := -1) (by decide)
  obtain ⟨q, r, quotient, -, remainder, -, parts, small, sign, rounded⟩ := law (by decide)
  have small := abs_lt.mp small
  have sign : r = 0 ∨ r < 0 := sign.imp_right fun h => Int.sign_eq_neg_one_iff_neg.mp (by exact h)
  obtain ⟨rfl, rfl⟩ : q = -3 ∧ r = -1 := by
    rw [abs_of_pos (by decide)] at small
    omega
  exact ⟨quotient, remainder, rounded.symm, least.mpr (by decide)⟩

/-! ### Bits -/

/-- The 64 bits of an integer in two's complement. -/
def bits (n : Int) : BitVec 64 := BitVec.ofInt 64 n

theorem toInt_bits {n : Int} (h : Fits n) : (bits n).toInt = n := by
  unfold Fits minInt maxInt at h
  exact BitVec.toInt_ofInt_eq_self (by decide) (by omega) (by omega)

theorem wrap_eq_toInt_bits (n : Int) : wrap n = (bits n).toInt := by
  rw [bits, BitVec.toInt_ofInt, Int.bmod_def, wrap]
  unfold words maxInt
  norm_num
  split_ifs <;> omega

theorem bits_shiftLeft (a : Int) (k : Nat) : bits (a <<< k) = bits a <<< k := by
  have pow : BitVec.ofInt 64 (2 ^ k) = BitVec.twoPow 64 k := by
    apply BitVec.eq_of_toNat_eq
    rw [BitVec.toNat_twoPow, BitVec.toNat_ofInt]
    norm_cast
  rw [bits, bits, Int.shiftLeft_eq, BitVec.ofInt_mul, pow, BitVec.shiftLeft_eq_mul_twoPow]

theorem bits_ofNat (m : Nat) : bits (.ofNat m) = BitVec.ofNat 64 m := BitVec.ofInt_natCast 64 m

theorem bits_negSucc (m : Nat) : bits (.negSucc m) = ~~~BitVec.ofNat 64 m :=
  BitVec.ofInt_negSucc_eq_not_ofNat

/-- A negative integer is the complement of a natural number, and complements can be taken out of an
exclusive or. -/
theorem bits_xorInt (a b : Int) : bits (xorInt a b) = bits a ^^^ bits b := by
  cases a with
  | ofNat m =>
    cases b with
    | ofNat n => rw [xorInt, bits_ofNat, bits_ofNat, bits_ofNat, BitVec.ofNat_xor]
    | negSucc n =>
      rw [xorInt, bits_ofNat, bits_negSucc, bits_negSucc, BitVec.ofNat_xor, BitVec.not_xor_right]
  | negSucc m =>
    cases b with
    | ofNat n =>
      rw [xorInt, bits_ofNat, bits_negSucc, bits_negSucc, BitVec.ofNat_xor, BitVec.not_xor_left]
    | negSucc n =>
      rw [xorInt, bits_ofNat, bits_negSucc, bits_negSucc, BitVec.ofNat_xor,
        ← BitVec.not_xor_left, ← BitVec.not_xor_right, BitVec.not_not]

namespace Arith

variable {op : Arith} {a b k : Int}

theorem shiftAmount_of_small (nonneg : 0 ≤ k) (h : k < 64) : op.shiftAmount k = .ok k.toNat := by
  have h : k < wordBits := h
  rw [shiftAmount, if_neg nonneg.not_gt, if_neg h.not_ge]

/-- There are two ways for the amount of a shift to be wrong. -/
theorem shiftAmount_eq_error_iff {cause : Cause} :
    op.shiftAmount k = .error cause ↔
      k < 0 ∧ cause = .negativeShift op.symbol k ∨ 64 ≤ k ∧ cause = .shiftTooLarge op.symbol := by
  rcases lt_or_ge k 0 with neg | nonneg
  · rw [shiftAmount, if_pos neg, Except.error.injEq, eq_comm]
    exact ⟨fun e => .inl ⟨neg, e⟩, fun h => (h.resolve_right fun h => by omega).2⟩
  · rcases lt_or_ge k 64 with small | large
    · rw [shiftAmount_of_small nonneg small]
      constructor
      · intro failed
        cases failed
      · intro wrong
        omega
    · have large' : wordBits ≤ k := large
      rw [shiftAmount, if_neg nonneg.not_gt, if_pos large', Except.error.injEq, eq_comm]
      exact ⟨fun e => .inr ⟨large, e⟩, fun h => (h.resolve_left fun h => by omega).2⟩

/-- Only the amount can make a shift fail. -/
theorem apply_shift_eq_error_iff (hop : op = .shl ∨ op = .shr) {cause : Cause} :
    op.apply a k = .error cause ↔ op.shiftAmount k = .error cause := by
  rcases hop with rfl | rfl
  · rw [apply]
    cases shiftAmount .shl k <;> simp [bind, Except.bind]
  · rw [apply]
    cases shiftAmount .shr k <;> simp [bind, Except.bind]

/-- The two kinds of faults of a shift. -/
theorem exists_apply_shift_eq_error_iff (hop : op = .shl ∨ op = .shr) {kind : String} :
    (∃ cause : Cause, cause.kind = kind ∧ op.apply a k = .error cause) ↔
      k < 0 ∧ kind = "Argument" ∨ 64 ≤ k ∧ kind = "Overflow" := by
  simp only [apply_shift_eq_error_iff hop, shiftAmount_eq_error_iff]
  constructor
  · rintro ⟨cause, rfl, ⟨neg, rfl⟩ | ⟨large, rfl⟩⟩
    · exact .inl ⟨neg, rfl⟩
    · exact .inr ⟨large, rfl⟩
  · rintro (⟨neg, rfl⟩ | ⟨large, rfl⟩)
    · exact ⟨_, rfl, .inl ⟨neg, rfl⟩⟩
    · exact ⟨_, rfl, .inr ⟨large, rfl⟩⟩

theorem apply_shl (nonneg : 0 ≤ k) (h : k < 64) :
    apply .shl a k = .ok (bits a <<< k.toNat).toInt := by
  rw [apply, shiftAmount_of_small nonneg h, ← bits_shiftLeft, ← wrap_eq_toInt_bits]
  rfl

theorem apply_shr (ha : Fits a) (nonneg : 0 ≤ k) (h : k < 64) :
    apply .shr a k = .ok ((bits a).sshiftRight k.toNat).toInt := by
  rw [apply, shiftAmount_of_small nonneg h, BitVec.toInt_sshiftRight, toInt_bits ha]
  rfl

theorem apply_xor (ha : Fits a) (hb : Fits b) :
    apply .xor a b = .ok (bits a ^^^ bits b).toInt := by
  rw [apply, ← bits_xorInt, toInt_bits (fits_xorInt ha hb)]

/-- A shift gives an integer in range, whatever its amount is. -/
theorem fits_apply_shift (hop : op = .shl ∨ op = .shr) (ha : Fits a) {n : Int}
    (h : op.apply a k = .ok n) : Fits n := by
  have possible (cause : Cause) : op.shiftAmount k ≠ .error cause := by
    intro failed
    rw [(apply_shift_eq_error_iff hop).mpr failed] at h
    cases h
  have nonneg : ¬k < 0 := fun neg => possible _ (shiftAmount_eq_error_iff.mpr (.inl ⟨neg, rfl⟩))
  have small : ¬64 ≤ k := fun h => possible _ (shiftAmount_eq_error_iff.mpr (.inr ⟨h, rfl⟩))
  have hk : Fits k := by
    unfold Fits minInt maxInt
    omega
  exact fits_apply ha hk h

end Arith

/-- Shifts and exclusive or are those of 64-bit vectors. A shift fails if its amount is negative,
and in another way if it is the number of bits or more. -/
theorem bitwise_law (stamp : Stamp) {a b : Int} (ha : Fits a) (hb : Fits b) (k : Int) :
    let call (op : Arith) := Callable.builtin stamp (.binary (.arith op))
    (∀ op ∈ [Arith.shl, .shr],
      ((call op).Fails [.int a, .int k] "Argument" ↔ k < 0) ∧
      ((call op).Fails [.int a, .int k] "Overflow" ↔ 64 ≤ k)) ∧
    (0 ≤ k → k < 64 →
      (call .shl).Answers [.int a, .int k] (.ok (.int (bits a <<< k.toNat).toInt)) ∧
      (call .shr).Answers [.int a, .int k] (.ok (.int ((bits a).sshiftRight k.toNat).toInt))) ∧
    (call .xor).Answers [.int a, .int b] (.ok (.int (bits a ^^^ bits b).toInt)) ∧
    ∀ op y n, (op, y) ∈ [(Arith.shl, k), (.shr, k), (.xor, b)] →
      (call op).Answers [.int a, .int y] (.ok (.int n)) → Fits n := by
  intro call
  refine ⟨fun op hop => ?_, fun nonneg small => ?_, ?_, ?_⟩
  · have hop : op = .shl ∨ op = .shr := by simpa using hop
    simp [call, fails_arith_iff, Arith.exists_apply_shift_eq_error_iff hop]
  · simp only [call, returns_arith_iff]
    exact ⟨Arith.apply_shl nonneg small, Arith.apply_shr ha nonneg small⟩
  · rw [returns_arith_iff, Arith.apply_xor ha hb]
  · intro op y n hop answer
    rw [returns_arith_iff] at answer
    simp only [List.mem_cons, Prod.mk.injEq, List.not_mem_nil, or_false] at hop
    obtain ⟨rfl, rfl⟩ | ⟨rfl, rfl⟩ | ⟨rfl, rfl⟩ := hop
    · exact Arith.fits_apply_shift (.inl rfl) ha answer
    · exact Arith.fits_apply_shift (.inr rfl) ha answer
    · exact Arith.fits_apply ha hb answer

/-- What is shifted to the highest bit becomes the sign, and it is kept when it is shifted back. -/
theorem bitwise_law_of_sign :
    (Callable.builtin [] (.binary (.arith .shl))).Answers [.int 3, .int 63] (.ok (.int minInt)) ∧
    (Callable.builtin [] (.binary (.arith .shr))).Answers [.int minInt, .int 63]
      (.ok (.int (-1))) ∧
    (Callable.builtin [] (.binary (.arith .xor))).Answers [.int minInt, .int (-1)]
      (.ok (.int maxInt)) ∧
    (Callable.builtin [] (.binary (.arith .shr))).Fails [.int minInt, .int 64] "Overflow" := by
  have left := bitwise_law [] (a := 3) (b := 0) (by decide) (by decide) 63
  have right := bitwise_law [] (a := minInt) (b := -1) (by decide) (by decide) 63
  have all := bitwise_law [] (a := minInt) (b := -1) (by decide) (by decide) 64
  exact ⟨(left.2.1 (by decide) (by decide)).1, (right.2.1 (by decide) (by decide)).2,
    right.2.2.1, (all.1 .shr (by decide)).2.mpr (by decide)⟩

end CallLang
