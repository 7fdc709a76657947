import CallLang.Proofs.Arithmetic
import CallLang.Proofs.Library

/-!
# Library functions that count

`range` and `pow` are loops of which the number of rounds is known beforehand. The loop of `range`
appends one integer after the other, and its last one is followed by the end of the range, so
counting cannot overflow. The loop of `pow` runs through the powers of the base, and a power that
does not fit is not followed by one that does.
-/

namespace CallLang

open CallLang.Action CallLang.Builtin

/-! ### Ranges -/

namespace Library

def rangeCondition : Node := .apply "<" [.read "i", .read "end"]

def rangeRound : Node :=
  .apply "_" [
    .apply "=" [.read "result", .apply "append" [.read "result", .read "i"]],
    .apply "=" [.read "i", .apply "+" [.read "i", .write (.int 1)]]]

/-- The function `range` of the prelude. -/
def range : LibraryFunction where
  module := Embedded.preludeName
  name := "range"
  params := ["start", "end"]
  locals := ["result", "i"]
  builtins := [("_", .variadic .sequence), ("=", .binary .assign), ("list", .variadic .list),
    ("while", .binary .loop), ("<", .binary (.compare .lt)), ("append", .binary .append),
    ("+", .binary (.arith .add))]
  body :=
    .apply "_" [
      .apply "=" [.read "result", .apply "list" []],
      .apply "=" [.read "i", .read "start"],
      .apply "while" [rangeCondition, rangeRound],
      .read "result"]

theorem range_found : range.Found :=
  .of_spelling rfl Embedded.preludeSpelling (by decide +kernel)

/-- The values in the scope of a call of `range` that has come to `i`. -/
def rangeValues (a b : Int) (xs : List Atom) (i : Int) : List Atom :=
  [.int a, .int b, .list xs, .int i]

section

variable {steps depth rounds : Nat} {m : Machine} {a b i : Int} {xs : List Atom}
  (ready : range.Ready m)

include ready

theorem range_condition {more : Bool} (h : decide (i < b) = more) :
    rangeCondition.Evaluates (engine steps (depth + 1)) (range.inside m (rangeValues a b xs i))
      (.ok (.bool more)) (range.inside m (rangeValues a b xs i)) := by
  have less : (range.inside m (rangeValues a b xs i)).storage.Shows "<" (.binary (.compare .lt)) :=
    ready.shows_inside (by decide)
  exact h ▸ .compare (ready.live_inside _) (ready.read rfl) (ready.read rfl) less

/-- A round appends an integer and counts on. -/
theorem range_round (fits : Fits (i + 1)) :
    rangeRound.Evaluates (engine steps (depth + 3)) (range.inside m (rangeValues a b xs i))
      (.ok .null) (range.inside m (rangeValues a b (xs ++ [.int i]) (i + 1))) := by
  have appended : (Node.apply "append" [.read "result", .read "i"]).Evaluates
      (engine steps (depth + 1)) (range.inside m (rangeValues a b xs i))
      (.ok (.list (xs ++ [.int i]))) (range.inside m (rangeValues a b xs i)) :=
    .append (ready.live_inside _) (ready.shows_inside (by decide)) (ready.read rfl)
      (ready.read rfl)
  have counted : (Node.apply "+" [.read "i", .write (.int 1)]).Evaluates
      (engine steps (depth + 1)) (range.inside m (rangeValues a b (xs ++ [.int i]) i))
      (.ok (.int (i + 1))) (range.inside m (rangeValues a b (xs ++ [.int i]) i)) := by
    have plus : (range.inside m (rangeValues a b (xs ++ [.int i]) i)).storage.Shows "+"
        (.binary (.arith .add)) := ready.shows_inside (by decide)
    have sum : Arith.add.apply i 1 = .ok (i + 1) := Arith.checked_of_fits fits
    exact .arith (ready.live_inside _) (ready.read rfl) (.write (ready.live_inside _) rfl) plus sum
  exact ready.sequence (.cons (ready.assign ready appended rfl)
    (.last (ready.assign ready counted rfl)))

/-- From `i` on, the loop appends the integers up to the end of the range. -/
theorem range_loops {k : Nat} (hi : Fits i) (hb : Fits b) (hk : (b - i).toNat = k)
    (enough : k < rounds) :
    rangeCondition.Loops rangeRound (engine steps (depth + 3)) rounds
      (range.inside m (rangeValues a b xs i)) (.ok ())
      (range.inside m (rangeValues a b
        (xs ++ (List.range k).map fun j : Nat => .int (i + j)) (i + k))) := by
  induction k generalizing rounds i xs with
  | zero =>
    obtain ⟨rounds, rfl⟩ : ∃ r, rounds = r + 1 := ⟨rounds - 1, by omega⟩
    have stops : decide (i < b) = false := decide_eq_false (by omega)
    simpa using Node.Loops.last (ready.live_inside _) (range_condition ready stops)
  | succ k ih =>
    obtain ⟨rounds, rfl⟩ : ∃ r, rounds = r + 1 := ⟨rounds - 1, by omega⟩
    have goesOn : decide (i < b) = true := decide_eq_true (by omega)
    -- the last integer of the range is followed by its end
    have next : Fits (i + 1) := by
      unfold Fits at *
      omega
    have rest : rangeCondition.Loops rangeRound (engine steps (depth + 3)) rounds
        (range.inside m (rangeValues a b (xs ++ [.int i]) (i + 1))) (.ok ()) (range.inside m _) :=
      ih next (by omega) (Nat.lt_of_succ_lt_succ enough)
    have elements : xs ++ (List.range (k + 1)).map (fun j : Nat => Atom.int (i + j)) =
        xs ++ [.int i] ++ (List.range k).map fun j : Nat => .int (i + 1 + j) := by
      simp [List.range_succ_eq_map, add_assoc, add_comm (1 : Int)]
    have count : i + (k + 1 : Nat) = i + 1 + k := by omega
    rw [elements, count]
    exact .round (ready.live_inside _) (range_condition ready goesOn) (range_round ready next) rest

/-- The body of `range` gives the integers from `a` to `b`. -/
theorem range_body (depth : Nat) (ha : Fits a) (hb : Fits b) (enough : (b - a).toNat < steps) :
    ∃ values, range.body.Evaluates (engine steps (depth + 5)) (range.inside m [.int a, .int b])
      (.ok (.list ((List.range (b - a).toNat).map fun k : Nat => .int (a + k))))
      (range.inside m values) := by
  have empty : (Node.apply "list" []).Evaluates (engine steps (depth + 3))
      (range.inside m [.int a, .int b]) (.ok (.list [])) (range.inside m [.int a, .int b]) :=
    .list_nil (ready.live_inside _) (ready.shows_inside (by decide))
  have start : (Node.read "start").Evaluates (engine steps (depth + 3))
      (range.inside m [.int a, .int b, .list []]) (.ok (.int a))
      (range.inside m [.int a, .int b, .list []]) := ready.read rfl
  have loops : rangeCondition.Loops rangeRound (engine steps (depth + 3)) steps
      (range.inside m (rangeValues a b [] a)) (.ok ()) (range.inside m _) :=
    range_loops ready ha hb rfl enough
  have shows : (range.inside m (rangeValues a b [] a)).storage.Shows "while" (.binary .loop) :=
    ready.shows_inside (by decide)
  exact ⟨_, ready.sequence (.cons (ready.assign ready empty rfl)
    (.cons (ready.assign ready start rfl)
      (.cons (.loop (ready.live_inside _) shows loops) (.last (ready.read rfl)))))⟩

end

end Library

/-- The range of integers: `range` gives the integers from `a` on, up to but without `b`, and nothing
else happens. It does so whatever the bindings are, as long as the builtins are at hand and the
names of the function are not declared global. -/
theorem range_counts_up (steps depth : Nat) {a b : Int} (ha : Fits a) (hb : Fits b)
    (enough : (b - a).toNat < steps) {m m' : Machine} {args : List Node}
    (called : Library.range.Called (engine steps (depth + 5)) m args [.int a, .int b] m')
    (doc : String) (span : Option Span) :
    ((engine steps (depth + 6)).eval (.call "range" args doc span)).run m =
      (.ok (.list ((List.range (b - a).toNat).map fun k : Nat => .int (a + k))), m') := by
  obtain ⟨values, body⟩ := Library.range_body called.ready depth ha hb enough
  exact called.ends Library.range_found rfl body doc span

/-- A range that ends with the greatest integer. -/
theorem range_counts_up_to_greatest :
    ((engine 2 6).eval (.call "range" [.write (.int (maxInt - 1)), .write (.int maxInt)] ""
        none)).run Library.range.host = (.ok (.list [.int (maxInt - 1)]), Library.range.host) :=
  range_counts_up 2 0 (by decide) (by decide) (by decide)
    (Library.range_found.called 2 5 [.int (maxInt - 1), .int maxInt]) "" none

/-! ### Powers -/

/-- A power that fits is preceded by powers that fit. -/
theorem fits_pow_of_le {b : Int} {k n : Nat} (h : Fits (b ^ n)) (hk : k ≤ n) : Fits (b ^ k) := by
  obtain rfl | less := Nat.eq_or_lt_of_le hk
  · exact h
  have bound : b.natAbs ^ n ≤ 2 ^ 63 := by
    rw [← Int.natAbs_pow]
    unfold Fits minInt maxInt at h
    omega
  have small : b.natAbs ^ k < 2 ^ 63 := by
    by_cases unit : b.natAbs ≤ 1
    · have one : b.natAbs ^ k ≤ 1 := pow_le_one₀ (Nat.zero_le _) unit
      omega
    · have twice : b.natAbs ^ k * 2 ≤ b.natAbs ^ (k + 1) := by
        rw [pow_succ]
        exact Nat.mul_le_mul_left _ (by omega)
      have next : b.natAbs ^ (k + 1) ≤ b.natAbs ^ n := Nat.pow_le_pow_right (by omega) less
      omega
  rw [← Int.natAbs_pow] at small
  unfold Fits minInt maxInt
  omega

namespace Library

def powGuard : Node :=
  .apply "if" [
    .apply "<" [.read "exp", .write (.int 0)],
    .apply "error" [.write (.string "Argument"),
      .write (.string "negative exponent passed to `pow`")]]

def powCondition : Node := .apply ">" [.read "exp", .write (.int 0)]

def powRound : Node :=
  .apply "_" [
    .apply "=" [.read "result", .apply "*" [.read "result", .read "base"]],
    .apply "=" [.read "exp", .apply "-" [.read "exp", .write (.int 1)]]]

/-- The function `pow` of the module for integers. -/
def pow : LibraryFunction where
  module := "math"
  name := "pow"
  params := ["base", "exp"]
  locals := ["result"]
  builtins := [("_", .variadic .sequence), ("if", .binary .when), ("<", .binary (.compare .lt)),
    ("error", .binary .raise), ("=", .binary .assign), ("while", .binary .loop),
    (">", .binary (.compare .gt)), ("*", .binary (.arith .mul)), ("-", .binary (.arith .sub))]
  body :=
    .apply "_" [
      powGuard,
      .apply "=" [.read "result", .write (.int 1)],
      .apply "while" [powCondition, powRound],
      .read "result"]

theorem pow_found : pow.Found :=
  .of_spelling rfl Embedded.mathSpelling (by decide +kernel)

/-- The values in the scope of a call of `pow` with `k` rounds to go. -/
def powValues (b k r : Int) : List Atom := [.int b, .int k, .int r]

section

variable {steps depth rounds : Nat} {m : Machine} {b e k r : Int} (ready : pow.Ready m)

include ready

theorem pow_isNegative {negative : Bool} (h : decide (e < 0) = negative) :
    (Node.apply "<" [.read "exp", .write (.int 0)]).Evaluates (engine steps (depth + 1))
      (pow.inside m [.int b, .int e]) (.ok (.bool negative)) (pow.inside m [.int b, .int e]) := by
  have less : (pow.inside m [.int b, .int e]).storage.Shows "<" (.binary (.compare .lt)) :=
    ready.shows_inside (by decide)
  exact h ▸ .compare (ready.live_inside _) (ready.read rfl) (.write (ready.live_inside _) rfl) less

theorem pow_guard_of_nonneg (he : 0 ≤ e) :
    powGuard.Evaluates (engine steps (depth + 2)) (pow.inside m [.int b, .int e]) (.ok .null)
      (pow.inside m [.int b, .int e]) :=
  .when_false (ready.live_inside _) (ready.shows_inside (by decide))
    (pow_isNegative ready (decide_eq_false (by omega)))

theorem pow_guard_of_neg (he : e < 0) :
    powGuard.Evaluates (engine steps (depth + 2)) (pow.inside m [.int b, .int e])
      (.error (.raised "Argument" "negative exponent passed to `pow`"))
      (pow.inside m [.int b, .int e]) :=
  .when_true (ready.live_inside _) (ready.shows_inside (by decide))
    (pow_isNegative ready (decide_eq_true he))
    (.raise (ready.live_inside _) (ready.shows_inside (by decide))
      (.write (ready.live_inside _) rfl) (.write (ready.live_inside _) rfl))

theorem pow_condition {more : Bool} (h : decide (k > 0) = more) :
    powCondition.Evaluates (engine steps (depth + 1)) (pow.inside m (powValues b k r))
      (.ok (.bool more)) (pow.inside m (powValues b k r)) := by
  have greater : (pow.inside m (powValues b k r)).storage.Shows ">" (.binary (.compare .gt)) :=
    ready.shows_inside (by decide)
  exact h ▸ .compare (ready.live_inside _) (ready.read rfl) (.write (ready.live_inside _) rfl)
    greater

theorem pow_multiply {outcome : Except Cause Int} (h : Arith.mul.apply r b = outcome) :
    (Node.apply "*" [.read "result", .read "base"]).Evaluates (engine steps (depth + 1))
      (pow.inside m (powValues b k r)) (outcome.map Atom.int) (pow.inside m (powValues b k r)) := by
  have times : (pow.inside m (powValues b k r)).storage.Shows "*" (.binary (.arith .mul)) :=
    ready.shows_inside (by decide)
  exact .arith (ready.live_inside _) (ready.read rfl) (ready.read rfl) times h

/-- A round multiplies the result by the base and counts down. -/
theorem pow_round (product : Fits (r * b)) (difference : Fits (k - 1)) :
    powRound.Evaluates (engine steps (depth + 3)) (pow.inside m (powValues b k r)) (.ok .null)
      (pow.inside m (powValues b (k - 1) (r * b))) := by
  have counted : (Node.apply "-" [.read "exp", .write (.int 1)]).Evaluates
      (engine steps (depth + 1)) (pow.inside m (powValues b k (r * b))) (.ok (.int (k - 1)))
      (pow.inside m (powValues b k (r * b))) := by
    have minus : (pow.inside m (powValues b k (r * b))).storage.Shows "-"
        (.binary (.arith .sub)) := ready.shows_inside (by decide)
    have less : Arith.sub.apply k 1 = .ok (k - 1) := Arith.checked_of_fits difference
    exact .arith (ready.live_inside _) (ready.read rfl) (.write (ready.live_inside _) rfl) minus less
  exact ready.sequence
    (.cons (ready.assign ready (pow_multiply ready (Arith.checked_of_fits product)) rfl)
      (.last (ready.assign ready counted rfl)))

/-- A round with a product that does not fit fails. -/
theorem pow_round_of_overflow (product : ¬Fits (r * b)) :
    powRound.Evaluates (engine steps (depth + 3)) (pow.inside m (powValues b k r))
      (.error (.operationOverflow "*")) (pow.inside m (powValues b k r)) :=
  ready.sequence (.error (.assign_error (ready.live_inside _) (ready.shows_inside (by decide))
    (pow_multiply ready (Arith.checked_of_not_fits product))))

end

section

variable {steps depth rounds j k : Nat} {m : Machine} {b : Int} (ready : pow.Ready m)

include ready

/-- The round after `j` rounds comes to the next power. -/
theorem pow_round_of_power (hk : Fits (k + 1 : Nat)) (next : Fits (b ^ (j + 1))) :
    powRound.Evaluates (engine steps (depth + 3)) (pow.inside m (powValues b (k + 1 : Nat) (b ^ j)))
      (.ok .null) (pow.inside m (powValues b k (b ^ (j + 1)))) := by
  have count : ((k + 1 : Nat) : Int) - 1 = k := by omega
  have difference : Fits (((k + 1 : Nat) : Int) - 1) := fits_of_between hk (by omega)
  rw [pow_succ] at next ⊢
  exact count ▸ pow_round ready next difference

/-- With `k` rounds to go after `j` rounds, the loop comes to the power with exponent `j + k`, if
that fits. -/
theorem pow_loops (hk : Fits k) (fits : Fits (b ^ (j + k))) (enough : k < rounds) :
    powCondition.Loops powRound (engine steps (depth + 3)) rounds
      (pow.inside m (powValues b k (b ^ j))) (.ok ())
      (pow.inside m (powValues b 0 (b ^ (j + k)))) := by
  induction k generalizing j rounds with
  | zero =>
    obtain ⟨rounds, rfl⟩ : ∃ r, rounds = r + 1 := ⟨rounds - 1, by omega⟩
    exact .last (ready.live_inside _) (pow_condition ready (decide_eq_false (by omega)))
  | succ k ih =>
    obtain ⟨rounds, rfl⟩ : ∃ r, rounds = r + 1 := ⟨rounds - 1, by omega⟩
    have next : Fits (b ^ (j + 1)) := fits_pow_of_le fits (by omega)
    have exponent : j + (k + 1) = j + 1 + k := by omega
    rw [exponent] at fits ⊢
    refine .round (ready.live_inside _) (pow_condition ready (decide_eq_true (by omega)))
      (pow_round_of_power ready hk next) ?_
    exact ih (fits_of_between hk (by omega)) fits (Nat.lt_of_succ_lt_succ enough)

/-- If that power does not fit, one of the rounds fails: the first one that comes to a power that
does not fit. -/
theorem pow_loops_of_overflow (depth : Nat) (hk : Fits k) (now : Fits (b ^ j))
    (overflow : ¬Fits (b ^ (j + k))) (enough : k < rounds) :
    ∃ values, powCondition.Loops powRound (engine steps (depth + 3)) rounds
      (pow.inside m (powValues b k (b ^ j))) (.error (.operationOverflow "*"))
      (pow.inside m values) := by
  induction k generalizing j rounds with
  | zero => exact absurd now overflow
  | succ k ih =>
    obtain ⟨rounds, rfl⟩ : ∃ r, rounds = r + 1 := ⟨rounds - 1, by omega⟩
    have goesOn : decide (((k + 1 : Nat) : Int) > 0) = true := decide_eq_true (by omega)
    by_cases next : Fits (b ^ (j + 1))
    · have exponent : j + (k + 1) = j + 1 + k := by omega
      rw [exponent] at overflow
      obtain ⟨values, rest⟩ := ih (fits_of_between hk (by omega)) next overflow
        (Nat.lt_of_succ_lt_succ enough)
      exact ⟨values, .round (ready.live_inside _) (pow_condition ready goesOn)
        (pow_round_of_power ready hk next) rest⟩
    · rw [pow_succ] at next
      exact ⟨_, .error (ready.live_inside _) (pow_condition ready goesOn)
        (pow_round_of_overflow ready next)⟩

end

/-- What `pow` gives. -/
def powOutcome (b e : Int) : Except Cause Int :=
  if e < 0 then .error (.raised "Argument" "negative exponent passed to `pow`")
  else if Fits (b ^ e.toNat) then .ok (b ^ e.toNat)
  else .error (.operationOverflow "*")

theorem pow_body {steps : Nat} (depth : Nat) {m : Machine} (b : Int) {e : Int}
    (ready : pow.Ready m) (he : Fits e) (enough : e.toNat < steps) :
    ∃ values, pow.body.Evaluates (engine steps (depth + 5)) (pow.inside m [.int b, .int e])
      ((powOutcome b e).map Atom.int) (pow.inside m values) := by
  by_cases negative : e < 0
  · rw [powOutcome, if_pos negative]
    exact ⟨_, ready.sequence (.error (pow_guard_of_neg ready negative))⟩
  obtain ⟨n, rfl⟩ := Int.eq_ofNat_of_zero_le (Int.not_lt.mp negative)
  have guard : powGuard.Evaluates (engine steps (depth + 4)) (pow.inside m [.int b, .int n])
      (.ok .null) (pow.inside m [.int b, .int n]) :=
    pow_guard_of_nonneg ready (Int.not_lt.mp negative)
  have one : (Node.write (.int 1)).Evaluates (engine steps (depth + 3))
      (pow.inside m [.int b, .int n]) (.ok (.int 1)) (pow.inside m [.int b, .int n]) :=
    .write (ready.live_inside _) rfl
  have started : (pow.scope [.int b, .int n]).set "result" (.int 1) =
      pow.scope (powValues b n (b ^ 0)) := by
    rw [pow_zero]
    rfl
  have shows : (pow.inside m (powValues b n (b ^ 0))).storage.Shows "while" (.binary .loop) :=
    ready.shows_inside (by decide)
  rw [powOutcome, if_neg negative, Int.toNat_natCast]
  by_cases fits : Fits (b ^ n)
  · rw [if_pos fits]
    have loops : powCondition.Loops powRound (engine steps (depth + 3)) steps
        (pow.inside m (powValues b n (b ^ 0))) (.ok ())
        (pow.inside m (powValues b 0 (b ^ (0 + n)))) :=
      pow_loops ready he (by rwa [Nat.zero_add]) enough
    rw [Nat.zero_add] at loops
    exact ⟨_, ready.sequence (.cons guard (.cons (ready.assign ready one started)
      (.cons (.loop (ready.live_inside _) shows loops) (.last (ready.read rfl)))))⟩
  · rw [if_neg fits]
    have unit : Fits (b ^ 0) := by
      rw [pow_zero]
      decide
    obtain ⟨values, loops⟩ := pow_loops_of_overflow ready depth he unit
      ((Nat.zero_add n).symm ▸ fits) enough
    exact ⟨values, ready.sequence (.cons guard (.cons (ready.assign ready one started)
      (.error (.loop (ready.live_inside _) shows loops))))⟩

end Library

/-- The power of integers: `pow` refuses a negative exponent with a fault of kind `Argument`. For
every other exponent it gives the power if that fits, and else a fault of kind `Overflow`. Nothing
else happens, whatever the bindings are, as long as the builtins are at hand and the names of the
function are not declared global. -/
theorem pow_exact (steps depth : Nat) (b : Int) {e : Int} (he : Fits e)
    (enough : e.toNat < steps) {m m' : Machine} {args : List Node}
    (called : Library.pow.Called (engine steps (depth + 5)) m args [.int b, .int e] m')
    (doc : String) (span : Option Span) :
    let r := ((engine steps (depth + 6)).eval (.call "pow" args doc span)).run m
    r.2 = m' ∧
      ((∃ fault, r.1 = .error (.fault fault) ∧ fault.cause.kind = "Argument") ↔ e < 0) ∧
      (0 ≤ e →
        (r.1 = .ok (.int (b ^ e.toNat)) ↔ Fits (b ^ e.toNat)) ∧
        ((∃ fault, r.1 = .error (.fault fault) ∧ fault.cause.kind = "Overflow") ↔
          ¬Fits (b ^ e.toNat))) := by
  intro r
  obtain ⟨values, body⟩ := Library.pow_body depth b called.ready he enough
  have ends := called.ends Library.pow_found rfl body doc span
  rw [Library.powOutcome] at ends
  split at ends
  case isTrue negative =>
    obtain ⟨backtrace, ran⟩ := ends
    have hr : r = (.error (.fault ⟨_, backtrace⟩), m') := ran
    simp [hr, negative, Cause.kind]
  case isFalse nonneg =>
    split at ends
    case isTrue fits =>
      have hr : r = (.ok (.int (b ^ e.toNat)), m') := ends
      simp [hr, nonneg, fits]
    case isFalse overflow =>
      obtain ⟨backtrace, ran⟩ := ends
      have hr : r = (.error (.fault ⟨_, backtrace⟩), m') := ran
      simp [hr, nonneg, overflow, Cause.kind]

/-- The least integer is a power. -/
theorem pow_exact_of_least :
    let r := ((engine 64 6).eval (.call "pow" [.write (.int (-2)), .write (.int 63)] "" none)).run
      Library.pow.host
    r.1 = .ok (.int minInt) ∧ r.2 = Library.pow.host := by
  have law := pow_exact 64 0 (-2) (show Fits 63 by decide) (by decide)
    (Library.pow_found.called 64 5 [.int (-2), .int 63]) "" none
  exact ⟨(law.2.2 (by decide)).1.mpr (by decide), law.1⟩

end CallLang
