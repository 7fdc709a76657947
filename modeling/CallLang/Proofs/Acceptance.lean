import CallLang.Proofs.Grammar
import Mathlib.Data.List.Induction

/-!
# Tokens that stand for a program

Whether tokens stand for a program can be told without building it: their parentheses have to be
balanced, and every opening parenthesis has to follow a name directly (`accepted_iff`).

The balance is checked first. While the builder passes over balanced tokens it has as many open
calls as parentheses are open, so it never meets a closing parenthesis without an open call, and no
call is open in the end. What is left to refuse is an opening parenthesis that follows no name.
-/

namespace CallLang

/-! ### Parentheses -/

namespace Token

/-- The number of opening parentheses. -/
def openings (tokens : List Token) : Nat := tokens.countP fun t => t.lexeme matches .opening

/-- The number of closing parentheses. -/
def closings (tokens : List Token) : Nat := tokens.countP fun t => t.lexeme matches .closing

/-- Never more parentheses are closed than opened. -/
def NeverOverclosed (tokens : List Token) : Prop :=
  ∀ front, front <+: tokens → closings front ≤ openings front

/-- Never more parentheses are closed than opened, and in the end as many. -/
structure Balanced (tokens : List Token) : Prop where
  neverOverclosed : NeverOverclosed tokens
  even : closings tokens = openings tokens

/-- A name stands last. -/
def EndInName (tokens : List Token) : Prop :=
  ∃ name span, tokens.getLast? = some ⟨.name name, span⟩

/-- Every opening parenthesis directly follows a name. -/
def OpenAfterNames (tokens : List Token) : Prop :=
  ∀ before span after, tokens = before ++ ⟨.opening, span⟩ :: after → EndInName before

@[simp]
theorem openings_nil : openings [] = 0 := rfl

@[simp]
theorem closings_nil : closings [] = 0 := rfl

theorem openings_append (xs ys : List Token) : openings (xs ++ ys) = openings xs + openings ys :=
  List.countP_append

theorem closings_append (xs ys : List Token) : closings (xs ++ ys) = closings xs + closings ys :=
  List.countP_append

theorem openings_cons (token : Token) (tokens : List Token) :
    openings (token :: tokens) = openings [token] + openings tokens :=
  openings_append [token] tokens

theorem closings_cons (token : Token) (tokens : List Token) :
    closings (token :: tokens) = closings [token] + closings tokens :=
  closings_append [token] tokens

variable {tokens others : List Token}

theorem NeverOverclosed.of_append (h : NeverOverclosed (tokens ++ others)) :
    NeverOverclosed tokens := by
  intro front inside
  exact h front (inside.trans (List.prefix_append _ _))

end Token

open Token

namespace Balance

theorem count_eq (balance : Balance) (token : Token) :
    balance.count token.lexeme =
      ⟨balance.opened + openings [token], balance.closed + closings [token]⟩ := by
  obtain ⟨lexeme, span⟩ := token
  cases lexeme <;> rfl

/-- With the counts that it starts from, the check accepts tokens if at no point more parentheses
are closed than opened, and in the end as many. -/
theorem checkFrom_eq_ok_iff {balance : Balance} {last : Option Token} {tokens : List Token}
    (enough : balance.closed ≤ balance.opened) :
    balance.checkFrom last tokens = .ok () ↔
      (∀ front, front <+: tokens →
        balance.closed + closings front ≤ balance.opened + openings front) ∧
      balance.closed + closings tokens = balance.opened + openings tokens := by
  induction tokens generalizing balance last with
  | nil =>
    simp only [checkFrom, List.prefix_nil, forall_eq, closings_nil, openings_nil, Nat.add_zero]
    split
    · rename_i even
      simp [even]
    · rename_i uneven
      simp [Ne.symm uneven]
  | cons token tokens ih =>
    simp only [checkFrom, count_eq]
    split
    · rename_i tooMany
      refine ⟨fun h => (by cases h), fun h => ?_⟩
      have here := h.1 [token] (List.prefix_append [token] tokens)
      omega
    · rename_i within
      rw [ih (Nat.le_of_not_lt within), closings_cons token tokens, openings_cons token tokens,
        ← Nat.add_assoc, ← Nat.add_assoc]
      refine and_congr_left fun _ => ?_
      constructor
      · intro fronts front inside
        rcases List.prefix_cons_iff.mp inside with rfl | ⟨rest, rfl, deeper⟩
        · exact enough
        · rw [closings_cons token rest, openings_cons token rest, ← Nat.add_assoc, ← Nat.add_assoc]
          exact fronts rest deeper
      · intro fronts front inside
        have here := fronts (token :: front) (List.cons_prefix_cons.mpr ⟨rfl, inside⟩)
        rwa [closings_cons token front, openings_cons token front, ← Nat.add_assoc,
          ← Nat.add_assoc] at here

theorem check_eq_ok_iff {tokens : List Token} : check tokens = .ok () ↔ Balanced tokens := by
  rw [check, checkFrom_eq_ok_iff (Nat.le_refl 0)]
  simp only [Nat.zero_add]
  exact ⟨fun h => ⟨h.1, h.2⟩, fun h => ⟨h.neverOverclosed, h.even⟩⟩

/-- The check complains about the number of parentheses only. -/
theorem cause_of_checkFrom {balance : Balance} {last : Option Token} {tokens : List Token}
    {fault : Fault} (h : balance.checkFrom last tokens = .error fault) :
    fault.cause ≠ .strayClosing := by
  induction tokens generalizing balance last with
  | nil =>
    rw [checkFrom] at h
    split at h
    · cases h
    · obtain rfl := Except.error.inj h
      exact Cause.noConfusion
  | cons token tokens ih =>
    rw [checkFrom] at h
    split at h
    · obtain rfl := Except.error.inj h
      exact Cause.noConfusion
    · exact ih h

end Balance

/-! ### What the builder takes -/

namespace Builder

variable {b next : Builder} {tokens : List Token} {token : Token} {fault : Fault}

theorem feedAll_concat :
    feedAll b (tokens ++ [token]) =
      match feedAll b tokens with
      | .ok before => before.feed token
      | .error fault => .error fault := by
  rw [feedAll_append]
  cases feedAll b tokens with
  | error fault => rfl
  | ok before =>
    simp only [feedAll]
    cases before.feed token <;> rfl

/-- The builder opens and closes one call for each parenthesis. -/
theorem length_stack_feedAll (h : feedAll b tokens = .ok next) :
    next.stack.length + closings tokens = b.stack.length + openings tokens := by
  induction tokens generalizing b with
  | nil =>
    obtain rfl := Except.ok.inj h
    rfl
  | cons token tokens ih =>
    rw [feedAll] at h
    split at h
    · rename_i between fed
      have rest := ih h
      have depth : (⟨b.stack.length, 0⟩ : Balance).opened = 0 + b.stack.length :=
        (Nat.zero_add _).symm
      have here := count_feed fed depth
      simp only [Balance.count_eq] at here
      rw [closings_cons token tokens, openings_cons token tokens]
      omega
    · cases h

/-- A name is pending directly after it, and at no other time. -/
theorem isSome_pending_iff (h : feedAll {} tokens = .ok b) :
    b.pending.isSome ↔ EndInName tokens := by
  rcases List.eq_nil_or_concat tokens with rfl | ⟨front, token, rfl⟩
  · obtain rfl := Except.ok.inj h
    simp [EndInName]
  · rw [List.concat_eq_append, feedAll_concat] at h
    split at h
    · simp only [EndInName, List.getLast?_concat, List.concat_eq_append]
      cases feeds_of_feed h <;> simp
    · cases h

/-- The builder refuses an opening parenthesis that is no name's, and a closing one if no call is
open. -/
theorem feed_eq_error_iff :
    b.feed token = .error fault ↔
      token.lexeme = .opening ∧ b.pending = none ∧ ⟨.strayOpening, [token.span]⟩ = fault ∨
      token.lexeme = .closing ∧ b.stack = [] ∧ ⟨.strayClosing, [token.span]⟩ = fault := by
  obtain ⟨lexeme, span⟩ := token
  cases lexeme with
  | opening => cases hp : b.pending <;> simp [feed, hp]
  | closing => cases hs : b.stack <;> simp [feed, hs]
  | comment | comma | atom | name => simp [feed]

/-- If never more parentheses are closed than opened, the builder has an open call for each closing
one. -/
theorem stack_ne_nil {before after : List Token} {span : Span}
    (enough : NeverOverclosed (before ++ ⟨.closing, span⟩ :: after))
    (h : feedAll {} before = .ok b) : b.stack ≠ [] := by
  intro empty
  have counts := length_stack_feedAll h
  have here := enough (before ++ [⟨.closing, span⟩]) ⟨after, by simp⟩
  rw [closings_append, openings_append] at here
  simp only [empty, List.length_nil] at counts
  simp [closings, openings] at here counts
  omega

theorem stack_eq_nil (balanced : Balanced tokens) (h : feedAll {} tokens = .ok b) :
    b.stack = [] := by
  have counts := length_stack_feedAll h
  rw [balanced.even] at counts
  simpa using counts

/-- If never more parentheses are closed than opened, the builder takes the tokens, or it refuses an
opening parenthesis that follows no name. -/
theorem feedAll_of_neverOverclosed (enough : NeverOverclosed tokens) :
    (∃ b, feedAll {} tokens = .ok b) ∨
      ∃ before span after, tokens = before ++ ⟨.opening, span⟩ :: after ∧ ¬EndInName before ∧
        feedAll {} tokens = .error ⟨.strayOpening, [span]⟩ := by
  induction tokens using List.reverseRecOn with
  | nil => exact .inl ⟨{}, rfl⟩
  | append_singleton front token ih =>
    rw [feedAll_concat]
    rcases ih enough.of_append with ⟨b, fed⟩ | ⟨before, span, after, rfl, stray, failed⟩
    · rw [fed]
      cases next : b.feed token with
      | ok last => exact .inl ⟨last, next⟩
      | error fault =>
        obtain ⟨lexeme, span⟩ := token
        rcases feed_eq_error_iff.mp next with ⟨rfl, pending, rfl⟩ | ⟨rfl, empty, -⟩
        · refine .inr ⟨front, span, [], rfl, fun named => ?_, next⟩
          simpa [pending] using (isSome_pending_iff fed).mpr named
        · exact absurd empty (stack_ne_nil enough fed)
    · exact .inr ⟨before, span, after ++ [token], by simp, stray, by rw [failed]⟩

/-- The builder takes no opening parenthesis that follows no name. -/
theorem openAfterNames_of_feedAll (h : feedAll {} tokens = .ok b) : OpenAfterNames tokens := by
  rintro before span after rfl
  rw [feedAll_append] at h
  cases fed : feedAll {} before with
  | error fault => simp [fed] at h
  | ok between =>
    rw [← isSome_pending_iff fed]
    cases pending : between.pending with
    | some p => rfl
    | none => simp [fed, feedAll, feed, pending] at h

theorem neverOverclosed_of_feedAll (h : feedAll {} tokens = .ok b) : NeverOverclosed tokens := by
  rintro front ⟨rest, rfl⟩
  rw [feedAll_append] at h
  cases fed : feedAll {} front with
  | error fault => simp [fed] at h
  | ok between =>
    have counts := length_stack_feedAll fed
    simp only [List.length_nil] at counts
    omega

end Builder

/-! ### Programs -/

theorem Node.ofTokens_eq_error_iff {tokens : List Token} {name : String} {fault : Fault} :
    ofTokens tokens name = .error fault ↔ argsOfTokens tokens = .error fault := by
  simp only [ofTokens, bind, Except.bind]
  cases argsOfTokens tokens <;> simp

theorem Node.ofTokens_eq_ok_iff {tokens : List Token} {name : String} {program : Node} :
    ofTokens tokens name = .ok program ↔
      ∃ args, argsOfTokens tokens = .ok args ∧
        .call name args "" (some (spanOf tokens)) = program := by
  simp only [ofTokens, bind, Except.bind]
  cases argsOfTokens tokens <;> simp

theorem Node.balanced_of_argsOfTokens {tokens : List Token} {args : List Node}
    (h : argsOfTokens tokens = .ok args) : Balanced tokens := by
  obtain ⟨b, fed, closed, -⟩ := argsOfTokens_eq_ok_iff.mp h
  have counts := Builder.length_stack_feedAll fed
  rw [closed] at counts
  exact ⟨Builder.neverOverclosed_of_feedAll fed, by simpa using counts⟩

/-- What is wrong with tokens that stand for no arguments: the balance of their parentheses, or else
an opening parenthesis that follows no name. -/
theorem Node.fault_of_argsOfTokens {tokens : List Token} {fault : Fault}
    (h : argsOfTokens tokens = .error fault) :
    Balance.check tokens = .error fault ∨
      ∃ before span after, tokens = before ++ ⟨.opening, span⟩ :: after ∧ ¬EndInName before ∧
        fault = ⟨.strayOpening, [span]⟩ := by
  simp only [argsOfTokens, bind, Except.bind] at h
  cases checked : Balance.check tokens with
  | error fault' =>
    simp only [checked, Except.error.injEq] at h
    exact .inl (h ▸ rfl)
  | ok _ =>
    have balanced := Balance.check_eq_ok_iff.mp checked
    rcases Builder.feedAll_of_neverOverclosed balanced.neverOverclosed with
      ⟨b, fed⟩ | ⟨before, span, after, rfl, stray, failed⟩
    · simp [checked, fed, Builder.finish, Builder.stack_eq_nil balanced fed] at h
    · simp only [checked, failed] at h
      exact .inr ⟨before, span, after, rfl, stray, (Except.error.inj h).symm⟩

/-- Tokens stand for a program if and only if their parentheses are balanced and every opening one
directly follows a name. Otherwise there is a fault of syntax: about the balance, or about an
opening parenthesis that follows no name. It is never about a closing parenthesis that closes
nothing: for balanced tokens the builder has an open call at every closing parenthesis, and none in
the end. -/
theorem accepted_iff (tokens : List Token) (name : String) :
    ((∃ program, Node.ofTokens tokens name = .ok program) ↔
      Balanced tokens ∧ OpenAfterNames tokens) ∧
    (∀ fault, Node.ofTokens tokens name = .error fault →
      fault.cause.kind = "Syntax" ∧ fault.cause ≠ .strayClosing ∧
      (Balance.check tokens = .error fault ∨
        ∃ before span after, tokens = before ++ ⟨.opening, span⟩ :: after ∧ ¬EndInName before ∧
          fault = ⟨.strayOpening, [span]⟩)) ∧
    (Balance.check tokens = .ok () →
      (∀ before span after b, tokens = before ++ ⟨.closing, span⟩ :: after →
        Builder.feedAll {} before = .ok b → b.stack ≠ []) ∧
      ∀ b, Builder.feedAll {} tokens = .ok b → b.stack = []) := by
  refine ⟨⟨?_, ?_⟩, ?_, ?_⟩
  · rintro ⟨program, built⟩
    obtain ⟨args, built, -⟩ := Node.ofTokens_eq_ok_iff.mp built
    obtain ⟨b, fed, -, -⟩ := Node.argsOfTokens_eq_ok_iff.mp built
    exact ⟨Node.balanced_of_argsOfTokens built, Builder.openAfterNames_of_feedAll fed⟩
  · rintro ⟨balanced, named⟩
    rcases Builder.feedAll_of_neverOverclosed balanced.neverOverclosed with
      ⟨b, fed⟩ | ⟨before, span, after, rfl, stray, -⟩
    · exact ⟨_, Node.ofTokens_eq_ok_iff.mpr
        ⟨_, Node.argsOfTokens_eq_ok_iff.mpr ⟨b, fed, Builder.stack_eq_nil balanced fed, rfl⟩, rfl⟩⟩
    · exact absurd (named before span after rfl) stray
  · intro fault failed
    rw [Node.ofTokens_eq_error_iff] at failed
    have found := Node.fault_of_argsOfTokens failed
    refine ⟨Node.kind_of_argsOfTokens failed, ?_, found⟩
    rcases found with unbalanced | ⟨before, span, after, -, -, rfl⟩
    · exact Balance.cause_of_checkFrom unbalanced
    · exact Cause.noConfusion
  · intro checked
    have balanced := Balance.check_eq_ok_iff.mp checked
    refine ⟨?_, fun b fed => Builder.stack_eq_nil balanced fed⟩
    rintro before span after b rfl fed
    exact Builder.stack_ne_nil balanced.neverOverclosed fed

end CallLang
