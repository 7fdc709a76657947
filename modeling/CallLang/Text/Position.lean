/-!
# Positions in a text

A text is a sequence of characters; each of them has a line and a column, both counted from one.
A newline is the last character of the line that it ends.

`located` pairs every character with its position, and everything else that speaks of positions
(the lexer, excerpts, diagnostics) is stated through it.
-/

namespace CallLang

/-- A line and a column of a text, both counted from one. -/
structure Position where
  line : Nat
  column : Nat
  deriving DecidableEq, Repr, Inhabited

namespace Position

/-- The position of the first character of a text. -/
def start : Position := ⟨1, 1⟩

/-- The position after a character `c` that stands at `p`. -/
def next (p : Position) (c : Char) : Position :=
  if c = '\n' then ⟨p.line + 1, 1⟩ else ⟨p.line, p.column + 1⟩

/-- Positions are ordered as they follow each other in a text. -/
protected def lt (p q : Position) : Prop :=
  p.line < q.line ∨ p.line = q.line ∧ p.column < q.column

instance : LT Position := ⟨Position.lt⟩

instance : LE Position := ⟨fun p q => p < q ∨ p = q⟩

instance (p q : Position) : Decidable (p < q) :=
  inferInstanceAs (Decidable (p.line < q.line ∨ p.line = q.line ∧ p.column < q.column))

instance (p q : Position) : Decidable (p ≤ q) :=
  inferInstanceAs (Decidable (p < q ∨ p = q))

/-- A position is written as line and column with a colon between them. -/
def render (p : Position) : String :=
  toString p.line ++ ":" ++ toString p.column

@[simp]
theorem next_newline (p : Position) : p.next '\n' = ⟨p.line + 1, 1⟩ := by
  simp [next]

theorem next_of_ne {c : Char} (p : Position) (h : c ≠ '\n') :
    p.next c = ⟨p.line, p.column + 1⟩ := by
  simp [next, h]

/-- A character stands before the place that follows it. -/
theorem lt_next (p : Position) (c : Char) : p < p.next c := by
  by_cases h : c = '\n'
  · subst h
    exact Or.inl (by simp)
  · rw [next_of_ne p h]
    exact Or.inr ⟨rfl, Nat.lt_succ_self _⟩

protected theorem lt_trans {p q r : Position} (hpq : p < q) (hqr : q < r) : p < r := by
  rcases hpq with hpq | ⟨hl, hc⟩ <;> rcases hqr with hqr | ⟨hl', hc'⟩
  · exact Or.inl (Nat.lt_trans hpq hqr)
  · exact Or.inl (hl' ▸ hpq)
  · exact Or.inl (hl ▸ hqr)
  · exact Or.inr ⟨hl.trans hl', Nat.lt_trans hc hc'⟩

protected theorem lt_irrefl (p : Position) : ¬ p < p := by
  rintro (h | ⟨_, h⟩) <;> exact Nat.lt_irrefl _ h

end Position

/-- The characters of `cs` with their positions, the first of them standing at `p`. -/
def locatedFrom (p : Position) : List Char → List (Position × Char)
  | [] => []
  | c :: cs => (p, c) :: locatedFrom (p.next c) cs

/-- The characters of a text with their positions. -/
def located (text : String) : List (Position × Char) :=
  locatedFrom Position.start text.toList

/-- The position of the character with the given index, or `none` past the end of the text. -/
def position? (text : String) (index : Nat) : Option Position :=
  ((located text)[index]?).map Prod.fst

@[simp]
theorem length_locatedFrom (p : Position) (cs : List Char) :
    (locatedFrom p cs).length = cs.length := by
  induction cs generalizing p with
  | nil => rfl
  | cons c cs ih => simp [locatedFrom, ih]

end CallLang
