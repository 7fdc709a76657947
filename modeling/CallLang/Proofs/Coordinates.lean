import CallLang.Proofs.Layout
import Mathlib.Data.List.DropRight

/-!
# Positions and indices

The position of a character can be read off the text before it: the line is the number of newlines,
and the column is the distance from the last of them (`Position.start_after`). So positions follow
each other as indices do, and a span encloses something if and only if its ends are the positions
of two indices, the second of which is not before the first (`positions_correspond`). What it
encloses is then the text from the one to the other.
-/

namespace CallLang

/-- The index just after the last newline of `cs`, where its last line starts. -/
def lineStart (cs : List Char) : Nat := (cs.rdropWhile (· ≠ '\n')).length

@[simp]
theorem lineStart_concat_newline (cs : List Char) : lineStart (cs ++ ['\n']) = cs.length + 1 := by
  rw [lineStart, List.rdropWhile_concat_neg _ _ _ (by simp)]
  simp

theorem lineStart_concat_of_ne {c : Char} (h : c ≠ '\n') (cs : List Char) :
    lineStart (cs ++ [c]) = lineStart cs := by
  rw [lineStart, List.rdropWhile_concat_pos _ _ _ (by simpa using h), lineStart]

theorem lineStart_le (cs : List Char) : lineStart cs ≤ cs.length :=
  (List.rdropWhile_prefix _ _).length_le

namespace Position

theorem line_after (p : Position) (cs : List Char) : (p.after cs).line = p.line + cs.count '\n' := by
  induction cs generalizing p with
  | nil => rfl
  | cons c cs ih =>
    rw [after_cons, ih]
    by_cases hc : c = '\n'
    · subst hc
      simp [Nat.add_comm, Nat.add_left_comm]
    · simp [next_of_ne p hc, hc]

theorem column_after_of_not_mem (p : Position) {cs : List Char} (h : '\n' ∉ cs) :
    (p.after cs).column = p.column + cs.length := by
  induction cs generalizing p with
  | nil => rfl
  | cons c cs ih =>
    obtain ⟨other, others⟩ := not_or.mp (mt List.mem_cons.mpr h)
    rw [after_cons, ih (p.next c) others, next_of_ne p (Ne.symm other)]
    exact Nat.add_right_comm ..

/-- The place after `cs` comes after all newlines of `cs` and after what follows the last of them. -/
theorem start_after (cs : List Char) :
    start.after cs = ⟨1 + cs.count '\n', cs.length - lineStart cs + 1⟩ := by
  induction cs using List.reverseRecOn with
  | nil => rfl
  | append_singleton cs c ih =>
    rw [after_append, ih, after_cons, after_nil]
    by_cases hc : c = '\n'
    · subst hc
      simp [Nat.add_assoc]
    · have within := lineStart_le cs
      rw [next_of_ne _ hc, lineStart_concat_of_ne hc]
      simp [hc]
      omega

end Position

/-! ### Indices -/

theorem getElem?_locatedFrom (p : Position) (cs : List Char) (i : Nat) :
    ((locatedFrom p cs)[i]?).map Prod.fst =
      if i < cs.length then some (p.after (cs.take i)) else none := by
  induction cs generalizing p i with
  | nil => simp [locatedFrom]
  | cons c cs ih =>
    cases i with
    | zero => simp [locatedFrom]
    | succ i => simp [locatedFrom, ih]

/-- A character stands after the text before it. -/
theorem position?_eq (text : String) (i : Nat) :
    position? text i =
      if i < text.toList.length then some (Position.start.after (text.toList.take i)) else none :=
  getElem?_locatedFrom _ _ i

theorem position?_eq_some_iff {text : String} {i : Nat} {p : Position} :
    position? text i = some p ↔
      i < text.toList.length ∧ Position.start.after (text.toList.take i) = p := by
  rw [position?_eq]
  split
  · rename_i inside
    simp [inside]
  · rename_i outside
    simp [outside]

theorem getElem?_positions (text : String) (i : Nat) : (positions text)[i]? = position? text i :=
  List.getElem?_map

/-- Later characters stand at later positions. -/
theorem position?_lt {text : String} {i j : Nat} {p q : Position} (hp : position? text i = some p)
    (hq : position? text j = some q) (before : i < j) : p < q := by
  rw [← getElem?_positions] at hp hq
  obtain ⟨hi, rfl⟩ := List.getElem?_eq_some_iff.mp hp
  obtain ⟨hj, rfl⟩ := List.getElem?_eq_some_iff.mp hq
  exact List.pairwise_iff_getElem.mp (pairwise_locatedFrom .start text.toList) i j hi hj before

/-! ### Enclosed text -/

theorem exists_getElem?_of_upTo {last : Position} {cs : List (Position × Char)}
    (h : (upTo last cs).isSome) : ∃ j : Nat, (cs.map Prod.fst)[j]? = some last := by
  induction cs with
  | nil => cases h
  | cons pc cs ih =>
    obtain ⟨p, c⟩ := pc
    rw [upTo] at h
    split at h
    · rename_i here
      exact ⟨0, by simp [here]⟩
    · obtain ⟨j, hj⟩ := ih (by simpa using h)
      exact ⟨j + 1, by simpa using hj⟩

/-- What is enclosed starts at one index and ends at the same or a later one. -/
theorem exists_getElem?_of_between {first last : Position} {cs : List (Position × Char)}
    (h : (between first last cs).isSome) :
    ∃ i j : Nat, i ≤ j ∧ (cs.map Prod.fst)[i]? = some first ∧
      (cs.map Prod.fst)[j]? = some last := by
  induction cs with
  | nil => cases h
  | cons pc cs ih =>
    obtain ⟨p, c⟩ := pc
    rw [between] at h
    split at h
    · rename_i here
      obtain ⟨j, hj⟩ := exists_getElem?_of_upTo h
      exact ⟨0, j, Nat.zero_le j, by simp [here], hj⟩
    · split at h
      · cases h
      · obtain ⟨i, j, ordered, hi, hj⟩ := ih h
        exact ⟨i + 1, j + 1, Nat.succ_le_succ ordered, by simpa using hi, by simpa using hj⟩

theorem exists_position?_of_extract {text : String} {span : Span} (h : (extract text span).isSome) :
    ∃ i j, i ≤ j ∧ position? text i = some span.first ∧ position? text j = some span.last := by
  rw [extract, Option.isSome_map] at h
  simp only [← getElem?_positions]
  exact exists_getElem?_of_between h

/-- A span from one index to the same or a later one encloses the text between them. -/
theorem extract_of_position? {text : String} {span : Span} {i j : Nat} (ordered : i ≤ j)
    (first : position? text i = some span.first) (last : position? text j = some span.last) :
    extract text span = some (String.ofList ((text.toList.take (j + 1)).drop i)) := by
  obtain ⟨hi, first⟩ := position?_eq_some_iff.mp first
  obtain ⟨hj, last⟩ := position?_eq_some_iff.mp last
  have front (k : Nat) (hk : i ≤ k) :
      text.toList.take k = text.toList.take i ++ (text.toList.take k).drop i := by
    conv_lhs => rw [← List.take_append_drop i (text.toList.take k)]
    rw [List.take_take, Nat.min_eq_left hk]
  have chars : text.toList =
      text.toList.take i ++ ((text.toList.take (j + 1)).drop i ++ text.toList.drop (j + 1)) := by
    rw [← List.append_assoc, ← front (j + 1) (by omega), List.take_append_drop]
  -- without its last character the excerpt ends before the index `j`
  have shorter : ((text.toList.take (j + 1)).drop i).dropLast = (text.toList.take j).drop i := by
    have inside : i ≤ (text.toList.take j).length := by
      rw [List.length_take]
      omega
    rw [← List.take_append_getElem hj, List.drop_append_of_le_length inside, List.dropLast_concat]
  refine extract_passage chars ?_ first.symm ?_
  · have long : i < (text.toList.take (j + 1)).length := by
      rw [List.length_take]
      omega
    simpa using long
  · rw [shorter, ← Position.after_append, ← front j ordered, last]

/-- Positions correspond to indices. A character stands on the line whose number is one more than
the number of newlines before it, in the column that is one more than the number of characters
between it and the start of this line; so later characters stand at later positions. A span encloses
something if and only if its ends are positions of characters, in this order, and then it encloses
the text from the first to the last of them. -/
theorem positions_correspond (text : String) :
    (∀ i, position? text i =
      if i < text.length then
        some ⟨1 + (text.toList.take i).count '\n', i - lineStart (text.toList.take i) + 1⟩
      else none) ∧
    (∀ i j p q, position? text i = some p → position? text j = some q → i < j → p < q) ∧
    (∀ span, (extract text span).isSome ↔
      ∃ i j, i ≤ j ∧ position? text i = some span.first ∧ position? text j = some span.last) ∧
    ∀ span i j, i ≤ j → position? text i = some span.first → position? text j = some span.last →
      extract text span = some (String.ofList ((text.toList.take (j + 1)).drop i)) := by
  refine ⟨?_, ?_, ?_, ?_⟩
  · intro i
    rw [position?_eq, String.length_toList]
    split
    · rename_i inside
      rw [Position.start_after, List.length_take, String.length_toList,
        Nat.min_eq_left (Nat.le_of_lt inside)]
    · rfl
  · intro i j p q hp hq before
    exact position?_lt hp hq before
  · intro span
    refine ⟨exists_position?_of_extract, ?_⟩
    rintro ⟨i, j, ordered, first, last⟩
    rw [extract_of_position? ordered first last]
    rfl
  · intro span i j ordered first last
    exact extract_of_position? ordered first last

/-- A newline belongs to the line that it ends. -/
example : extract "def(f, x)\nf(1)" ⟨⟨1, 9⟩, ⟨2, 1⟩, none⟩ = some ")\nf" ∧
    extract "def(f, x)\nf(1)" ⟨⟨1, 11⟩, ⟨2, 1⟩, none⟩ = none := by
  decide

end CallLang
