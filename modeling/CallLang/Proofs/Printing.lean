import CallLang.Proofs.Lexemes
import Mathlib

/-!
# Reading what was written

`Node.render` writes an expression, and the parser reads it back (`parse_render`). The lexemes of
the expression stand between the two: `Node.lexemes` are the ones that it is written with, a written
expression spells them out (`spells_render`), and from them the builder makes the expression again
(`feedAll_lexemes`).

This needs that the names and values of the expression can be written at all, which holds for those
that come from a text: they are the plain ones.
-/

namespace CallLang

/-! ### Decimal numerals -/

namespace Decimal

theorem isDigit_of_mem_toDigits {n : Nat} {c : Char} (h : c ∈ Nat.toDigits 10 n) :
    isDigit c = true := by
  have digit := Nat.isDigit_of_mem_toDigits (by decide) (by decide) h
  simp only [Char.isDigit, ge_iff_le, Bool.and_eq_true, decide_eq_true_eq] at digit
  simp only [isDigit, Bool.and_eq_true, decide_eq_true_eq]
  exact digit

theorem areDigits_toDigits (n : Nat) : areDigits (Nat.toDigits 10 n) = true := by
  simp only [areDigits, Bool.and_eq_true, List.all_eq_true]
  exact ⟨by simp [Nat.toDigits_ne_nil], fun c hc => isDigit_of_mem_toDigits hc⟩

theorem valueOfDigits_toDigits (n : Nat) : valueOfDigits (Nat.toDigits 10 n) = n :=
  Nat.ofDigitChars_ten_toDigits

/-- A digit is no sign. -/
theorem read?_of_isDigit {c : Char} {cs : List Char} (h : isDigit c = true)
    (hcs : areDigits (c :: cs) = true) :
    read? (c :: cs) = some (valueOfDigits (c :: cs) : Int) := by
  have minus : c ≠ '-' := by rintro rfl; exact absurd h (by decide)
  have plus : c ≠ '+' := by rintro rfl; exact absurd h (by decide)
  rw [read?]
  · simp [hcs]
  · intro ds hd
    exact minus (List.cons.inj hd).1
  · intro ds hd
    exact plus (List.cons.inj hd).1

/-- A written integer reads back. -/
theorem read?_write (n : Int) : read? (write n) = some n := by
  cases n with
  | ofNat m =>
    obtain ⟨c, cs, digits⟩ := List.exists_cons_of_ne_nil (Nat.toDigits_ne_nil (n := m) (b := 10))
    have hc : isDigit c = true := isDigit_of_mem_toDigits (n := m) (by simp [digits])
    have hcs := areDigits_toDigits m
    rw [digits] at hcs
    rw [write, digits, read?_of_isDigit hc hcs, ← digits, valueOfDigits_toDigits]
    rfl
  | negSucc m =>
    rw [write, read?, areDigits_toDigits, valueOfDigits_toDigits]
    rfl

theorem isWordChar_of_isDigit {c : Char} (h : isDigit c = true) : isWordChar c = true := by
  have other (d : Char) (hd : isDigit d = false) : c ≠ d := by
    rintro rfl
    simp [h] at hd
  have marks : c ≠ '(' ∧ c ≠ ')' ∧ c ≠ ',' ∧ c ≠ '"' ∧ c ≠ '#' := by
    refine ⟨?_, ?_, ?_, ?_, ?_⟩ <;> exact other _ (by decide)
  have blanks : c ≠ ' ' ∧ c ≠ '\t' ∧ c ≠ '\r' ∧ c ≠ '\n' := by
    refine ⟨?_, ?_, ?_, ?_⟩ <;> exact other _ (by decide)
  simp [isWordChar, isSeparator, mark?, marks, blanks]

theorem mem_write {n : Int} {c : Char} (h : c ∈ write n) : c = '-' ∨ isDigit c = true := by
  cases n with
  | ofNat m => exact .inr (isDigit_of_mem_toDigits h)
  | negSucc m =>
    rcases List.mem_cons.mp h with rfl | h
    · exact .inl rfl
    · exact .inr (isDigit_of_mem_toDigits h)

theorem write_ne_nil (n : Int) : write n ≠ [] := by
  intro h
  have read := read?_write n
  rw [h] at read
  cases read

/-- An integer of the language has few digits. -/
theorem length_write_le {n : Int} (h : Fits n) : (write n).length ≤ 20 := by
  simp only [Fits, minInt, maxInt] at h
  cases n with
  | ofNat m =>
    simp only [Int.ofNat_eq_natCast] at h
    have short := Nat.toDigits_length 10 m 19 (by decide) (by omega)
    exact short.trans (by decide)
  | negSucc m =>
    have short := Nat.toDigits_length 10 (m + 1) 19 (by decide) (by omega)
    exact Nat.succ_le_succ short

theorem digitCount_write_le {n : Int} (h : Fits n) :
    digitCount (String.ofList (write n)) ≤ maxDigits := by
  rw [digitCount, String.toList_ofList]
  exact List.countP_le_length.trans ((length_write_le h).trans (by decide))

end Decimal

/-! ### Texts that spell out lexemes -/

namespace Reading

/-- Whether a pass is inside of something that goes on until its own mark ends it. -/
def isOpen (r : Reading) : Bool :=
  match r.inside with
  | .string _ | .comment _ => true
  | _ => false

/-- A character that cannot be in a word ends a word. -/
theorem feed_of_not_isWordChar {r : Reading} {lexemes : List Lexeme} {c : Char}
    (closed : r.isOpen = false) (ended : r.finish? = some lexemes) (h : isWordChar c = false) :
    r.feed c = some (start lexemes c) := by
  obtain ⟨inside, found⟩ := r
  cases inside with
  | nothing =>
    obtain rfl := Option.some.inj ended
    rfl
  | word chars => simp [feed, h, ended]
  | string chars => cases closed
  | comment chars => cases closed

end Reading

/-- Characters that are read as the given lexemes, and that are no part of a longer string or
comment. -/
def Spells (cs : List Char) (lexemes : List Lexeme) : Prop :=
  ∃ r, Reading.feedAll {} cs = some r ∧ r.isOpen = false ∧ r.finish? = some lexemes.reverse

namespace Spells

variable {cs ds : List Char} {lexemes others : List Lexeme}

theorem lexemes?_eq (h : Spells cs lexemes) : lexemes? cs = some lexemes := by
  obtain ⟨r, read, -, ended⟩ := h
  simp [lexemes?, read, ended]

theorem nil : Spells [] [] := ⟨{}, rfl, rfl, rfl⟩

/-- Text after lexemes that are found already spells out further ones. -/
theorem onto (found : List Lexeme) (h : Spells cs lexemes) :
    ∃ r, Reading.feedAll ⟨.nothing, found⟩ cs = some r ∧ r.isOpen = false ∧
      r.finish? = some (lexemes.reverse ++ found) := by
  obtain ⟨r, read, closed, ended⟩ := h
  have shifted := Reading.feedAll_onto found {} cs
  rw [read] at shifted
  exact ⟨r.onto found, shifted, closed, by rw [Reading.finish?_onto, ended]; rfl⟩

theorem mark {c : Char} {lexeme : Lexeme} (hc : mark? c = some lexeme) (h : Spells cs lexemes) :
    Spells (c :: cs) (lexeme :: lexemes) := by
  obtain ⟨r, read, closed, ended⟩ := h.onto [lexeme]
  refine ⟨r, ?_, closed, by simpa using ended⟩
  simpa [Reading.feed, Reading.start, hc] using read

theorem separator (h : Spells cs lexemes) : Spells (' ' :: cs) lexemes := h

/-- A word ends before a character that cannot be in it. -/
theorem append {c : Char} (h : Spells cs lexemes) (hd : Spells (c :: ds) others)
    (hc : isWordChar c = false) : Spells (cs ++ c :: ds) (lexemes ++ others) := by
  obtain ⟨r, read, closed, ended⟩ := h
  obtain ⟨r', read', closed', ended'⟩ := hd
  have next : (Reading.start [] c).feedAll ds = some r' := read'
  refine ⟨r'.onto lexemes.reverse, ?_, closed', by rw [Reading.finish?_onto, ended']; simp⟩
  have same : Reading.start lexemes.reverse c = (Reading.start [] c).onto lexemes.reverse :=
    Reading.start_onto lexemes.reverse [] c
  simp [Reading.feedAll_append, read, Reading.feed_of_not_isWordChar closed ended hc, same,
    Reading.feedAll_onto, next]

end Spells

/-! ### Words and strings -/

theorem start_of_isWordChar {c : Char} (h : isWordChar c = true) (lexemes : List Lexeme) :
    Reading.start lexemes c = ⟨.word [c], lexemes⟩ := by
  simp only [isWordChar, Bool.and_eq_true, Bool.not_eq_true', Option.isNone_iff_eq_none,
    bne_iff_ne] at h
  obtain ⟨⟨⟨separator, mark⟩, quote⟩, hash⟩ := h
  simp [Reading.start, separator, mark, quote, hash]

theorem feedAll_word {cs : List Char} (h : ∀ c ∈ cs, isWordChar c = true) (chars : List Char)
    (lexemes : List Lexeme) :
    Reading.feedAll ⟨.word chars, lexemes⟩ cs = some ⟨.word (cs.reverse ++ chars), lexemes⟩ := by
  induction cs generalizing chars with
  | nil => rfl
  | cons c cs ih =>
    simp only [List.forall_mem_cons] at h
    simp [Reading.feed, h.1, ih h.2]

theorem feedAll_string {cs : List Char} (h : '"' ∉ cs) (chars : List Char)
    (lexemes : List Lexeme) :
    Reading.feedAll ⟨.string chars, lexemes⟩ cs =
      some ⟨.string (cs.reverse ++ chars), lexemes⟩ := by
  induction cs generalizing chars with
  | nil => rfl
  | cons c cs ih =>
    simp only [List.mem_cons, not_or] at h
    have hc : c ≠ '"' := fun e => h.1 e.symm
    simp [Reading.feed, hc, ih h.2]

theorem spells_word (cs : List Char) {lexeme : Lexeme} (hne : cs ≠ [])
    (h : ∀ c ∈ cs, isWordChar c = true) (ho : Lexeme.ofWord (String.ofList cs) = .ok lexeme) :
    Spells cs [lexeme] := by
  obtain ⟨c, cs, rfl⟩ := List.exists_cons_of_ne_nil hne
  simp only [List.forall_mem_cons] at h
  refine ⟨⟨.word (cs.reverse ++ [c]), []⟩, ?_, rfl, ?_⟩
  · have first : Reading.feed {} c = some ⟨.word [c], []⟩ :=
      congrArg some (start_of_isWordChar h.1 [])
    simp [first, feedAll_word h.2]
  · have text : Lexer.textOf (cs.reverse ++ [c]) = String.ofList (c :: cs) := by
      simp only [Lexer.textOf, List.reverse_append, List.reverse_reverse]
      rfl
    simp only [Reading.finish?, text, ho]
    rfl

theorem spells_string {cs : List Char} (h : '"' ∉ cs) :
    Spells ('"' :: (cs ++ ['"'])) [.atom (.string (String.ofList cs))] := by
  refine ⟨⟨.nothing, [.atom (.string (String.ofList cs))]⟩, ?_, rfl, rfl⟩
  have first : Reading.feedAll {} ('"' :: (cs ++ ['"'])) =
      Reading.feedAll ⟨.string [], []⟩ (cs ++ ['"']) := rfl
  rw [first, Reading.feedAll_append, feedAll_string h]
  simp [Reading.feed, Lexer.textOf]

/-! ### Plain lexemes -/

/-- The values that a text can write down. There is no way to write a quote in a string. -/
def Atom.Plain : Atom → Prop
  | .int n => Fits n
  | .string s => '"' ∉ s.toList
  | .bool _ | .null => True
  | _ => False

/-- The lexemes that a text can have: names are words that are neither keywords nor numerals. -/
def Lexeme.Plain : Lexeme → Prop
  | .atom value => value.Plain
  | .name word => word.toList ≠ [] ∧ (∀ c ∈ word.toList, isWordChar c = true) ∧
      Lexeme.ofWord word = .ok (.name word)
  | _ => True

theorem Lexeme.ofWord_write {n : Int} (h : Fits n) :
    Lexeme.ofWord (String.ofList (Decimal.write n)) = .ok (.atom (.int n)) := by
  have other (word : String) (c : Char) (hc : c ∈ word.toList)
      (hn : (c == '-' || Decimal.isDigit c) = false) :
      String.ofList (Decimal.write n) ≠ word := by
    rintro rfl
    rw [String.toList_ofList] at hc
    rcases Decimal.mem_write hc with rfl | digit
    · simp at hn
    · simp [digit] at hn
  have keyword : keyword? (String.ofList (Decimal.write n)) = none := by
    simp [keyword?, other "true" 't' (by decide) (by decide),
      other "false" 'f' (by decide) (by decide), other "null" 'n' (by decide) (by decide)]
  have read : Decimal.ofText? (String.ofList (Decimal.write n)) = some n := by
    rw [Decimal.ofText?, String.toList_ofList, Decimal.read?_write]
  have short := Decimal.digitCount_write_le h
  simp [Lexeme.ofWord, keyword, read, h, Nat.not_lt.mpr short]

/-- A plain value is read back from its program text. -/
theorem Atom.Plain.spells {a : Atom} (h : a.Plain) : Spells a.literal.toList [.atom a] := by
  cases a with
  | int n =>
    show Spells (String.ofList (Decimal.write n)).toList _
    rw [String.toList_ofList]
    refine spells_word _ (Decimal.write_ne_nil n) (fun c hc => ?_) (Lexeme.ofWord_write h)
    rcases Decimal.mem_write hc with rfl | digit
    · decide
    · exact Decimal.isWordChar_of_isDigit digit
  | bool b =>
    cases b
    · exact spells_word ['f', 'a', 'l', 's', 'e'] (by simp) (List.all_eq_true.mp (by decide)) rfl
    · exact spells_word ['t', 'r', 'u', 'e'] (by simp) (List.all_eq_true.mp (by decide)) rfl
  | null => exact spells_word ['n', 'u', 'l', 'l'] (by simp) (List.all_eq_true.mp (by decide)) rfl
  | string s =>
    show Spells ("\"" ++ s ++ "\"").toList _
    have quoted := spells_string h
    rw [String.ofList_toList] at quoted
    simpa using quoted
  | list xs => cases h
  | object typeId fields => cases h
  | function f => cases h

theorem Lexeme.Plain.spells {word : String} (h : (Lexeme.name word).Plain) :
    Spells word.toList [.name word] := by
  obtain ⟨nonempty, chars, read⟩ := h
  refine spells_word _ nonempty chars ?_
  rw [String.ofList_toList]
  exact read

theorem plain_of_mark? {c : Char} {lexeme : Lexeme} (h : mark? c = some lexeme) :
    lexeme.Plain := by
  rw [mark?] at h
  split at h
  · obtain rfl := Option.some.inj h
    trivial
  · split at h
    · obtain rfl := Option.some.inj h
      trivial
    · split at h
      · obtain rfl := Option.some.inj h
        trivial
      · cases h

theorem plain_of_keyword? {word : String} {value : Atom} (h : keyword? word = some value) :
    value.Plain := by
  rw [keyword?] at h
  split at h
  · obtain rfl := Option.some.inj h
    trivial
  · split at h
    · obtain rfl := Option.some.inj h
      trivial
    · split at h
      · obtain rfl := Option.some.inj h
        trivial
      · cases h

theorem plain_of_ofWord {word : String} {lexeme : Lexeme} (nonempty : word.toList ≠ [])
    (chars : ∀ c ∈ word.toList, isWordChar c = true) (h : Lexeme.ofWord word = .ok lexeme) :
    lexeme.Plain := by
  have whole := h
  rw [Lexeme.ofWord] at h
  split at h
  · rename_i value hk
    obtain rfl := Except.ok.inj h
    exact plain_of_keyword? hk
  · split at h
    · split at h
      · cases h
      · split at h
        · rename_i fits
          obtain rfl := Except.ok.inj h
          exact fits
        · cases h
    · obtain rfl := Except.ok.inj h
      exact ⟨nonempty, chars, whole⟩

namespace Reading

/-- What a pass over characters can be inside of. -/
def Inside.Plain : Inside → Prop
  | .word chars => chars ≠ [] ∧ ∀ c ∈ chars, isWordChar c = true
  | .string chars => '"' ∉ chars
  | _ => True

/-- A pass that has found plain lexemes only. -/
structure Plain (r : Reading) : Prop where
  inside : r.inside.Plain
  lexemes : ∀ lexeme ∈ r.lexemes, lexeme.Plain

theorem Plain.start {lexemes : List Lexeme} (h : ∀ lexeme ∈ lexemes, lexeme.Plain) (c : Char) :
    (Reading.start lexemes c).Plain := by
  by_cases word : isWordChar c = true
  · rw [start_of_isWordChar word]
    exact ⟨⟨by simp, by simpa using word⟩, h⟩
  · rw [Reading.start]
    split
    · rename_i lexeme hm
      exact ⟨trivial, List.forall_mem_cons.mpr ⟨plain_of_mark? hm, h⟩⟩
    · rename_i hm
      split
      · exact ⟨trivial, h⟩
      · split
        · exact ⟨List.not_mem_nil, h⟩
        · split
          · exact ⟨trivial, h⟩
          · simp_all [isWordChar]

theorem Plain.finish? {r : Reading} (h : r.Plain) {lexemes : List Lexeme}
    (hf : r.finish? = some lexemes) : ∀ lexeme ∈ lexemes, lexeme.Plain := by
  obtain ⟨inside, found⟩ := r
  cases inside with
  | nothing =>
    obtain rfl := Option.some.inj hf
    exact h.lexemes
  | word chars =>
    obtain ⟨⟨nonempty, all⟩, plain⟩ := h
    obtain ⟨lexeme, ho, rfl⟩ := Option.map_eq_some_iff.mp hf
    refine List.forall_mem_cons.mpr ⟨?_, plain⟩
    cases hw : Lexeme.ofWord (Lexer.textOf chars) with
    | error cause => simp [hw, Except.toOption] at ho
    | ok found =>
      obtain rfl : found = lexeme := by simpa [hw, Except.toOption] using ho
      refine plain_of_ofWord ?_ ?_ hw
      · simpa [Lexer.textOf] using nonempty
      · simpa [Lexer.textOf] using all
  | string chars => cases hf
  | comment chars =>
    obtain rfl := Option.some.inj hf
    exact List.forall_mem_cons.mpr ⟨trivial, h.lexemes⟩

theorem Plain.feed {r next : Reading} (h : r.Plain) {c : Char} (hf : r.feed c = some next) :
    next.Plain := by
  obtain ⟨inside, found⟩ := r
  cases inside with
  | nothing =>
    obtain rfl := Option.some.inj hf
    exact Plain.start h.lexemes c
  | word chars =>
    simp only [Reading.feed] at hf
    split at hf
    · rename_i hc
      obtain rfl := Option.some.inj hf
      exact ⟨⟨by simp, List.forall_mem_cons.mpr ⟨hc, h.inside.2⟩⟩, h.lexemes⟩
    · obtain ⟨lexemes, ended, rfl⟩ := Option.map_eq_some_iff.mp hf
      exact Plain.start (h.finish? ended) c
  | string chars =>
    simp only [Reading.feed] at hf
    have none : '"' ∉ chars := h.inside
    split at hf
    · obtain rfl := Option.some.inj hf
      refine ⟨trivial, List.forall_mem_cons.mpr ⟨?_, h.lexemes⟩⟩
      show '"' ∉ (Lexer.textOf chars).toList
      simpa [Lexer.textOf] using none
    · rename_i hc
      obtain rfl := Option.some.inj hf
      refine ⟨?_, h.lexemes⟩
      show '"' ∉ c :: chars
      simp only [List.mem_cons, not_or]
      exact ⟨fun e => hc e.symm, none⟩
  | comment chars =>
    simp only [Reading.feed] at hf
    split at hf
    · obtain rfl := Option.some.inj hf
      exact ⟨trivial, List.forall_mem_cons.mpr ⟨trivial, h.lexemes⟩⟩
    · obtain rfl := Option.some.inj hf
      exact ⟨trivial, h.lexemes⟩

theorem Plain.feedAll {r next : Reading} (h : r.Plain) {cs : List Char}
    (hf : r.feedAll cs = some next) : next.Plain := by
  induction cs generalizing r with
  | nil =>
    obtain rfl := Option.some.inj hf
    exact h
  | cons c cs ih =>
    obtain ⟨between, fed, rest⟩ := Option.bind_eq_some_iff.mp hf
    exact ih (h.feed fed) rest

end Reading

/-- A text has plain lexemes only. -/
theorem plain_of_lexemes? {cs : List Char} {lexemes : List Lexeme}
    (h : lexemes? cs = some lexemes) : ∀ lexeme ∈ lexemes, lexeme.Plain := by
  obtain ⟨r, read, ended⟩ := Option.bind_eq_some_iff.mp h
  obtain ⟨found, finished, rfl⟩ := Option.map_eq_some_iff.mp ended
  have plain : Reading.Plain {} := ⟨trivial, fun _ hl => absurd hl List.not_mem_nil⟩
  intro lexeme hl
  exact (plain.feedAll read).finish? finished lexeme (List.mem_reverse.mp hl)

/-! ### The lexemes of expressions -/

namespace Node

mutual

/-- The lexemes that an expression is written with. -/
def lexemes : Node → List Lexeme
  | literal value _ => [.atom value]
  | var name _ => [.name name]
  | call name args _ _ => .name name :: .opening :: (lexemesAll args ++ [.closing])

/-- The lexemes of several expressions, separated by commas. -/
def lexemesAll : List Node → List Lexeme
  | [] => []
  | node :: nodes =>
    match nodes with
    | [] => lexemes node
    | _ :: _ => lexemes node ++ .comma :: lexemesAll nodes

end

/-- An expression whose names and values can be written down. -/
def Plain (node : Node) : Prop := ∀ lexeme ∈ node.lexemes, lexeme.Plain

variable {node : Node} {nodes : List Node}

theorem lexemesAll_cons_cons (node next : Node) (nodes : List Node) :
    lexemesAll (node :: next :: nodes) = node.lexemes ++ .comma :: lexemesAll (next :: nodes) := by
  rw [lexemesAll]

@[simp]
theorem lexemesAll_singleton (node : Node) : lexemesAll [node] = node.lexemes := by
  rw [lexemesAll]

theorem plain_of_mem_lexemesAll (h : ∀ node ∈ nodes, node.Plain) :
    ∀ lexeme ∈ lexemesAll nodes, lexeme.Plain := by
  induction nodes with
  | nil => simp [lexemesAll]
  | cons node nodes ih =>
    obtain ⟨first, rest⟩ := List.forall_mem_cons.mp h
    cases nodes with
    | nil =>
      rw [lexemesAll_singleton]
      exact first
    | cons next nodes =>
      rw [lexemesAll_cons_cons]
      intro lexeme hl
      rcases List.mem_append.mp hl with hl | hl
      · exact first lexeme hl
      · rcases List.mem_cons.mp hl with rfl | hl
        · trivial
        · exact ih rest lexeme hl

theorem plain_call {name doc : String} {span : Option Span} (hn : (Lexeme.name name).Plain)
    (h : ∀ node ∈ nodes, node.Plain) : (call name nodes doc span).Plain := by
  intro lexeme hl
  simp only [lexemes, List.mem_cons, List.mem_append, List.not_mem_nil, or_false] at hl
  rcases hl with rfl | rfl | hl | rfl
  · exact hn
  · trivial
  · exact plain_of_mem_lexemesAll h lexeme hl
  · trivial

mutual

/-- A written expression spells out its lexemes. -/
theorem spells_render (node : Node) (h : node.Plain) :
    Spells node.render.toList node.lexemes := by
  match node with
  | literal value span =>
    have plain : value.Plain := h (.atom value) (by simp [lexemes])
    rw [render, lexemes]
    exact plain.spells
  | var name span =>
    have plain : (Lexeme.name name).Plain := h (.name name) (by simp [lexemes])
    rw [render, lexemes]
    exact plain.spells
  | call name args doc span =>
    have plain : (Lexeme.name name).Plain := h (.name name) (by simp [lexemes])
    have rest : ∀ lexeme ∈ lexemesAll args, lexeme.Plain := fun lexeme hl =>
      h lexeme (by simp [lexemes, hl])
    have closing : Spells [')'] [.closing] := Spells.nil.mark rfl
    have inner := (spells_renderAll args rest).append closing (by decide)
    have text : (call name args doc span).render.toList = name.toList ++
        '(' :: (List.intercalate [',', ' '] ((renderAll args).map String.toList) ++ [')']) := by
      simp [render]
    rw [text, lexemes]
    exact plain.spells.append (inner.mark rfl) (by decide)

/-- Written expressions, separated by commas, spell out their lexemes. -/
theorem spells_renderAll (nodes : List Node)
    (h : ∀ lexeme ∈ lexemesAll nodes, lexeme.Plain) :
    Spells (List.intercalate [',', ' '] ((renderAll nodes).map String.toList))
      (lexemesAll nodes) := by
  match nodes with
  | [] => exact Spells.nil
  | [node] =>
    rw [lexemesAll_singleton] at h
    have first := spells_render node h
    simpa [renderAll] using first
  | node :: next :: nodes =>
    rw [lexemesAll_cons_cons] at h ⊢
    have first := spells_render node fun lexeme hl => h lexeme (List.mem_append_left _ hl)
    have rest := spells_renderAll (next :: nodes) fun lexeme hl =>
      h lexeme (List.mem_append_right _ (List.mem_cons_of_mem _ hl))
    have text :
        List.intercalate [',', ' '] ((renderAll (node :: next :: nodes)).map String.toList) =
          node.render.toList ++ ',' :: ' ' ::
          List.intercalate [',', ' '] ((renderAll (next :: nodes)).map String.toList) := by
      simp [renderAll, List.intercalate_cons_cons]
    rw [text]
    exact first.append (rest.separator.mark rfl) (by decide)

end

/-! ### Expressions from their lexemes -/

mutual

/-- An expression without its place and without the comments before it. -/
def bare : Node → Node
  | literal value _ => literal value none
  | var name _ => var name none
  | call name args _ _ => call name (bareAll args) "" none

/-- Expressions without their places and without the comments before them. -/
def bareAll : List Node → List Node
  | [] => []
  | node :: nodes => bare node :: bareAll nodes

end

end Node

namespace Builder

open Node

mutual

/-- From the lexemes of an expression the builder makes the expression. -/
theorem feedAll_lexemes (node : Node) (b : Builder) {ts : List Token}
    (h : ts.map Token.lexeme = node.lexemes) :
    ∃ next found, feedAll b ts = .ok next ∧ next.stack = b.stack ∧
      next.settled = found :: b.settled ∧ found.bare = node.bare := by
  match node with
  | literal value span =>
    rw [lexemes] at h
    obtain ⟨⟨lexeme, place⟩, rest, rfl, rfl, ht⟩ := List.map_eq_cons_iff.mp h
    obtain rfl := List.map_eq_nil_iff.mp ht
    exact ⟨_, .literal value (some place), rfl, rfl, rfl, by rw [bare, bare]⟩
  | var name span =>
    rw [lexemes] at h
    obtain ⟨⟨lexeme, place⟩, rest, rfl, rfl, ht⟩ := List.map_eq_cons_iff.mp h
    obtain rfl := List.map_eq_nil_iff.mp ht
    exact ⟨_, .var name (some place), rfl, rfl, rfl, by rw [bare, bare]⟩
  | call name args doc span =>
    rw [lexemes] at h
    obtain ⟨⟨lexeme, place⟩, others, rfl, rfl, ho⟩ := List.map_eq_cons_iff.mp h
    obtain ⟨⟨lexeme, place'⟩, others, rfl, rfl, ht⟩ := List.map_eq_cons_iff.mp ho
    obtain ⟨inner, last, rfl, hi, hl⟩ := List.map_eq_append_iff.mp ht
    obtain ⟨⟨lexeme, place''⟩, none, rfl, rfl, hn⟩ := List.map_eq_cons_iff.mp hl
    obtain rfl := List.map_eq_nil_iff.mp hn
    -- after the name and the parenthesis the builder is on the level of the arguments
    obtain ⟨next, found, fed, stack, settled, same⟩ := feedAll_lexemesAll args
      ⟨⟨name, place, docOf b.comments, b.settled⟩ :: b.stack, [], [], none⟩ hi
    have opened : feedAll b (⟨.name name, place⟩ :: ⟨.opening, place'⟩ ::
        (inner ++ [⟨.closing, place''⟩])) = feedAll next [⟨.closing, place''⟩] := by
      simp only [feedAll, feed, feedAll_append, fed]
    have arguments : next.settled.reverse = found := by
      rw [settled]
      simp [Builder.settled]
    let made := Node.call name found (docOf b.comments) (some (place.merge place''))
    refine ⟨⟨b.stack, made :: b.settled, [], none⟩, made, ?_, rfl, rfl, ?_⟩
    · rw [opened]
      simp only [feedAll, feed, stack, arguments, made]
    · rw [bare, bare, same]

/-- From the lexemes of several expressions the builder makes the expressions. -/
theorem feedAll_lexemesAll (nodes : List Node) (b : Builder) {ts : List Token}
    (h : ts.map Token.lexeme = lexemesAll nodes) :
    ∃ next found, feedAll b ts = .ok next ∧ next.stack = b.stack ∧
      next.settled = found.reverse ++ b.settled ∧ bareAll found = bareAll nodes := by
  match nodes with
  | [] =>
    obtain rfl := List.map_eq_nil_iff.mp h
    exact ⟨b, [], rfl, rfl, rfl, rfl⟩
  | [node] =>
    rw [lexemesAll_singleton] at h
    obtain ⟨next, found, fed, stack, settled, same⟩ := feedAll_lexemes node b h
    exact ⟨next, [found], fed, stack, settled, by simp [bareAll, same]⟩
  | node :: other :: nodes =>
    rw [lexemesAll_cons_cons] at h
    obtain ⟨first, rest, rfl, hf, hr⟩ := List.map_eq_append_iff.mp h
    obtain ⟨⟨lexeme, place⟩, rest, rfl, rfl, ht⟩ := List.map_eq_cons_iff.mp hr
    obtain ⟨next, found, fed, stack, settled, same⟩ := feedAll_lexemes node b hf
    obtain ⟨last, others, fed', stack', settled', same'⟩ := feedAll_lexemesAll (other :: nodes)
      { next with args := next.settled, comments := [], pending := none } ht
    refine ⟨last, found :: others, ?_, stack'.trans stack, ?_, ?_⟩
    · simp only [feedAll_append, fed, feedAll, feed]
      exact fed'
    · rw [settled', List.reverse_cons, List.append_assoc]
      show others.reverse ++ next.settled = _
      rw [settled]
      rfl
    · simp only [bareAll, same, same']

end

/-! ### Expressions that come from a text -/

/-- A pass over tokens with plain lexemes. -/
structure Plain (b : Builder) : Prop where
  args : ∀ node ∈ b.args, node.Plain
  pending : ∀ p, b.pending = some p → (Lexeme.name p.name).Plain
  frames : ∀ f ∈ b.stack, (Lexeme.name f.name).Plain ∧ ∀ node ∈ f.before, node.Plain

variable {b next : Builder}

theorem Plain.settled (h : b.Plain) : ∀ node ∈ b.settled, node.Plain := by
  rw [Builder.settled]
  split
  · rename_i p hp
    refine List.forall_mem_cons.mpr ⟨fun lexeme hl => ?_, h.args⟩
    obtain rfl : lexeme = .name p.name := by simpa [Node.lexemes] using hl
    exact h.pending p hp
  · exact h.args

theorem Plain.feed (h : b.Plain) {t : Token} (ht : t.lexeme.Plain) (hf : b.feed t = .ok next) :
    next.Plain := by
  cases feeds_of_feed hf with
  | comment text span => exact ⟨h.settled, by simp, h.frames⟩
  | comma span => exact ⟨h.settled, by simp, h.frames⟩
  | atom value span =>
    refine ⟨List.forall_mem_cons.mpr ⟨fun lexeme hl => ?_, h.settled⟩, by simp, h.frames⟩
    obtain rfl : lexeme = .atom value := by simpa [Node.lexemes] using hl
    exact ht
  | name name span =>
    refine ⟨h.settled, ?_, h.frames⟩
    intro p hp
    obtain rfl := Option.some.inj hp
    exact ht
  | opening p span hp =>
    exact ⟨by simp, by simp, List.forall_mem_cons.mpr ⟨⟨h.pending p hp, h.args⟩, h.frames⟩⟩
  | closing f stack span hs =>
    obtain ⟨⟨name, before⟩, frames⟩ := List.forall_mem_cons.mp (hs ▸ h.frames)
    refine ⟨List.forall_mem_cons.mpr ⟨plain_call name ?_, before⟩, by simp, frames⟩
    intro node hn
    exact h.settled node (List.mem_reverse.mp hn)

theorem Plain.feedAll (h : b.Plain) {ts : List Token} (ht : ∀ t ∈ ts, t.lexeme.Plain)
    (hf : Builder.feedAll b ts = .ok next) : next.Plain := by
  induction ts generalizing b with
  | nil =>
    obtain rfl := Except.ok.inj hf
    exact h
  | cons t ts ih =>
    obtain ⟨first, rest⟩ := List.forall_mem_cons.mp ht
    rw [Builder.feedAll] at hf
    split at hf
    · rename_i between hb
      exact ih (h.feed first hb) rest hf
    · cases hf

end Builder

/-- A program that comes from a text can be written down. -/
theorem Node.plain_of_parse {text : String} {source : Option Source} {program : Node}
    (h : Node.parse text source = .ok program) : program.Plain := by
  obtain ⟨tokens, args, scanned, built, rfl⟩ := parse_eq_ok_iff.mp h
  obtain ⟨b, fed, -, rfl⟩ := argsOfTokens_eq_ok_iff.mp built
  have lexemes := plain_of_lexemes? (lexemes?_of_scan scanned)
  have plain : Builder.Plain {} := ⟨by simp, by simp, by simp⟩
  have name : (Lexeme.name "_").Plain := by
    refine ⟨by decide, List.all_eq_true.mp (by decide), rfl⟩
  refine plain_call name fun node hn => ?_
  refine (plain.feedAll (fun t ht => ?_) fed).settled node (List.mem_reverse.mp hn)
  exact lexemes t.lexeme (List.mem_map_of_mem ht)

/-- Parsing undoes rendering. The text of a program stands for a program with one argument, and this
is the program itself, apart from places and from the comments before calls. -/
theorem parse_render {text : String} {source : Option Source} {program : Node}
    (h : Node.parse text source = .ok program) (source' : Option Source) :
    ∃ found span, Node.parse program.render source' = .ok (.call "_" [found] "" span) ∧
      found.bare = program.bare := by
  have spelled := program.spells_render (Node.plain_of_parse h)
  obtain ⟨tokens, scanned, lexemes⟩ := scan_of_lexemes? spelled.lexemes?_eq source'
  obtain ⟨b, found, fed, stack, settled, same⟩ := Builder.feedAll_lexemes program {} lexemes
  refine ⟨found, some (Node.spanOf tokens), ?_, same⟩
  refine Node.parse_eq_ok_iff.mpr ⟨tokens, [found], scanned, ?_, rfl⟩
  refine Node.argsOfTokens_eq_ok_iff.mpr ⟨b, fed, stack, ?_⟩
  rw [settled]
  rfl

/-- A program with operators for names, signs and leading zeros, and a string with marks in it. -/
def oddlyWritten : String :=
  "# doc\n=(s \"a,(b)# \n c\"),, f(+5 007, g(), -9223372036854775808)!(true)null"

/-- The oddly written program is read, and reads back from its text. -/
theorem parse_render_oddlyWritten : ∃ program found span,
    Node.parse oddlyWritten = .ok program ∧
    program.render =
      "_(=(s, \"a,(b)# \n c\"), f(5, 7, g(), -9223372036854775808), !(true), null)" ∧
    Node.parse program.render = .ok (.call "_" [found] "" span) ∧ found.bare = program.bare := by
  have read : (Node.parse oddlyWritten).map Node.render = .ok
      "_(=(s, \"a,(b)# \n c\"), f(5, 7, g(), -9223372036854775808), !(true), null)" := by
    cbv
  cases parsed : Node.parse oddlyWritten with
  | error fault => simp [parsed, Except.map] at read
  | ok program =>
    rw [parsed] at read
    obtain ⟨found, span, again, same⟩ := parse_render parsed none
    exact ⟨program, found, span, rfl, Except.ok.inj read, again, same⟩

end CallLang
