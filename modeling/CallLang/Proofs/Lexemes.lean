import CallLang.Proofs.Unplaced

/-!
# What a text says

The lexer and the builder keep track of where everything stands, but what they find does not depend
on it. `Reading` is the pass of the lexer over bare characters, and `lexemes_scan` says that the
tokens of a text are its lexemes with places added. A text on a line of its own says the same
whatever stands before it (`lexemes?_append_line`).

On the side of the builder, tokens with the same lexemes make the same expressions up to places
(`unplaced_feedAll`), and arguments that are there already stay where they are (`feedAll_under`).
-/

namespace CallLang

/-! ### Lexemes -/

/-- What a pass over characters is inside of. Characters that were read are kept last first. -/
inductive Reading.Inside where
  | nothing
  | word (chars : List Char)
  | string (chars : List Char)
  | comment (chars : List Char)

/-- A pass over bare characters: what it is inside of and the finished lexemes, last first. -/
structure Reading where
  inside : Reading.Inside := .nothing
  lexemes : List Lexeme := []

namespace Reading

/-- Takes a character that is not inside of anything. -/
def start (lexemes : List Lexeme) (c : Char) : Reading :=
  match mark? c with
  | some lexeme => ⟨.nothing, lexeme :: lexemes⟩
  | none =>
    if isSeparator c then ⟨.nothing, lexemes⟩
    else if c = '"' then ⟨.string [], lexemes⟩
    else if c = '#' then ⟨.comment [], lexemes⟩
    else ⟨.word [c], lexemes⟩

/-- The lexemes, last first, of a text that ends here. -/
def finish? (r : Reading) : Option (List Lexeme) :=
  match r.inside with
  | .nothing => some r.lexemes
  | .word chars => (Lexeme.ofWord (Lexer.textOf chars)).toOption.map (· :: r.lexemes)
  | .string _ => none
  | .comment chars => some (.comment (Lexer.textOf chars) :: r.lexemes)

/-- Takes one character. -/
def feed (r : Reading) (c : Char) : Option Reading :=
  match r.inside with
  | .nothing => some (start r.lexemes c)
  | .word chars =>
    if isWordChar c then some ⟨.word (c :: chars), r.lexemes⟩
    else r.finish?.map fun lexemes => start lexemes c
  | .string chars =>
    if c = '"' then some ⟨.nothing, .atom (.string (Lexer.textOf chars)) :: r.lexemes⟩
    else some ⟨.string (c :: chars), r.lexemes⟩
  | .comment chars =>
    if c = '\n' then some ⟨.nothing, .comment (Lexer.textOf chars) :: r.lexemes⟩
    else some ⟨.comment (c :: chars), r.lexemes⟩

/-- Takes several characters. -/
def feedAll (r : Reading) (cs : List Char) : Option Reading := cs.foldlM feed r

@[simp]
theorem feedAll_nil (r : Reading) : r.feedAll [] = some r := rfl

@[simp]
theorem feedAll_cons (r : Reading) (c : Char) (cs : List Char) :
    r.feedAll (c :: cs) = (r.feed c).bind fun next => next.feedAll cs := rfl

theorem feedAll_append (r : Reading) (cs ds : List Char) :
    r.feedAll (cs ++ ds) = (r.feedAll cs).bind fun next => next.feedAll ds :=
  List.foldlM_append

/-! ### Lexemes that are there already -/

/-- A pass that had found `found` before. -/
def onto (found : List Lexeme) (r : Reading) : Reading := ⟨r.inside, r.lexemes ++ found⟩

theorem start_onto (found lexemes : List Lexeme) (c : Char) :
    start (lexemes ++ found) c = (start lexemes c).onto found := by
  rw [start, start]
  split
  · rfl
  · simp only [apply_ite (onto found)]
    rfl

theorem finish?_onto (found : List Lexeme) (r : Reading) :
    (r.onto found).finish? = r.finish?.map (· ++ found) := by
  obtain ⟨inside, lexemes⟩ := r
  cases inside with
  | nothing => rfl
  | word chars =>
    simp only [finish?, onto]
    cases (Lexeme.ofWord (Lexer.textOf chars)).toOption <;> rfl
  | string chars => rfl
  | comment chars => rfl

theorem feed_onto (found : List Lexeme) (r : Reading) (c : Char) :
    (r.onto found).feed c = (r.feed c).map (onto found) := by
  obtain ⟨inside, lexemes⟩ := r
  cases inside with
  | nothing => exact congrArg some (start_onto found lexemes c)
  | word chars =>
    have finish := finish?_onto found ⟨.word chars, lexemes⟩
    simp only [feed, onto] at finish ⊢
    split
    · rfl
    · rw [finish]
      cases finish? ⟨.word chars, lexemes⟩ with
      | none => rfl
      | some ended => exact congrArg some (start_onto found ended c)
  | string chars =>
    simp only [feed, onto]
    split <;> rfl
  | comment chars =>
    simp only [feed, onto]
    split <;> rfl

theorem feedAll_onto (found : List Lexeme) (r : Reading) (cs : List Char) :
    (r.onto found).feedAll cs = (r.feedAll cs).map (onto found) := by
  induction cs generalizing r with
  | nil => rfl
  | cons c cs ih =>
    simp only [feedAll_cons, feed_onto]
    cases r.feed c with
    | none => rfl
    | some next => exact ih next

/-- A newline ends everything that the end of the text would end. -/
theorem feed_newline {r : Reading} {lexemes : List Lexeme} (h : r.finish? = some lexemes) :
    r.feed '\n' = some ⟨.nothing, lexemes⟩ := by
  obtain ⟨inside, found⟩ := r
  cases inside with
  | nothing =>
    obtain rfl := Option.some.inj h
    rfl
  | word chars =>
    have ends : isWordChar '\n' = false := by decide
    simp only [feed, h, ends]
    rfl
  | string chars => cases h
  | comment chars =>
    obtain rfl := Option.some.inj h
    rfl

end Reading

/-- The lexemes of a text, if it has any. -/
def lexemes? (cs : List Char) : Option (List Lexeme) :=
  (Reading.feedAll {} cs).bind fun r => r.finish?.map List.reverse

/-- What stands on the lines after a text is read as if it stood alone. -/
theorem lexemes?_append_line {cs : List Char} {lexemes : List Lexeme}
    (h : lexemes? cs = some lexemes) (rest : List Char) :
    lexemes? (cs ++ '\n' :: rest) = (lexemes? rest).map (lexemes ++ ·) := by
  simp only [lexemes?, Option.bind_eq_some_iff, Option.map_eq_some_iff] at h
  obtain ⟨r, read, found, ended, rfl⟩ := h
  have fresh : (⟨.nothing, found⟩ : Reading) = Reading.onto found {} := rfl
  simp only [lexemes?, Reading.feedAll_append, read, Option.bind_some, Reading.feedAll_cons,
    Reading.feed_newline ended, fresh, Reading.feedAll_onto]
  cases Reading.feedAll {} rest with
  | none => rfl
  | some last =>
    simp only [Option.map_some, Option.bind_some, Reading.finish?_onto]
    cases last.finish? with
    | none => rfl
    | some others => simp

/-! ### Tokens are lexemes with places -/

namespace Lexer

/-- What a mode is, without positions. -/
def Mode.inside : Mode → Reading.Inside
  | .between => .nothing
  | .word _ _ chars => .word chars
  | .string _ chars => .string chars
  | .comment _ _ chars => .comment chars

/-- A pass of the lexer without positions. -/
def reading (lexer : Lexer) : Reading :=
  ⟨lexer.mode.inside, lexer.tokens.map Token.lexeme⟩

variable (source : Option Source) (lexer : Lexer)

theorem reading_start (p : Position) (c : Char) :
    (lexer.start source p c).reading = Reading.start (lexer.tokens.map Token.lexeme) c := by
  rw [start, Reading.start]
  cases mark? c with
  | some lexeme => rfl
  | none =>
    simp only [apply_ite reading]
    rfl

theorem lexemes_finish :
    (lexer.finish source).toOption.map (List.map Token.lexeme) =
      lexer.reading.finish?.map List.reverse := by
  obtain ⟨mode, tokens⟩ := lexer
  cases mode with
  | between => simp [finish, Reading.finish?, reading, Mode.inside, Except.toOption]
  | word first last chars =>
    simp only [finish, Reading.finish?, reading, Mode.inside, Token.ofWord]
    cases Lexeme.ofWord (textOf chars) <;> simp [Except.toOption]
  | string opened chars => rfl
  | comment opened last chars =>
    simp [finish, Reading.finish?, reading, Mode.inside, Except.toOption]

theorem reading_feed (p : Position) (c : Char) :
    (lexer.feed source (p, c)).toOption.map reading = lexer.reading.feed c := by
  obtain ⟨mode, tokens⟩ := lexer
  cases mode with
  | between => exact congrArg some (reading_start source ⟨.between, tokens⟩ p c)
  | word first last chars =>
    simp only [feed, Reading.feed, reading, Mode.inside, Token.ofWord, Reading.finish?]
    split
    · rfl
    · cases Lexeme.ofWord (textOf chars) with
      | error cause => rfl
      | ok lexeme =>
        exact congrArg some (reading_start source ⟨.between, ⟨lexeme, _⟩ :: tokens⟩ p c)
  | string opened chars =>
    simp only [feed, Reading.feed, reading, Mode.inside]
    split <;> rfl
  | comment opened last chars =>
    simp only [feed, Reading.feed, reading, Mode.inside]
    split <;> rfl

theorem reading_feedAll (p : Position) (cs : List Char) :
    (feedAll source lexer (locatedFrom p cs)).toOption.map reading =
      lexer.reading.feedAll cs := by
  induction cs generalizing lexer p with
  | nil => rfl
  | cons c cs ih =>
    rw [locatedFrom, feedAll, Reading.feedAll_cons, ← reading_feed source lexer p c]
    cases lexer.feed source (p, c) with
    | error fault => rfl
    | ok next => exact ih next (p.next c)

end Lexer

/-- The tokens of a text are its lexemes with places. -/
theorem lexemes_scan (text : String) (source : Option Source) :
    (Token.scan text source).toOption.map (List.map Token.lexeme) = lexemes? text.toList := by
  have read := Lexer.reading_feedAll source {} .start text.toList
  rw [Token.scan, located, lexemes?, show ({} : Reading) = Lexer.reading {} from rfl, ← read]
  cases Lexer.feedAll source {} (locatedFrom .start text.toList) with
  | error fault => rfl
  | ok lexer => exact Lexer.lexemes_finish source lexer

theorem lexemes?_of_scan {text : String} {source : Option Source} {tokens : List Token}
    (h : Token.scan text source = .ok tokens) :
    lexemes? text.toList = some (tokens.map Token.lexeme) := by
  rw [← lexemes_scan text source, h]
  rfl

theorem scan_of_lexemes? {text : String} {lexemes : List Lexeme}
    (h : lexemes? text.toList = some lexemes) (source : Option Source) :
    ∃ tokens, Token.scan text source = .ok tokens ∧ tokens.map Token.lexeme = lexemes := by
  rw [← lexemes_scan text source] at h
  cases hs : Token.scan text source with
  | error fault => simp [hs, Except.toOption] at h
  | ok tokens => exact ⟨tokens, rfl, by simpa [hs, Except.toOption] using h⟩

/-! ### Expressions of tokens -/

/-- The place of something that has lost its own. -/
def Span.nowhere : Span := ⟨.start, .start, none⟩

namespace Builder

instance : Placed Frame := ⟨fun f => ⟨f.name, .nowhere, f.doc, unplaced f.before⟩⟩
instance : Placed Pending := ⟨fun p => ⟨p.name, .nowhere, p.doc⟩⟩

end Builder

instance : Placed Builder where
  unplaced b := ⟨unplaced b.stack, unplaced b.args, b.comments, unplaced b.pending⟩

theorem unplaced_reverse {α : Type} [Placed α] (xs : List α) :
    unplaced xs.reverse = (unplaced xs).reverse :=
  List.map_reverse

namespace Builder

variable {b b' : Builder}

theorem unplaced_settled (h : unplaced b = unplaced b') :
    unplaced b.settled = unplaced b'.settled := by
  obtain ⟨-, args, -, pending⟩ := Builder.mk.inj h
  rw [settled, settled]
  rcases hp : b.pending with _ | p <;> rcases hp' : b'.pending with _ | p'
  · exact args
  · simp [hp, hp'] at pending
  · simp [hp, hp'] at pending
  · rw [hp, hp'] at pending
    obtain ⟨name, -, -⟩ := Pending.mk.inj (Option.some.inj pending)
    simp [args, name]

/-- Tokens with the same lexeme do the same, up to places. -/
theorem unplaced_feed {t t' : Token} (h : unplaced b = unplaced b') (ht : t.lexeme = t'.lexeme) :
    unplaced (b.feed t) = unplaced (b'.feed t') := by
  have settled := unplaced_settled h
  obtain ⟨stack, args, comments, pending⟩ := Builder.mk.inj h
  rw [feed, feed, ← ht]
  cases t.lexeme with
  | comment text =>
    show Except.ok (Builder.mk _ (unplaced b.settled) _ _) =
      .ok (Builder.mk _ (unplaced b'.settled) _ _)
    rw [settled, stack, comments]
  | comma =>
    show Except.ok (Builder.mk _ (unplaced b.settled) _ _) =
      .ok (Builder.mk _ (unplaced b'.settled) _ _)
    rw [settled, stack]
  | atom value =>
    show Except.ok (Builder.mk _ (unplaced (Node.literal value _ :: b.settled)) _ _) =
      .ok (Builder.mk _ (unplaced (Node.literal value _ :: b'.settled)) _ _)
    simp only [unplaced_cons, unplaced_literal, settled, stack]
  | name name =>
    show Except.ok (Builder.mk _ (unplaced b.settled) _ (some ⟨name, _, docOf b.comments⟩)) =
      .ok (Builder.mk _ (unplaced b'.settled) _ (some ⟨name, _, docOf b'.comments⟩))
    rw [settled, stack, comments]
  | opening =>
    rcases hp : b.pending with _ | p <;> rcases hp' : b'.pending with _ | p'
    · rfl
    · simp [hp, hp'] at pending
    · simp [hp, hp'] at pending
    · rw [hp, hp'] at pending
      obtain ⟨name, -, doc⟩ := Pending.mk.inj (Option.some.inj pending)
      show Except.ok (Builder.mk (⟨p.name, _, p.doc, unplaced b.args⟩ :: unplaced b.stack) _ _ _) =
        .ok (Builder.mk (⟨p'.name, _, p'.doc, unplaced b'.args⟩ :: unplaced b'.stack) _ _ _)
      rw [args, stack, name, doc]
  | closing =>
    rcases hs : b.stack with _ | ⟨f, fs⟩ <;> rcases hs' : b'.stack with _ | ⟨f', fs'⟩
    · rfl
    · simp [hs, hs'] at stack
    · simp [hs, hs'] at stack
    · rw [hs, hs'] at stack
      obtain ⟨frame, frames⟩ := List.cons.inj stack
      obtain ⟨name, -, doc, before⟩ := Frame.mk.inj frame
      show Except.ok (Builder.mk (unplaced fs) (unplaced (Node.call f.name b.settled.reverse f.doc _
        :: f.before)) _ _) = .ok (Builder.mk (unplaced fs') (unplaced (Node.call f'.name
        b'.settled.reverse f'.doc _ :: f'.before)) _ _)
      simp only [unplaced_cons, unplaced_call, unplaced_reverse, settled, name, doc, before]
      rw [show unplaced fs = unplaced fs' from frames]

theorem unplaced_feedAll {ts ts' : List Token} (h : unplaced b = unplaced b')
    (ht : ts.map Token.lexeme = ts'.map Token.lexeme) :
    unplaced (feedAll b ts) = unplaced (feedAll b' ts') := by
  induction ts generalizing b b' ts' with
  | nil =>
    obtain rfl := List.map_eq_nil_iff.mp ht.symm
    exact congrArg Except.ok h
  | cons t ts ih =>
    obtain ⟨t', ts', rfl, same, rest⟩ := List.map_eq_cons_iff.mp ht.symm
    have fed := unplaced_feed h same.symm
    rw [feedAll, feedAll]
    cases hf : b.feed t <;> cases hf' : b'.feed t' <;> rw [hf, hf'] at fed
    · exact congrArg Except.error (Except.error.inj fed)
    · cases fed
    · cases fed
    · exact ih (Except.ok.inj fed) rest.symm

/-! ### Arguments that are there already -/

/-- Open calls after the arguments `below`, which belong to the lowest level. -/
def framesUnder (below : List Node) : List Frame → List Frame
  | [] => []
  | [f] => [{ f with before := f.before ++ below }]
  | f :: g :: fs => f :: framesUnder below (g :: fs)

/-- A pass that had the arguments `below` before. -/
def under (below : List Node) : Builder → Builder
  | ⟨[], args, comments, pending⟩ => ⟨[], args ++ below, comments, pending⟩
  | ⟨f :: fs, args, comments, pending⟩ => ⟨framesUnder below (f :: fs), args, comments, pending⟩

theorem settled_append (below args : List Node) (comments : List String)
    (pending : Option Pending) :
    settled ⟨[], args ++ below, comments, pending⟩ =
      settled ⟨[], args, comments, pending⟩ ++ below := by
  cases pending <;> rfl

theorem feed_under (below : List Node) (b : Builder) (t : Token) :
    (b.under below).feed t = (b.feed t).map (under below) := by
  obtain ⟨stack, args, comments, pending⟩ := b
  rcases stack with _ | ⟨f, _ | ⟨g, fs⟩⟩
  · simp only [under, feed, settled_append]
    cases t.lexeme with
    | opening => cases pending <;> rfl
    | _ => rfl
  all_goals
    simp only [under, framesUnder, feed, settled]
    cases t.lexeme with
    | opening => cases pending <;> rfl
    | _ => rfl

theorem feedAll_under (below : List Node) (b : Builder) (ts : List Token) :
    feedAll (b.under below) ts = (feedAll b ts).map (under below) := by
  induction ts generalizing b with
  | nil => rfl
  | cons t ts ih =>
    rw [feedAll, feedAll, feed_under]
    cases b.feed t with
    | error fault => rfl
    | ok next => exact ih next

/-! ### Tokens that the builder accepts -/

/-- What the builder does with a token that it accepts. -/
inductive Feeds (b : Builder) : Token → Builder → Prop where
  | comment (text : String) (span : Span) : Feeds b ⟨.comment text, span⟩
      { b with args := b.settled, comments := text :: b.comments, pending := none }
  | comma (span : Span) : Feeds b ⟨.comma, span⟩
      { b with args := b.settled, comments := [], pending := none }
  | atom (value : Atom) (span : Span) : Feeds b ⟨.atom value, span⟩
      { b with args := .literal value (some span) :: b.settled, comments := [], pending := none }
  | name (name : String) (span : Span) : Feeds b ⟨.name name, span⟩
      { b with args := b.settled, comments := [], pending := some ⟨name, span, docOf b.comments⟩ }
  | opening (p : Pending) (span : Span) : b.pending = some p →
      Feeds b ⟨.opening, span⟩ ⟨⟨p.name, p.span, p.doc, b.args⟩ :: b.stack, [], [], none⟩
  | closing (f : Frame) (stack : List Frame) (span : Span) : b.stack = f :: stack →
      Feeds b ⟨.closing, span⟩ ⟨stack, .call f.name b.settled.reverse f.doc
        (some (f.span.merge span)) :: f.before, [], none⟩

theorem feeds_of_feed {t : Token} {next : Builder} (h : b.feed t = .ok next) :
    b.Feeds t next := by
  obtain ⟨lexeme, span⟩ := t
  cases lexeme with
  | comment text =>
    obtain rfl := Except.ok.inj h
    exact .comment text span
  | comma =>
    obtain rfl := Except.ok.inj h
    exact .comma span
  | atom value =>
    obtain rfl := Except.ok.inj h
    exact .atom value span
  | name name =>
    obtain rfl := Except.ok.inj h
    exact .name name span
  | opening =>
    simp only [feed] at h
    split at h
    · rename_i p hp
      obtain rfl := Except.ok.inj h
      exact .opening p span hp
    · cases h
  | closing =>
    simp only [feed] at h
    split at h
    · rename_i f stack hs
      obtain rfl := Except.ok.inj h
      exact .closing f stack span hs
    · cases h

/-- The builder has as many open calls as parentheses are open. -/
theorem count_feed {t : Token} {next : Builder} {balance : Balance} (h : b.feed t = .ok next)
    (depth : balance.opened = balance.closed + b.stack.length) :
    (balance.count t.lexeme).opened = (balance.count t.lexeme).closed + next.stack.length := by
  cases feeds_of_feed h with
  | opening p span =>
    simp only [Balance.count, List.length_cons]
    omega
  | closing f stack span hs =>
    rw [hs, List.length_cons] at depth
    simp only [Balance.count]
    omega
  | comment | comma | atom | name => exact depth

/-- What the builder accepts is balanced. -/
theorem checkFrom_of_feedAll {ts : List Token} {next : Builder} {balance : Balance}
    (last : Option Token) (h : feedAll b ts = .ok next) (closed : next.stack = [])
    (depth : balance.opened = balance.closed + b.stack.length) :
    balance.checkFrom last ts = .ok () := by
  induction ts generalizing b balance last with
  | nil =>
    obtain rfl := Except.ok.inj h
    rw [closed] at depth
    simpa [Balance.checkFrom] using depth
  | cons t ts ih =>
    rw [feedAll] at h
    split at h
    · rename_i between hb
      have deeper := count_feed hb depth
      have enough : ¬ (balance.count t.lexeme).opened < (balance.count t.lexeme).closed := by
        omega
      rw [Balance.checkFrom]
      simp only [enough, if_false]
      exact ih _ h deeper
    · cases h

end Builder

/-! ### Programs -/

namespace Node

/-- Tokens stand for the arguments that the builder ends with, if it has closed all calls. -/
theorem argsOfTokens_eq_ok_iff {tokens : List Token} {args : List Node} :
    argsOfTokens tokens = .ok args ↔
      ∃ b, Builder.feedAll {} tokens = .ok b ∧ b.stack = [] ∧ b.settled.reverse = args := by
  simp only [argsOfTokens, bind, Except.bind]
  constructor
  · intro h
    split at h
    · cases h
    · split at h
      · cases h
      · rename_i b hb
        rw [Builder.finish] at h
        split at h
        · rename_i closed
          exact ⟨b, hb, closed, Except.ok.inj h⟩
        · cases h
  · rintro ⟨b, hb, closed, rfl⟩
    have balanced : Balance.check tokens = .ok () :=
      Builder.checkFrom_of_feedAll none hb closed rfl
    simp [balanced, hb, Builder.finish, closed]

/-- A text stands for a program if it has tokens, and they stand for arguments. -/
theorem parse_eq_ok_iff {text name : String} {source : Option Source} {program : Node} :
    parse text source name = .ok program ↔
      ∃ tokens args, Token.scan text source = .ok tokens ∧ argsOfTokens tokens = .ok args ∧
        .call name args "" (some (spanOf tokens)) = program := by
  simp only [parse, ofTokens, bind, Except.bind]
  cases Token.scan text source with
  | error fault => simp
  | ok tokens => cases ha : argsOfTokens tokens <;> simp [ha]

end Node

end CallLang
