import CallLang.Proofs.Lexemes
import CallLang.Proofs.WellPlaced

/-!
# Where tokens and expressions stand

The characters of a text stand one after the other, so a span whose ends are positions of the text,
in this order, encloses a part of it. `Span.Within` says that of a span.

The lexer gives every token a span within its text, and no token ends before an earlier one starts.
A call reaches from its name to its closing parenthesis, which comes later, so all expressions of a
program stand within its text: a text that is parsed gives a program, or a fault, that is well
placed (`wellPlaced_parse`).
-/

namespace CallLang

/-! ### Positions -/

namespace Position

protected theorem le_of_lt {p q : Position} (h : p < q) : p ≤ q := .inl h

protected theorem le_refl (p : Position) : p ≤ p := .inr rfl

protected theorem lt_of_lt_of_le {p q r : Position} (hpq : p < q) (hqr : q ≤ r) : p < r := by
  rcases hqr with hqr | rfl
  · exact Position.lt_trans hpq hqr
  · exact hpq

end Position

theorem le_of_mem_locatedFrom {p q : Position} {cs : List Char}
    (h : q ∈ (locatedFrom p cs).map Prod.fst) : p ≤ q := by
  induction cs generalizing p with
  | nil => cases h
  | cons c cs ih =>
    rcases List.mem_cons.mp h with rfl | h
    · exact Position.le_refl q
    · exact Position.le_of_lt (Position.lt_of_lt_of_le (p.lt_next c) (ih h))

/-- The characters of a text stand one after the other. -/
theorem pairwise_locatedFrom (p : Position) (cs : List Char) :
    ((locatedFrom p cs).map Prod.fst).Pairwise (· < ·) := by
  induction cs generalizing p with
  | nil => exact .nil
  | cons c cs ih =>
    refine .cons (fun q hq => ?_) (ih (p.next c))
    exact Position.lt_of_lt_of_le (p.lt_next c) (le_of_mem_locatedFrom hq)

/-- The positions of the characters of a text. -/
def positions (text : String) : List Position := (located text).map Prod.fst

theorem isSome_upTo {last : Position} {cs : List (Position × Char)} (h : last ∈ cs.map Prod.fst) :
    (upTo last cs).isSome := by
  induction cs with
  | nil => cases h
  | cons pc cs ih =>
    rw [upTo]
    split
    · rfl
    · rename_i other
      rcases List.mem_cons.mp h with rfl | h
      · exact absurd rfl other
      · simpa using ih h

theorem isSome_between {first last : Position} {cs : List (Position × Char)}
    (ordered : (cs.map Prod.fst).Pairwise (· < ·)) (hf : first ∈ cs.map Prod.fst)
    (hl : last ∈ cs.map Prod.fst) (h : first ≤ last) : (between first last cs).isSome := by
  induction cs with
  | nil => cases hf
  | cons pc cs ih =>
    obtain ⟨p, c⟩ := pc
    obtain ⟨before, ordered⟩ := List.pairwise_cons.mp ordered
    rw [between]
    by_cases start : p = first
    · rw [if_pos start]
      exact isSome_upTo hl
    · have hf : first ∈ cs.map Prod.fst := (List.mem_cons.mp hf).resolve_left fun e => start e.symm
      -- the end comes after the start, which comes after `p`
      have later : p < last := Position.lt_of_lt_of_le (before first hf) h
      have other : p ≠ last := fun e => Position.lt_irrefl _ (e ▸ later)
      rw [if_neg start, if_neg other]
      exact ih ordered hf ((List.mem_cons.mp hl).resolve_left fun e => other e.symm)

/-- A span from one position of a source to the same or a later one. -/
structure Span.Within (source : Source) (span : Span) : Prop where
  ofSource : span.source = some source
  first : span.first ∈ positions source.text
  last : span.last ∈ positions source.text
  ordered : span.first ≤ span.last

namespace Span.Within

variable {source : Source} {span other : Span}

theorem wellPlaced (h : span.Within source) : WellPlaced span := by
  intro found hs
  obtain rfl : source = found := Option.some.inj (h.ofSource.symm.trans hs)
  have enclosed := isSome_between (pairwise_locatedFrom _ _) h.first h.last h.ordered
  rw [extract, Option.isSome_map]
  exact enclosed

theorem single {p : Position} (h : p ∈ positions source.text) :
    (⟨p, p, some source⟩ : Span).Within source :=
  ⟨rfl, h, h, Position.le_refl p⟩

theorem merge (h : span.Within source) (ho : other.Within source)
    (ordered : span.first ≤ other.last) : (span.merge other).Within source :=
  ⟨h.ofSource, h.first, ho.last, ordered⟩

/-- A fault at a place of the text. -/
theorem fault (h : span.Within source) (cause : Cause) : WellPlaced (⟨cause, [span]⟩ : Fault) :=
  Fault.wellPlaced_at? cause (wellPlaced_some.mpr h.wellPlaced)

end Span.Within

/-- What holds of the result of a pass over a text; a fault that ends it is well placed. -/
def Yields {α : Type} (Q : α → Prop) : Except Fault α → Prop
  | .ok a => Q a
  | .error fault => WellPlaced fault

theorem Yields.bind {α β : Type} {Q : α → Prop} {R : β → Prop} {x : Except Fault α}
    {f : α → Except Fault β} (hx : Yields Q x) (hf : ∀ a, x = .ok a → Q a → Yields R (f a)) :
    Yields R (x >>= f) := by
  cases x with
  | ok a => exact hf a rfl hx
  | error fault => exact hx

theorem Yields.wellPlaced {α : Type} [Places α] {x : Except Fault α} (h : Yields WellPlaced x) :
    WellPlaced x := by
  cases x <;> exact h

/-! ### Tokens -/

/-- Spans of what was read before position `p`, last first: none of them ends before an earlier one
starts. -/
structure Regions (source : Source) (p : Position) (spans : List Span) : Prop where
  within : ∀ s ∈ spans, s.Within source
  before : ∀ s ∈ spans, s.first < p
  ordered : spans.Pairwise fun later earlier => earlier.first ≤ later.last

namespace Regions

variable {source : Source} {p : Position} {spans : List Span}

/-- Something that starts at the next character. -/
theorem starting (h : Regions source p spans) (hp : p ∈ positions source.text) (c : Char) :
    Regions source (p.next c) (⟨p, p, some source⟩ :: spans) where
  within := List.forall_mem_cons.mpr ⟨.single hp, h.within⟩
  before := List.forall_mem_cons.mpr
    ⟨p.lt_next c, fun s hs => Position.lt_trans (h.before s hs) (p.lt_next c)⟩
  ordered := .cons (fun s hs => Position.le_of_lt (h.before s hs)) h.ordered

/-- Something that goes on with the next character. -/
theorem extend {first last : Position} (h : Regions source p (⟨first, last, some source⟩ :: spans))
    (hp : p ∈ positions source.text) (c : Char) :
    Regions source (p.next c) (⟨first, p, some source⟩ :: spans) where
  within := by
    obtain ⟨current, earlier⟩ := List.forall_mem_cons.mp h.within
    have started := (List.forall_mem_cons.mp h.before).1
    exact List.forall_mem_cons.mpr
      ⟨⟨rfl, current.first, hp, Position.le_of_lt started⟩, earlier⟩
  before := by
    obtain ⟨started, earlier⟩ := List.forall_mem_cons.mp h.before
    exact List.forall_mem_cons.mpr ⟨Position.lt_trans started (p.lt_next c),
      fun s hs => Position.lt_trans (earlier s hs) (p.lt_next c)⟩
  ordered := by
    obtain ⟨-, earlier⟩ := List.forall_mem_cons.mp h.before
    exact .cons (fun s hs => Position.le_of_lt (earlier s hs)) (List.pairwise_cons.mp h.ordered).2

/-- The next character is passed over. -/
theorem skip (h : Regions source p spans) (c : Char) : Regions source (p.next c) spans where
  within := h.within
  before s hs := Position.lt_trans (h.before s hs) (p.lt_next c)
  ordered := h.ordered

end Regions

/-- Tokens of a source, in the order in which they stand in it. -/
structure Token.Laid (source : Source) (tokens : List Token) : Prop where
  within : ∀ t ∈ tokens, t.span.Within source
  ordered : tokens.Pairwise fun earlier later => earlier.span.first ≤ later.span.last

namespace Lexer

/-- The span of what the lexer is inside of. -/
def Mode.region? (source : Source) : Mode → Option Span
  | .between => none
  | .word first last _ => some ⟨first, last, some source⟩
  | .string opened _ => some ⟨opened, opened, some source⟩
  | .comment opened last _ => some ⟨opened, last, some source⟩

/-- The spans of everything that was read, last first. -/
def regions (source : Source) (lexer : Lexer) : List Span :=
  (lexer.mode.region? source).toList ++ lexer.tokens.map Token.span

variable {source : Source} {p : Position}

theorem regions_start (lexer : Lexer) (h : Regions source p (lexer.tokens.map Token.span))
    (hp : p ∈ positions source.text) (c : Char) :
    Regions source (p.next c) ((lexer.start (some source) p c).regions source) := by
  rw [start]
  split
  · exact h.starting hp c
  · split
    · exact h.skip c
    · split
      · exact h.starting hp c
      · split <;> exact h.starting hp c

variable {lexer : Lexer}

/-- A word becomes a token that stands where the word does. -/
theorem yields_ofWord (word : String) {span : Span} {spans : List Span}
    (h : Regions source p (span :: spans)) :
    Yields (fun token => Regions source p (token.span :: spans)) (Token.ofWord word span) := by
  rw [Token.ofWord]
  split
  · exact h
  · exact Fault.wellPlaced_ofText _ (h.within span List.mem_cons_self).wellPlaced

/-- A character starts something, goes on with it or is passed over. -/
theorem yields_feed (h : Regions source p (lexer.regions source)) (hp : p ∈ positions source.text)
    (c : Char) :
    Yields (fun next => Regions source (p.next c) (next.regions source))
      (lexer.feed (some source) (p, c)) := by
  obtain ⟨mode, tokens⟩ := lexer
  cases mode with
  | between => exact regions_start ⟨.between, tokens⟩ h hp c
  | word first last chars =>
    have ended := yields_ofWord (textOf chars) h
    simp only [feed]
    split
    · exact h.extend hp c
    · revert ended
      cases Token.ofWord (textOf chars) ⟨first, last, some source⟩ with
      | error fault => exact id
      | ok token => exact fun ended => regions_start ⟨.between, token :: tokens⟩ ended hp c
  | string opened chars =>
    simp only [feed]
    split
    · exact h.extend hp c
    · exact h.skip c
  | comment opened last chars =>
    simp only [feed]
    split <;> exact h.extend hp c

theorem yields_feedAll {cs : List Char} (h : Regions source p (lexer.regions source))
    (hcs : ∀ q ∈ (locatedFrom p cs).map Prod.fst, q ∈ positions source.text) :
    Yields (fun next => ∃ q, Regions source q (next.regions source))
      (feedAll (some source) lexer (locatedFrom p cs)) := by
  induction cs generalizing lexer p with
  | nil => exact ⟨p, h⟩
  | cons c cs ih =>
    obtain ⟨hp, hcs⟩ := List.forall_mem_cons.mp hcs
    have fed := yields_feed h hp c
    rw [locatedFrom, feedAll]
    revert fed
    cases lexer.feed (some source) (p, c) with
    | error fault => exact id
    | ok next => exact fun fed => ih fed hcs

/-- Finished tokens are kept last first. -/
theorem laid_reverse (tokens : List Token) (h : Regions source p (tokens.map Token.span)) :
    Token.Laid source tokens.reverse where
  within _ ht := h.within _ (List.mem_map_of_mem (List.mem_reverse.mp ht))
  ordered := List.pairwise_reverse.mpr (List.pairwise_map.mp h.ordered)

theorem yields_finish (h : Regions source p (lexer.regions source)) :
    Yields (Token.Laid source) (lexer.finish (some source)) := by
  obtain ⟨mode, tokens⟩ := lexer
  cases mode with
  | between => exact laid_reverse tokens h
  | word first last chars =>
    have ended := yields_ofWord (textOf chars) h
    simp only [finish]
    revert ended
    cases Token.ofWord (textOf chars) ⟨first, last, some source⟩ with
    | error fault => exact id
    | ok token => exact laid_reverse (token :: tokens)
  | string opened chars => exact (h.within _ List.mem_cons_self).fault _
  | comment opened last chars => exact laid_reverse (⟨_, _⟩ :: tokens) h

end Lexer

/-- The tokens of a text stand in it one after the other. -/
theorem yields_scan (source : Source) :
    Yields (Token.Laid source) (Token.scan source.text (some source)) := by
  have nothing : Regions source .start (Lexer.regions source {}) := by
    refine ⟨?_, ?_, .nil⟩ <;> exact fun _ hs => absurd hs List.not_mem_nil
  have read := Lexer.yields_feedAll nothing fun _ hq => hq
  rw [Token.scan]
  revert read
  show Yields _ (Lexer.feedAll (some source) {} (located source.text)) → _
  cases Lexer.feedAll (some source) {} (located source.text) with
  | error fault => exact id
  | ok lexer =>
    rintro ⟨_, regions⟩
    exact Lexer.yields_finish regions

/-! ### Expressions -/

/-- A span within a source that starts before any of the tokens `rest` ends. -/
structure Span.Opens (source : Source) (rest : List Token) (span : Span) : Prop where
  within : span.Within source
  before : ∀ t ∈ rest, span.first ≤ t.span.last

namespace Token.Laid

variable {source : Source} {token : Token} {rest : List Token}

theorem head (h : Token.Laid source (token :: rest)) : token.span.Opens source rest :=
  ⟨h.within token List.mem_cons_self, (List.pairwise_cons.mp h.ordered).1⟩

theorem tail (h : Token.Laid source (token :: rest)) : Token.Laid source rest :=
  ⟨fun t ht => h.within t (List.mem_cons_of_mem _ ht), (List.pairwise_cons.mp h.ordered).2⟩

end Token.Laid

/-- A pass of the builder before the tokens `rest`: what was built is well placed, and calls that
are open, or may be, started before. -/
structure Builder.Laid (source : Source) (rest : List Token) (b : Builder) : Prop where
  args : WellPlaced b.args
  before : ∀ f ∈ b.stack, WellPlaced f.before
  frames : ∀ f ∈ b.stack, f.span.Opens source rest
  pending : ∀ p ∈ b.pending, p.span.Opens source rest

namespace Builder.Laid

variable {source : Source} {token : Token} {rest : List Token} {b : Builder}

theorem settled (h : b.Laid source rest) : WellPlaced b.settled := by
  rw [Builder.settled]
  split
  · rename_i p hp
    have name := (h.pending p hp).within.wellPlaced
    simp [name, h.args]
  · exact h.args

theorem later (h : b.Laid source (token :: rest)) : b.Laid source rest where
  args := h.args
  before := h.before
  frames f hf := ⟨(h.frames f hf).within, (List.forall_mem_cons.mp (h.frames f hf).before).2⟩
  pending p hp := ⟨(h.pending p hp).within, (List.forall_mem_cons.mp (h.pending p hp).before).2⟩

/-- A token that neither opens nor closes a call. -/
theorem goOn (h : b.Laid source rest) {args : List Node} (ha : WellPlaced args)
    {pending : Option Pending} (hp : ∀ p ∈ pending, p.span.Opens source rest)
    (comments : List String) : Builder.Laid source rest ⟨b.stack, args, comments, pending⟩ :=
  ⟨ha, h.before, h.frames, hp⟩

theorem feed (h : b.Laid source (token :: rest)) (ht : Token.Laid source (token :: rest))
    (written : ∀ v, token.value? = some v → v.Written) :
    Yields (Builder.Laid source rest) (b.feed token) := by
  obtain ⟨lexeme, span⟩ := token
  have place : span.Opens source rest := ht.head
  have here : WellPlaced span := place.within.wellPlaced
  have none : ∀ p ∈ (none : Option Pending), p.span.Opens source rest := fun _ hp => nomatch hp
  cases lexeme with
  | comment text => exact h.later.goOn h.settled none _
  | comma => exact h.later.goOn h.settled none _
  | atom value =>
    have value : WellPlaced value := (written value rfl).wellPlaced
    exact h.later.goOn (by simp [value, here, h.settled]) none _
  | name name =>
    refine h.later.goOn h.settled (fun p hp => ?_) _
    obtain rfl := Option.some.inj hp
    exact place
  | opening =>
    simp only [Builder.feed]
    split
    · rename_i p hp
      exact ⟨wellPlaced_nil, List.forall_mem_cons.mpr ⟨h.args, h.before⟩,
        List.forall_mem_cons.mpr ⟨h.later.pending p hp, h.later.frames⟩, none⟩
    · exact place.within.fault _
  | closing =>
    simp only [Builder.feed]
    split
    · rename_i f stack hs
      have frames := h.frames
      have before := h.before
      have laterFrames := h.later.frames
      rw [hs] at frames before laterFrames
      obtain ⟨opened, -⟩ := List.forall_mem_cons.mp frames
      obtain ⟨args, before⟩ := List.forall_mem_cons.mp before
      -- the call reaches from its name to this token
      have whole := opened.within.merge place.within (opened.before _ List.mem_cons_self)
      refine ⟨?_, before, (List.forall_mem_cons.mp laterFrames).2, none⟩
      simp [h.settled, whole.wellPlaced, args]
    · exact place.within.fault _

theorem feedAll {tokens : List Token} (h : b.Laid source tokens) (ht : Token.Laid source tokens)
    (written : ∀ t ∈ tokens, ∀ v, t.value? = some v → v.Written) :
    Yields (Builder.Laid source []) (Builder.feedAll b tokens) := by
  induction tokens generalizing b with
  | nil => exact h
  | cons token tokens ih =>
    obtain ⟨first, others⟩ := List.forall_mem_cons.mp written
    have fed := h.feed ht first
    rw [Builder.feedAll]
    revert fed
    cases b.feed token with
    | error fault => exact id
    | ok next => exact fun fed => ih fed ht.tail others

theorem finish (h : b.Laid source []) : Yields WellPlaced b.finish := by
  rw [Builder.finish]
  split
  · exact wellPlaced_reverse.mpr h.settled
  · rename_i f stack hs
    have frames := h.frames
    rw [hs] at frames
    exact (frames f List.mem_cons_self).within.fault _

end Builder.Laid

theorem yields_checkFrom {source : Source} {tokens : List Token} (ht : Token.Laid source tokens)
    (balance : Balance) {last : Option Token} (hl : ∀ t ∈ last, t.span.Within source) :
    Yields (fun _ => True) (balance.checkFrom last tokens) := by
  induction tokens generalizing balance last with
  | nil =>
    rw [Balance.checkFrom]
    split
    · trivial
    · refine Fault.wellPlaced_at? _ fun s hs => ?_
      obtain ⟨t, found, rfl⟩ := Option.map_eq_some_iff.mp hs
      exact (hl t found).wellPlaced
  | cons token tokens ih =>
    have place := ht.head.within
    rw [Balance.checkFrom]
    split
    · exact place.fault _
    · refine ih ht.tail _ fun t found => ?_
      obtain rfl := Option.some.inj found
      exact place

/-- A program reaches from its first token to its last one. -/
theorem wellPlaced_spanOf {source : Source} {tokens : List Token}
    (h : Token.Laid source tokens) : WellPlaced (Node.spanOf tokens) := by
  cases tokens with
  | nil => exact fun _ hs => nomatch hs
  | cons token tokens =>
    have whole (last : Token) (hl : last ∈ token :: tokens) :
        (token.span.merge last.span).Within source := by
      refine h.head.within.merge (h.within last hl) ?_
      rcases List.mem_cons.mp hl with rfl | hl
      · exact h.head.within.ordered
      · exact h.head.before last hl
    rw [Node.spanOf, List.head?_cons, List.getLast?_eq_some_getLast (List.cons_ne_nil _ _)]
    exact (whole _ (List.getLast_mem _)).wellPlaced

/-- A text stands for a program whose expressions are written in it, or for a fault that points into
it. -/
theorem wellPlaced_parse (source : Source) (name : String) :
    WellPlaced (Node.parse source.text (some source) name) := by
  refine Yields.wellPlaced ((yields_scan source).bind fun tokens scanned laid => ?_)
  have first : ∀ t ∈ (none : Option Token), t.span.Within source := fun _ ht => nomatch ht
  have args : Yields WellPlaced (Node.argsOfTokens tokens) := by
    refine (yields_checkFrom laid {} first).bind fun _ _ _ => ?_
    have fresh : Builder.Laid source tokens {} := by
      refine ⟨wellPlaced_nil, ?_, ?_, ?_⟩ <;> intro _ h <;> cases h
    exact (fresh.feedAll laid (Token.written_of_scan scanned)).bind fun b _ built => built.finish
  refine args.bind fun nodes _ placed => ?_
  simp [Yields, placed, wellPlaced_spanOf laid]

end CallLang
