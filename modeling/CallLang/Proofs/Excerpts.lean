import CallLang.Proofs.Grammar
import CallLang.Proofs.Layout
import CallLang.Proofs.Sessions

/-!
# Expressions and their text

The span of an expression encloses exactly the text that the expression was written as: read on its
own, this text stands for the same expression again (`parse_excerpt`).

The tokens of an expression are a part of the tokens of its program (`Derives.standsIn`), and the
text from the first of them to the last is laid out in the same tokens (`Layout.excerpt`). Only the
comments before a call are outside of its text, so the call loses its documentation.
-/

namespace CallLang

/-! ### The tokens of an expression -/

namespace Node

mutual

/-- The expressions inside of an expression, at any depth. -/
def parts : Node → List Node
  | call _ args _ _ => partsAll args
  | _ => []

/-- The given expressions and all expressions inside of them. -/
def partsAll : List Node → List Node
  | [] => []
  | node :: nodes => node :: (parts node ++ partsAll nodes)

end

/-- An expression without the comments directly before it. -/
def undocumented : Node → Node
  | call name args _ span => call name args "" span
  | node => node

/-- A part of the tokens stands for the expression, whose span is the region that they take up. -/
def StandsIn (tokens : List Token) (node : Node) : Prop :=
  ∃ part, part ≠ [] ∧ part <:+: tokens ∧ node.span = some (spanOf part) ∧
    Derives [] part [node.undocumented]

theorem StandsIn.mono {node : Node} {tokens others : List Token} (h : node.StandsIn tokens)
    (inside : tokens <:+: others) : node.StandsIn others := by
  obtain ⟨part, nonempty, within, place, derived⟩ := h
  exact ⟨part, nonempty, within.trans inside, place, derived⟩

end Node

/-- Every expression stands somewhere in the tokens. -/
theorem Derives.standsIn {comments : List String} {tokens : List Token} {nodes : List Node}
    (h : Derives comments tokens nodes) {node : Node} (hn : node ∈ Node.partsAll nodes) :
    node.StandsIn tokens := by
  induction h with
  | nil comments => simp [Node.partsAll] at hn
  | comment text span _ ih => exact (ih hn).mono (List.suffix_cons _ _).isInfix
  | comma span _ ih => exact (ih hn).mono (List.suffix_cons _ _).isInfix
  | literal value span _ ih =>
    rcases List.mem_cons.mp hn with rfl | hn
    · exact ⟨[_], by simp, (List.prefix_append _ _).isInfix, rfl, .literal value span (.nil [])⟩
    · exact (ih (by simpa [Node.parts] using hn)).mono (List.suffix_cons _ _).isInfix
  | var name span _ _ ih =>
    rcases List.mem_cons.mp hn with rfl | hn
    · exact ⟨[_], by simp, (List.prefix_append _ _).isInfix, rfl,
        .var name span (by simp) (.nil [])⟩
    · exact (ih (by simpa [Node.parts] using hn)).mono (List.suffix_cons _ _).isInfix
  | @call comments inner tokens args nodes name first opened last derived _ ihInner ih =>
    rcases List.mem_cons.mp hn with rfl | hn
    · refine ⟨⟨.name name, first⟩ :: ⟨.opening, opened⟩ :: (inner ++ [⟨.closing, last⟩]), by simp,
        ⟨[], tokens, by simp⟩, ?_, .call name first opened last derived (.nil [])⟩
      simp [Node.span, Node.spanOf, List.getLast?_cons]
    · rw [Node.parts] at hn
      rcases List.mem_append.mp hn with hn | hn
      · refine (ihInner hn).mono ⟨[⟨.name name, first⟩, ⟨.opening, opened⟩],
          ⟨.closing, last⟩ :: tokens, by simp⟩
      · refine (ih hn).mono ⟨⟨.name name, first⟩ :: ⟨.opening, opened⟩ ::
          (inner ++ [⟨.closing, last⟩]), [], by simp⟩

/-! ### The text of tokens -/

namespace Layout

variable {source : Option Source} {p : Position} {cs : List Char}

/-- The text from the start of one token to the end of the same or a later one is laid out in these
two and the ones between them. -/
theorem excerpt {part tokens : List Token} (h : Layout source p cs tokens) (nonempty : part ≠ [])
    (inside : part <:+: tokens) :
    ∃ xs ys zs, cs = xs ++ (ys ++ zs) ∧ ys ≠ [] ∧ (Node.spanOf part).first = p.after xs ∧
      (Node.spanOf part).last = (p.after xs).after ys.dropLast ∧
      Layout source (p.after xs) ys part := by
  obtain ⟨before, later, rfl⟩ := inside
  obtain ⟨first, others, rfl⟩ := List.exists_cons_of_ne_nil nonempty
  have starts : Layout source p cs (before ++ first :: (others ++ later)) := by simpa using h
  obtain ⟨xs, chars, rest, rfl, written, place, laid⟩ := starts.split
  have onward := Layout.token written laid
  rw [← place] at onward
  -- what begins with the first token is cut off behind the last one
  have whole := List.dropLast_append_getLast nonempty
  have ends : Layout source (p.after xs) (chars ++ rest)
      ((first :: others).dropLast ++ (first :: others).getLast nonempty :: later) := by
    rw [List.append_cons, whole]
    exact onward
  obtain ⟨ys, zs, passage, some, last, laid'⟩ := ends.front
  rw [whole] at laid'
  have region : Node.spanOf (first :: others) =
      first.span.merge ((first :: others).getLast nonempty).span := by
    rw [Node.spanOf, List.head?_cons, List.getLast?_eq_some_getLast nonempty]
  refine ⟨xs, ys, zs, by rw [passage], some, ?_, ?_, laid'⟩
  · rw [region, Span.merge_first, place]
    rfl
  · rw [region, Span.merge_last, last]

end Layout

/-- Tokens with the same lexemes stand for the same expressions, up to places. -/
theorem Derives.alike {tokens tokens' : List Token} {nodes : List Node}
    (h : Derives [] tokens nodes) (same : tokens.map Token.lexeme = tokens'.map Token.lexeme) :
    ∃ nodes', Derives [] tokens' nodes' ∧ unplaced nodes' = unplaced nodes := by
  obtain ⟨b, fed, closed, rfl⟩ := Node.argsOfTokens_eq_ok_iff.mp (argsOfTokens_iff_derives.mpr h)
  obtain ⟨b', fed', closed', settled⟩ := Builder.exists_feedAll fed closed same
  refine ⟨b'.settled.reverse, argsOfTokens_iff_derives.mp ?_, ?_⟩
  · exact Node.argsOfTokens_eq_ok_iff.mpr ⟨b', fed', closed', rfl⟩
  · rw [unplaced_reverse, unplaced_reverse, settled]

/-- The text of some tokens of a program stands for the expressions that these tokens stand for. -/
theorem parse_passage {text : String} {source : Option Source} {tokens part : List Token}
    {nodes : List Node} (scanned : Token.scan text source = .ok tokens) (nonempty : part ≠ [])
    (inside : part <:+: tokens) (derived : Derives [] part nodes) (source' : Option Source) :
    ∃ excerpt nodes' span, extract text (Node.spanOf part) = some excerpt ∧
      Node.parse excerpt source' = .ok (.call "_" nodes' "" span) ∧
      unplaced nodes' = unplaced nodes := by
  obtain ⟨xs, ys, zs, chars, passage, first, last, laid⟩ :=
    (scan_eq_ok_iff.mp scanned).excerpt nonempty inside
  obtain ⟨tokens', laid', same⟩ := laid.moved source' .start
  obtain ⟨nodes', derived', alike⟩ := derived.alike same
  have scanned' : Token.scan (String.ofList ys) source' = .ok tokens' := by
    rw [scan_eq_ok_iff, String.toList_ofList]
    exact laid'
  have parsed : Node.parse (String.ofList ys) source' =
      .ok (.call "_" nodes' "" (some (Node.spanOf tokens'))) :=
    Node.parse_eq_ok_iff.mpr
      ⟨tokens', nodes', scanned', argsOfTokens_iff_derives.mpr derived', rfl⟩
  exact ⟨_, nodes', _, extract_passage chars passage first last, parsed, alike⟩

/-- The span of an expression is exactly its text. Read on its own, the text that the span of an
expression encloses stands for this expression alone, apart from places and from the comments before
it; the text of a whole program stands for the same arguments. -/
theorem parse_excerpt {text name : String} {source : Option Source} {program : Node}
    (h : Node.parse text source name = .ok program) (source' : Option Source) :
    (∀ node ∈ program.parts, ∃ span excerpt again whole, node.span = some span ∧
      extract text span = some excerpt ∧
      Node.parse excerpt source' = .ok (.call "_" [again] "" whole) ∧
      unplaced again = unplaced node.undocumented) ∧
    ∀ tokens, Token.scan text source = .ok tokens → tokens ≠ [] →
      ∃ span excerpt args whole, program.span = some span ∧ extract text span = some excerpt ∧
        Node.parse excerpt source' = .ok (.call "_" args "" whole) ∧
        unplaced args = unplaced program.args := by
  obtain ⟨tokens, args, scanned, built, rfl⟩ := Node.parse_eq_ok_iff.mp h
  have derived := argsOfTokens_iff_derives.mp built
  constructor
  · intro node hn
    rw [Node.parts] at hn
    obtain ⟨part, nonempty, inside, place, alone⟩ := derived.standsIn hn
    obtain ⟨excerpt, nodes, whole, enclosed, parsed, alike⟩ :=
      parse_passage scanned nonempty inside alone source'
    obtain ⟨again, rfl, same⟩ := List.map_eq_singleton_iff.mp alike
    exact ⟨_, excerpt, again, whole, place, enclosed, parsed, same⟩
  · intro tokens' scanned' nonempty
    obtain rfl : tokens = tokens' := Except.ok.inj (scanned.symm.trans scanned')
    obtain ⟨excerpt, nodes, whole, enclosed, parsed, alike⟩ :=
      parse_passage scanned nonempty List.infix_rfl derived source'
    exact ⟨_, excerpt, nodes, whole, rfl, enclosed, parsed, alike⟩

/-- A documented call inside of another one, with a string over two lines. -/
def annotated : String := "# top\nf(# in\n g(\"a\nb\" -07) x)# end"

/-- The inner call of the annotated text is read again from its own text, without its comment. -/
theorem parse_excerpt_annotated : ∃ program node again whole,
    Node.parse annotated = .ok program ∧ node ∈ program.parts ∧
    node.span = some ⟨⟨3, 2⟩, ⟨4, 7⟩, none⟩ ∧
    extract annotated ⟨⟨3, 2⟩, ⟨4, 7⟩, none⟩ = some "g(\"a\nb\" -07)" ∧
    Node.parse "g(\"a\nb\" -07)" = .ok (.call "_" [again] "" whole) ∧
    unplaced again =
      .call "g" [.literal (.string "a\nb") none, .literal (.int (-7)) none] "" none := by
  let inner := Node.call "g" [.literal (.string "a\nb") (some ⟨⟨3, 4⟩, ⟨4, 2⟩, none⟩),
    .literal (.int (-7)) (some ⟨⟨4, 4⟩, ⟨4, 6⟩, none⟩)] "in" (some ⟨⟨3, 2⟩, ⟨4, 7⟩, none⟩)
  let outer := Node.call "f" [inner, .var "x" (some ⟨⟨4, 9⟩, ⟨4, 9⟩, none⟩)] "top"
    (some ⟨⟨2, 1⟩, ⟨4, 10⟩, none⟩)
  let program := Node.call "_" [outer] "" (some ⟨⟨1, 1⟩, ⟨4, 15⟩, none⟩)
  have parsed : Node.parse annotated = .ok program := by
    cbv
  have text : extract annotated ⟨⟨3, 2⟩, ⟨4, 7⟩, none⟩ = some "g(\"a\nb\" -07)" := by
    cbv
  have member : inner ∈ program.parts := by
    simp [program, outer, Node.parts, Node.partsAll]
  obtain ⟨span, excerpt, again, whole, place, enclosed, reads, same⟩ :=
    (parse_excerpt parsed none).1 inner member
  obtain rfl : ⟨⟨3, 2⟩, ⟨4, 7⟩, none⟩ = span := Option.some.inj place
  obtain rfl : "g(\"a\nb\" -07)" = excerpt := Option.some.inj (text.symm.trans enclosed)
  exact ⟨_, inner, again, whole, parsed, member, rfl, text, reads,
    by simpa [inner, Node.undocumented] using same⟩

end CallLang
