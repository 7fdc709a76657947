import CallLang.Proofs.Acceptance

/-!
# The tokens of a tree

A tree keeps all tokens that it was made from, except for commas and comments, and it keeps them in
order: listed from left to right, it gives the tokens back (`tree_faithful`). `Outline` says this
together with the places. A value and a name stand at their own token, and a call reaches from its
name to the parenthesis that closes it, which is the one that leaves the tokens between its
parentheses balanced.
-/

namespace CallLang

open Token

/-- Whether a token is part of an expression. Commas only separate, and comments only document. -/
def Token.isSignificant (token : Token) : Bool :=
  match token.lexeme with
  | .comma | .comment _ => false
  | _ => true

namespace Node

mutual

/-- The lexemes of an expression from left to right. A call is its name and its arguments between
parentheses. -/
def listing : Node → List Lexeme
  | literal value _ => [.atom value]
  | var name _ => [.name name]
  | call name args _ _ => .name name :: .opening :: (listingAll args ++ [.closing])

/-- The lexemes of several expressions. -/
def listingAll : List Node → List Lexeme
  | [] => []
  | node :: nodes => listing node ++ listingAll nodes

end

/-- The tokens that expressions are made from, one after the other, and the places of the
expressions in them. -/
inductive Outline : List Node → List Token → Prop where
  | nil : Outline [] []
  | literal {nodes : List Node} {tokens : List Token} (value : Atom) (span : Span) :
      Outline nodes tokens →
      Outline (.literal value (some span) :: nodes) (⟨.atom value, span⟩ :: tokens)
  | var {nodes : List Node} {tokens : List Token} (name : String) (span : Span) :
      Outline nodes tokens →
      Outline (.var name (some span) :: nodes) (⟨.name name, span⟩ :: tokens)
  /-- The last parenthesis is the matching one, because those between are balanced. -/
  | call {args nodes : List Node} {inner tokens : List Token} (name doc : String)
      (first opened last : Span) : Balanced inner → Outline args inner → Outline nodes tokens →
      Outline (.call name args doc (some ⟨first.first, last.last, first.source⟩) :: nodes)
        (⟨.name name, first⟩ :: ⟨.opening, opened⟩ :: (inner ++ ⟨.closing, last⟩ :: tokens))

theorem Outline.listing {nodes : List Node} {tokens : List Token} (h : Outline nodes tokens) :
    listingAll nodes = tokens.map Token.lexeme := by
  induction h with
  | nil => rfl
  | literal value span _ ih | var name span _ ih => simp [listingAll, Node.listing, ih]
  | call name doc first opened last _ _ _ ihArgs ih =>
    simp [listingAll, Node.listing, ihArgs, ih]

end Node

/-! ### Tokens without commas and comments -/

namespace Token

variable {tokens : List Token}

theorem openings_filter : openings (tokens.filter isSignificant) = openings tokens := by
  rw [openings, List.countP_filter, openings]
  refine List.countP_congr fun token _ => ?_
  obtain ⟨lexeme, span⟩ := token
  cases lexeme <;> simp [isSignificant]

theorem closings_filter : closings (tokens.filter isSignificant) = closings tokens := by
  rw [closings, List.countP_filter, closings]
  refine List.countP_congr fun token _ => ?_
  obtain ⟨lexeme, span⟩ := token
  cases lexeme <;> simp [isSignificant]

/-- Commas and comments do not matter for the balance. -/
theorem Balanced.filter (h : Balanced tokens) : Balanced (tokens.filter isSignificant) := by
  constructor
  · rintro front ⟨rest, joined⟩
    obtain ⟨xs, ys, rfl, rfl, -⟩ := List.filter_eq_append_iff.mp joined.symm
    rw [openings_filter, closings_filter]
    exact h.neverOverclosed xs (List.prefix_append xs ys)
  · rw [openings_filter, closings_filter, h.even]

end Token

/-- What the grammar derives is made from the tokens, commas and comments left out. -/
theorem Derives.outline {comments : List String} {tokens : List Token} {nodes : List Node}
    (h : Derives comments tokens nodes) :
    Node.Outline nodes (tokens.filter isSignificant) := by
  induction h with
  | nil => exact .nil
  | comment text span _ ih => exact ih
  | comma span _ ih => exact ih
  | literal value span _ ih => exact .literal value span ih
  | var name span _ _ ih => exact .var name span ih
  | @call comments inner tokens args nodes name first opened last derived _ ihInner ih =>
    have balanced := Node.balanced_of_argsOfTokens (argsOfTokens_iff_derives.mpr derived)
    show Node.Outline _ (⟨.name name, first⟩ :: ⟨.opening, opened⟩ ::
      (inner ++ ⟨.closing, last⟩ :: tokens).filter isSignificant)
    rw [List.filter_append]
    exact .call name (Builder.docOf comments) first opened last balanced.filter ihInner ih

/-- The tree is faithful to the tokens. Listed from left to right, the arguments of a program give
exactly the tokens that are neither commas nor comments. Each value and each name has the place of
its token, and each call reaches from the start of its name to the end of the matching
parenthesis. -/
theorem tree_faithful {tokens : List Token} {name : String} {program : Node}
    (h : Node.ofTokens tokens name = .ok program) :
    Node.listingAll program.args = (tokens.filter isSignificant).map Token.lexeme ∧
      Node.Outline program.args (tokens.filter isSignificant) := by
  obtain ⟨args, built, rfl⟩ := Node.ofTokens_eq_ok_iff.mp h
  have outline := (argsOfTokens_iff_derives.mp built).outline
  exact ⟨outline.listing, outline⟩

/-- The tokens of `f(#c` and, on the next line, `x,,g()1)`. -/
def sprinkled : List Token :=
  let place (line first last : Nat) : Span := ⟨⟨line, first⟩, ⟨line, last⟩, none⟩
  [⟨.name "f", place 1 1 1⟩, ⟨.opening, place 1 2 2⟩, ⟨.comment "c", ⟨⟨1, 3⟩, ⟨1, 5⟩, none⟩⟩,
    ⟨.name "x", place 2 1 1⟩, ⟨.comma, place 2 2 2⟩, ⟨.comma, place 2 3 3⟩,
    ⟨.name "g", place 2 4 4⟩, ⟨.opening, place 2 5 5⟩, ⟨.closing, place 2 6 6⟩,
    ⟨.atom (.int 1), place 2 7 7⟩, ⟨.closing, place 2 8 8⟩]

/-- A call inside of another one, with a comment and commas between the arguments. -/
theorem tree_faithful_sprinkled : ∃ program, Node.ofTokens sprinkled = .ok program ∧
    Node.listingAll program.args = [.name "f", .opening, .name "x", .name "g", .opening, .closing,
      .atom (.int 1), .closing] ∧
    Node.Outline program.args (sprinkled.filter isSignificant) := by
  have built : ∃ program, Node.ofTokens sprinkled = .ok program := ⟨_, rfl⟩
  obtain ⟨program, built⟩ := built
  obtain ⟨listing, outline⟩ := tree_faithful built
  exact ⟨program, built, listing, outline⟩

end CallLang
