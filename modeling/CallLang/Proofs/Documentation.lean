import CallLang.Proofs.Acceptance
import CallLang.Proofs.Excerpts
import Mathlib.Data.List.DropRight

/-!
# Which comments document which calls

A call is documented by the comments directly before its name, one line for each of them. `Called`
is a name that is called, together with all the tokens before it, and `Called.doc` reads the
documentation off these tokens. The calls of a tree, outer ones first, are calls of the called names
in order, and each has the documentation of its own name (`comments_document_calls`). All other
comments may as well be left out.
-/

namespace CallLang

namespace Token

/-! ### Comments before a name -/

/-- The text of a comment. -/
def comment? (token : Token) : Option String :=
  match token.lexeme with
  | .comment text => some text
  | _ => none

/-- The texts of the comments that `tokens` end with, as many as there are in a row. -/
def lastComments (tokens : List Token) : List String :=
  (tokens.rtakeWhile fun t => t.comment?.isSome).filterMap comment?

@[simp]
theorem lastComments_concat_comment (tokens : List Token) (text : String) (span : Span) :
    lastComments (tokens ++ [⟨.comment text, span⟩]) = lastComments tokens ++ [text] := by
  rw [lastComments, List.rtakeWhile_concat_pos _ _ _ rfl, List.filterMap_append]
  rfl

/-- No comments come directly before what stands after a token that is none. -/
theorem reverse_lastComments_concat (tokens : List Token) {token : Token}
    (h : token.comment? = none) : (lastComments (tokens ++ [token])).reverse = [] := by
  rw [lastComments, List.rtakeWhile_concat_neg _ _ _ (by simp [h])]
  rfl

/-- A text without the space that it starts with, if it does. -/
def withoutSpace (text : String) : String :=
  if text.toList.head? = some ' ' then String.ofList text.toList.tail else text

theorem docLine_eq (comment : String) : Builder.docLine comment = withoutSpace comment := by
  rw [Builder.docLine, withoutSpace]
  split
  · rename_i cs chars
    simp [chars]
  · rename_i other
    rw [if_neg]
    intro space
    obtain ⟨cs, chars⟩ := List.head?_eq_some_iff.mp space
    exact other cs chars

/-! ### Called names -/

/-- A name that is called, the tokens before it and its place. -/
structure Called where
  before : List Token
  name : String
  place : Span

/-- The documentation of a called name: the comments directly before it, each on a line of its own
and without the space that it may start with. -/
def Called.doc (called : Called) : String :=
  "\n".intercalate ((lastComments called.before).map withoutSpace)

/-- A name is called if an opening parenthesis comes directly after it. -/
def called? (before : List Token) (token : Token) (after : List Token) : Option Called :=
  match token.lexeme, after.head?.map Token.lexeme with
  | .name name, some .opening => some ⟨before, name, token.span⟩
  | _, _ => none

/-- The called names among tokens that come after the tokens `before`, in order. -/
def calledAfter (before : List Token) : List Token → List Called
  | [] => []
  | token :: tokens => (called? before token tokens).toList ++ calledAfter (before ++ [token]) tokens

theorem called?_eq_none (before : List Token) (token : Token) {after : List Token}
    (free : ∀ t ∈ after.head?, t.lexeme ≠ .opening) : called? before token after = none := by
  rw [called?]
  split
  · rename_i opens
    obtain ⟨t, ht, opening⟩ := Option.map_eq_some_iff.mp opens
    exact absurd opening (free t ht)
  · rfl

theorem calledAfter_append (before xs : List Token) {ys : List Token}
    (free : ∀ t ∈ ys.head?, t.lexeme ≠ .opening) :
    calledAfter before (xs ++ ys) = calledAfter before xs ++ calledAfter (before ++ xs) ys := by
  induction xs generalizing before with
  | nil => simp [calledAfter]
  | cons x xs ih =>
    have here : called? before x (xs ++ ys) = called? before x xs := by
      cases xs with
      | nil => rw [List.nil_append, called?_eq_none before x free, called?_eq_none before x (by simp)]
      | cons x' xs => rfl
    rw [List.cons_append, calledAfter, ih, here, calledAfter]
    simp

theorem docOf_reverse_lastComments (called : Called) :
    Builder.docOf (lastComments called.before).reverse = called.doc := by
  rw [Builder.docOf, List.reverse_reverse, Called.doc, List.map_congr_left fun t _ => docLine_eq t]

/-- What stands before a comment goes on after a token that is none. -/
theorem exists_front {token : Token} {tokens before after : List Token} {text : String}
    {span : Span} (other : token.comment? = none)
    (whole : token :: tokens = before ++ ⟨.comment text, span⟩ :: after) :
    ∃ front, before = token :: front ∧ tokens = front ++ ⟨.comment text, span⟩ :: after := by
  rcases List.cons_eq_append_iff.mp whole with ⟨-, here⟩ | found
  · rw [← (List.cons.inj here).1] at other
    cases other
  · exact found

/-- The comments that come next, if any, stand directly before a called name. -/
def LeadsToCall (tokens : List Token) : Prop :=
  ∃ run name place opened rest, tokens = run ++ ⟨.name name, place⟩ :: ⟨.opening, opened⟩ :: rest ∧
    ∀ t ∈ run, t.comment?.isSome

namespace LeadsToCall

variable {tokens : List Token}

theorem comment (h : LeadsToCall tokens) (text : String) (span : Span) :
    LeadsToCall (⟨.comment text, span⟩ :: tokens) := by
  obtain ⟨run, name, place, opened, rest, rfl, comments⟩ := h
  exact ⟨_ :: run, name, place, opened, rest, rfl, List.forall_mem_cons.mpr ⟨rfl, comments⟩⟩

theorem append (h : LeadsToCall tokens) (more : List Token) : LeadsToCall (tokens ++ more) := by
  obtain ⟨run, name, place, opened, rest, rfl, comments⟩ := h
  exact ⟨run, name, place, opened, rest ++ more, by simp, comments⟩

end LeadsToCall

end Token

open Token

/-! ### Calls of a tree -/

/-- Whether an expression is a call. -/
def Node.isCall : Node → Bool
  | call .. => true
  | _ => false

/-- A call of a name that stands where the call starts, with the documentation of this name. -/
def Node.IsCallOf (node : Node) (called : Called) : Prop :=
  ∃ args last, node = call called.name args called.doc (some (called.place.merge last))

namespace Derives

variable {comments : List String} {tokens : List Token} {nodes : List Node}

/-- The calls that the grammar derives are calls of the called names. -/
theorem calls (h : Derives comments tokens nodes) (before : List Token)
    (same : (lastComments before).reverse = comments) :
    List.Forall₂ Node.IsCallOf ((Node.partsAll nodes).filter Node.isCall)
      (calledAfter before tokens) := by
  induction h generalizing before with
  | nil comments => exact .nil
  | comment text span _ ih => exact ih (before ++ [⟨.comment text, span⟩]) (by simp [same])
  | comma span _ ih =>
    exact ih (before ++ [⟨.comma, span⟩]) (reverse_lastComments_concat before rfl)
  | literal value span _ ih =>
    exact ih (before ++ [⟨.atom value, span⟩]) (reverse_lastComments_concat before rfl)
  | var name span free _ ih =>
    rw [calledAfter, called?_eq_none before _ free]
    exact ih (before ++ [⟨.name name, span⟩]) (reverse_lastComments_concat before rfl)
  | @call comments inner tokens args nodes name first opened last _ _ ihInner ih =>
    let atArgs := before ++ [⟨.name name, first⟩] ++ [⟨.opening, opened⟩]
    have inside := ihInner atArgs (reverse_lastComments_concat _ rfl)
    have onward := ih (atArgs ++ inner ++ [⟨.closing, last⟩]) (reverse_lastComments_concat _ rfl)
    have names : calledAfter before
        (⟨.name name, first⟩ :: ⟨.opening, opened⟩ :: (inner ++ ⟨.closing, last⟩ :: tokens)) =
        ⟨before, name, first⟩ :: (calledAfter atArgs inner ++
          calledAfter (atArgs ++ inner ++ [⟨.closing, last⟩]) tokens) := by
      rw [calledAfter, calledAfter, calledAfter_append _ _ (by simp), calledAfter]
      rfl
    rw [names, Node.partsAll, Node.parts, List.filter_cons_of_pos rfl, List.filter_append]
    refine .cons ⟨args, last, ?_⟩ (List.rel_append inside onward)
    rw [← docOf_reverse_lastComments, same]

/-- Comments that lead to no call do not matter for what follows. -/
theorem of_comments (h : Derives comments tokens nodes) (stray : ¬LeadsToCall tokens)
    (others : List String) : Derives others tokens nodes := by
  induction h generalizing others with
  | nil comments => exact .nil others
  | comment text span _ ih =>
    exact .comment text span (ih (fun leads => stray (leads.comment text span)) _)
  | comma span rest _ => exact .comma span rest
  | literal value span rest _ => exact .literal value span rest
  | var name span free rest _ => exact .var name span free rest
  | call name first opened last _ _ _ _ =>
    exact absurd ⟨[], name, first, opened, _, rfl, by simp⟩ stray

theorem ne_opening (h : Derives comments tokens nodes) :
    ∀ t ∈ tokens.head?, t.lexeme ≠ .opening := by
  intro t ht
  cases h with
  | nil => cases ht
  | _ =>
    obtain rfl := Option.some.inj ht
    exact Lexeme.noConfusion

/-- A comment that leads to no call may be left out. -/
theorem erase (h : Derives comments tokens nodes) {before after : List Token} {text : String}
    {span : Span} (whole : tokens = before ++ ⟨.comment text, span⟩ :: after)
    (stray : ¬LeadsToCall after) : Derives comments (before ++ after) nodes := by
  induction h generalizing before after with
  | nil comments => simp at whole
  | comment text' span' rest ih =>
    rcases List.cons_eq_append_iff.mp whole with ⟨rfl, here⟩ | ⟨front, rfl, others⟩
    · obtain ⟨-, rfl⟩ := List.cons.inj here
      exact rest.of_comments stray _
    · exact .comment text' span' (ih others stray)
  | comma span' rest ih =>
    obtain ⟨front, rfl, others⟩ := exists_front rfl whole
    exact .comma span' (ih others stray)
  | literal value span' rest ih =>
    obtain ⟨front, rfl, others⟩ := exists_front rfl whole
    exact .literal value span' (ih others stray)
  | var name span' free rest ih =>
    obtain ⟨front, rfl, others⟩ := exists_front rfl whole
    have derived := ih others stray
    exact .var name span' derived.ne_opening derived
  | @call comments inner tokens args nodes name first opened last derived rest ihInner ih =>
    obtain ⟨front, rfl, afterName⟩ := exists_front rfl whole
    obtain ⟨front, rfl, inParentheses⟩ := exists_front rfl afterName
    rcases List.append_eq_append_iff.mp inParentheses with ⟨_, rfl, later⟩ | ⟨_, rfl, later⟩
    · obtain ⟨front, rfl, others⟩ := exists_front rfl later
      simpa using Derives.call name first opened last derived (ih others stray)
    · rcases List.cons_eq_append_iff.mp later with ⟨-, here⟩ | ⟨within, rfl, rfl⟩
      · cases (List.cons.inj here).1
      · have inside := ihInner rfl fun leads => stray (leads.append _)
        simpa using Derives.call name first opened last inside rest

end Derives

/-- Documentation belongs to the call that it stands before. For every program, at any depth: the
calls are calls of the called names, in the order in which these stand, and the documentation of
each consists of the comments directly before its name. A comment that stands anywhere else
documents nothing: without it the tokens stand for the same arguments. The program itself, which is
a call that no name stands for, is not documented. -/
theorem comments_document_calls {tokens : List Token} {name : String} {program : Node}
    (h : Node.ofTokens tokens name = .ok program) :
    List.Forall₂ Node.IsCallOf (program.parts.filter Node.isCall) (calledAfter [] tokens) ∧
    (∀ before text span after, tokens = before ++ ⟨.comment text, span⟩ :: after →
      ¬LeadsToCall after →
      (Node.ofTokens (before ++ after) name).map Node.args = .ok program.args) ∧
    ∃ args span, program = .call name args "" span := by
  obtain ⟨args, built, rfl⟩ := Node.ofTokens_eq_ok_iff.mp h
  have derived := argsOfTokens_iff_derives.mp built
  refine ⟨derived.calls [] rfl, ?_, args, _, rfl⟩
  rintro before text span after rfl stray
  have erased := argsOfTokens_iff_derives.mpr (derived.erase rfl stray)
  rw [Node.ofTokens_eq_ok_iff.mpr ⟨args, erased, rfl⟩]
  rfl

/-- The tokens of `# a`, `#b`, `f(#c`, `g() #d` and `, h())`, each on a line of its own. -/
def annotatedTokens : List Token :=
  let place (line first last : Nat) : Span := ⟨⟨line, first⟩, ⟨line, last⟩, none⟩
  [⟨.comment " a", place 1 1 4⟩, ⟨.comment "b", place 2 1 3⟩, ⟨.name "f", place 3 1 1⟩,
    ⟨.opening, place 3 2 2⟩, ⟨.comment "c", place 3 3 5⟩, ⟨.name "g", place 4 1 1⟩,
    ⟨.opening, place 4 2 2⟩, ⟨.closing, place 4 3 3⟩, ⟨.comment "d", place 4 5 7⟩,
    ⟨.comma, place 5 1 1⟩, ⟨.name "h", place 5 3 3⟩, ⟨.opening, place 5 4 4⟩,
    ⟨.closing, place 5 5 5⟩, ⟨.closing, place 5 6 6⟩]

/-- Two comments document the outer call, one documents the first inner call, and the one before the
comma documents nothing. -/
theorem comments_document_calls_annotated : ∃ program, Node.ofTokens annotatedTokens = .ok program ∧
    List.Forall₂ Node.IsCallOf (program.parts.filter Node.isCall) (calledAfter [] annotatedTokens) ∧
    (calledAfter [] annotatedTokens).map (fun called => (called.name, called.doc)) =
      [("f", "a\nb"), ("g", "c"), ("h", "")] ∧
    (Node.ofTokens (annotatedTokens.eraseIdx 8)).map Node.args = .ok program.args := by
  have built : ∃ program, Node.ofTokens annotatedTokens = .ok program := ⟨_, rfl⟩
  obtain ⟨program, built⟩ := built
  obtain ⟨calls, others, -⟩ := comments_document_calls built
  have stray : ¬LeadsToCall (annotatedTokens.drop 9) := by
    rintro ⟨_ | ⟨comma, run⟩, name, place, opened, rest, whole, comments⟩
    · cases (List.cons.inj whole).1
    · have comment := comments comma List.mem_cons_self
      rw [← (List.cons.inj whole).1] at comment
      cases comment
  exact ⟨program, built, calls, by decide, others (annotatedTokens.take 8) "d" _ _ rfl stray⟩

end CallLang
