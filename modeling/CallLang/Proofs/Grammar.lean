import CallLang.Proofs.Lexemes

/-!
# The grammar of expressions

`Derives` is the grammar: which expressions a list of tokens stands for. Values and names stand for
themselves, a name directly before an opening parenthesis is called with what stands between the
parentheses, commas only separate, and comments wait for a call to document.

The builder makes exactly the expressions that the grammar derives (`argsOfTokens_iff_derives`). It
keeps a stack of open calls where the grammar nests; what such a stack still needs of the tokens
that are left is `Builder.Closes`.
-/

namespace CallLang

open Builder

/-- The expressions that tokens stand for, directly after the given comments (last first). -/
inductive Derives : List String → List Token → List Node → Prop where
  | nil (comments : List String) : Derives comments [] []
  | comment {comments : List String} {tokens : List Token} {nodes : List Node} (text : String)
      (span : Span) : Derives (text :: comments) tokens nodes →
      Derives comments (⟨.comment text, span⟩ :: tokens) nodes
  | comma {comments : List String} {tokens : List Token} {nodes : List Node} (span : Span) :
      Derives [] tokens nodes → Derives comments (⟨.comma, span⟩ :: tokens) nodes
  | literal {comments : List String} {tokens : List Token} {nodes : List Node} (value : Atom)
      (span : Span) : Derives [] tokens nodes →
      Derives comments (⟨.atom value, span⟩ :: tokens) (.literal value (some span) :: nodes)
  | var {comments : List String} {tokens : List Token} {nodes : List Node} (name : String)
      (span : Span) : (∀ t ∈ tokens.head?, t.lexeme ≠ .opening) → Derives [] tokens nodes →
      Derives comments (⟨.name name, span⟩ :: tokens) (.var name (some span) :: nodes)
  | call {comments : List String} {inner tokens : List Token} {args nodes : List Node}
      (name : String) (first opened last : Span) : Derives [] inner args →
      Derives [] tokens nodes →
      Derives comments
        (⟨.name name, first⟩ :: ⟨.opening, opened⟩ :: (inner ++ ⟨.closing, last⟩ :: tokens))
        (.call name args (docOf comments) (some (first.merge last)) :: nodes)

namespace Builder

@[simp]
theorem settled_none (stack : List Frame) (args : List Node) (comments : List String) :
    settled ⟨stack, args, comments, none⟩ = args := rfl

@[simp]
theorem settled_some (stack : List Frame) (args : List Node) (comments : List String)
    (p : Pending) :
    settled ⟨stack, args, comments, some p⟩ = .var p.name (some p.span) :: args := rfl

/-- What the builder gives for the tokens that are left. -/
def complete (b : Builder) (tokens : List Token) : Except Fault (List Node) :=
  match feedAll b tokens with
  | .ok last => last.finish
  | .error fault => .error fault

@[simp]
theorem complete_nil (b : Builder) : b.complete [] = b.finish := rfl

theorem complete_cons {b next : Builder} {token : Token} (h : b.feed token = .ok next)
    (tokens : List Token) : b.complete (token :: tokens) = next.complete tokens := by
  simp only [complete, feedAll, h]

/-- A name is a variable unless a parenthesis follows. -/
theorem complete_settle (b : Builder) {tokens : List Token}
    (h : ∀ t ∈ tokens.head?, t.lexeme ≠ .opening) :
    b.complete tokens = complete { b with args := b.settled, pending := none } tokens := by
  cases tokens with
  | nil => rfl
  | cons token tokens =>
    have other := h token rfl
    obtain ⟨lexeme, span⟩ := token
    cases lexeme with
    | opening => exact absurd rfl other
    | _ => rfl

end Builder

/-- The builder makes what the grammar derives. -/
theorem Derives.exists_feedAll {comments : List String} {tokens : List Token} {nodes : List Node}
    (h : Derives comments tokens nodes) (b : Builder) (same : b.comments = comments) :
    ∃ next, feedAll b tokens = .ok next ∧ next.stack = b.stack ∧
      next.settled = nodes.reverse ++ b.settled := by
  induction h generalizing b with
  | nil comments => exact ⟨b, rfl, rfl, rfl⟩
  | comment text span _ ih =>
    exact ih { b with args := b.settled, comments := text :: b.comments, pending := none }
      (by rw [same])
  | comma span _ ih => exact ih { b with args := b.settled, comments := [], pending := none } rfl
  | literal value span _ ih =>
    obtain ⟨next, fed, stack, settled⟩ := ih { b with
      args := .literal value (some span) :: b.settled, comments := [], pending := none } rfl
    exact ⟨next, fed, stack, by simp [settled]⟩
  | var name span _ _ ih =>
    obtain ⟨next, fed, stack, settled⟩ := ih { b with
      args := b.settled, comments := [], pending := some ⟨name, span, docOf b.comments⟩ } rfl
    exact ⟨next, fed, stack, by simp [settled]⟩
  | @call comments inner tokens args nodes name first opened last _ _ ihInner ih =>
    -- the arguments are read on a level of their own, which the parenthesis closes
    obtain ⟨level, fedInner, stackInner, settledInner⟩ :=
      ihInner ⟨⟨name, first, docOf comments, b.settled⟩ :: b.stack, [], [], none⟩ rfl
    obtain ⟨next, fed, stack, settled⟩ := ih ⟨b.stack,
      .call name args (docOf comments) (some (first.merge last)) :: b.settled, [], none⟩ rfl
    refine ⟨next, ?_, stack, by simp [settled]⟩
    have arguments : level.settled.reverse = args := by simp [settledInner]
    simp only [feedAll, feed, same, feedAll_append, fedInner, stackInner, arguments]
    exact fed

namespace Builder

/-- What open calls need of the tokens that are left: the innermost one, with the arguments `args`
(last first), is closed, and the rest completes the others. -/
def Closes (result : List Node) (stack : List Frame) (args : List Node) (tokens : List Token) :
    Prop :=
  match stack with
  | [] => tokens = [] ∧ args.reverse = result
  | f :: stack => ∃ last rest, tokens = ⟨.closing, last⟩ :: rest ∧
      complete ⟨stack, .call f.name args.reverse f.doc (some (f.span.merge last)) :: f.before,
        [], none⟩ rest = .ok result

theorem opens_or_free (tokens : List Token) :
    (∃ opened rest, tokens = ⟨.opening, opened⟩ :: rest) ∨
      ∀ t ∈ tokens.head?, t.lexeme ≠ .opening := by
  rcases tokens with _ | ⟨⟨lexeme, span⟩, rest⟩
  · exact .inr (by simp)
  · cases lexeme with
    | opening => exact .inl ⟨span, rest, rfl⟩
    | _ => exact .inr (by simp)

/-- The tokens that the builder accepts are derived up to the end of the innermost open call. -/
theorem exists_derives {b : Builder} {tokens : List Token} {result : List Node}
    (h : b.complete tokens = .ok result) (settled : b.pending = none) :
    ∃ inner rest nodes, tokens = inner ++ rest ∧ Derives b.comments inner nodes ∧
      Closes result b.stack (nodes.reverse ++ b.args) rest := by
  -- after a call the builder goes on with fewer tokens on the level of that call
  induction length : tokens.length using Nat.strongRecOn generalizing b tokens with
  | ind n ih =>
    subst length
    obtain ⟨stack, args, comments, pending⟩ := b
    obtain rfl : pending = none := settled
    cases tokens with
    | nil =>
      cases stack with
      | nil => exact ⟨[], [], [], rfl, .nil comments, rfl, Except.ok.inj h⟩
      | cons f stack => cases h
    | cons token tokens =>
      obtain ⟨lexeme, span⟩ := token
      cases lexeme with
      | comment text =>
        obtain ⟨inner, rest, nodes, rfl, derived, closes⟩ :=
          ih _ (by simp) (b := ⟨stack, args, text :: comments, none⟩) h rfl rfl
        exact ⟨_ :: inner, rest, nodes, rfl, .comment text span derived, closes⟩
      | comma =>
        obtain ⟨inner, rest, nodes, rfl, derived, closes⟩ :=
          ih _ (by simp) (b := ⟨stack, args, [], none⟩) h rfl rfl
        exact ⟨_ :: inner, rest, nodes, rfl, .comma span derived, closes⟩
      | atom value =>
        obtain ⟨inner, rest, nodes, rfl, derived, closes⟩ :=
          ih _ (by simp) (b := ⟨stack, .literal value (some span) :: args, [], none⟩) h rfl rfl
        refine ⟨_ :: inner, rest, _, rfl, .literal value span derived, ?_⟩
        simpa using closes
      | opening => cases h
      | closing =>
        cases stack with
        | nil => cases h
        | cons f stack => exact ⟨[], _, [], rfl, .nil comments, span, tokens, rfl, h⟩
      | name name =>
        rcases opens_or_free tokens with ⟨opened, others, rfl⟩ | free
        · have shorter : others.length < others.length + 1 + 1 := by omega
          obtain ⟨inside, after, found, rfl, derived, last, others, rfl, completes⟩ := ih _ shorter
            (b := ⟨⟨name, span, docOf comments, args⟩ :: stack, [], [], none⟩) h rfl rfl
          obtain ⟨inner, rest, nodes, rfl, derived', closes⟩ :=
            ih _ (by simp only [List.length_cons, List.length_append]; omega) completes rfl rfl
          refine ⟨_, rest, _, ?_, .call name span opened last derived derived', ?_⟩
          · simp
          · simpa using closes
        · rw [complete_cons rfl, complete_settle _ free] at h
          obtain ⟨inner, rest, nodes, rfl, derived, closes⟩ := ih _ (by simp) h rfl rfl
          refine ⟨_ :: inner, rest, _, rfl, .var name span ?_ derived, ?_⟩
          · intro t ht
            exact free t (by simp [Option.mem_def.mp ht])
          · simpa using closes

end Builder

/-- Tokens stand for the arguments that the grammar derives from them. -/
theorem argsOfTokens_iff_derives {tokens : List Token} {args : List Node} :
    Node.argsOfTokens tokens = .ok args ↔ Derives [] tokens args := by
  rw [Node.argsOfTokens_eq_ok_iff]
  constructor
  · rintro ⟨b, fed, closed, rfl⟩
    have completes : Builder.complete {} tokens = .ok b.settled.reverse := by
      simp [Builder.complete, fed, Builder.finish, closed]
    obtain ⟨inner, rest, nodes, rfl, derived, rfl, same⟩ := Builder.exists_derives completes rfl
    simp only [List.append_nil, List.reverse_reverse] at same ⊢
    rw [← same]
    exact derived
  · intro h
    obtain ⟨b, fed, closed, settled⟩ := h.exists_feedAll {} rfl
    exact ⟨b, fed, closed, by simp [settled]⟩

/-! ### Tokens that stand for nothing -/

theorem Balance.kind_of_checkFrom {balance : Balance} {last : Option Token} {tokens : List Token}
    {fault : Fault} (h : balance.checkFrom last tokens = .error fault) :
    fault.cause.kind = "Syntax" := by
  induction tokens generalizing balance last with
  | nil =>
    rw [checkFrom] at h
    split at h
    · cases h
    · obtain rfl := Except.error.inj h
      rfl
  | cons token tokens ih =>
    rw [checkFrom] at h
    split at h
    · obtain rfl := Except.error.inj h
      rfl
    · exact ih h

namespace Builder

theorem kind_of_feed {b : Builder} {token : Token} {fault : Fault}
    (h : b.feed token = .error fault) : fault.cause.kind = "Syntax" := by
  simp only [feed] at h
  split at h
  case h_5 | h_6 =>
    split at h
    · cases h
    · obtain rfl := Except.error.inj h
      rfl
  all_goals cases h

theorem kind_of_complete {b : Builder} {tokens : List Token} {fault : Fault}
    (h : b.complete tokens = .error fault) : fault.cause.kind = "Syntax" := by
  induction tokens generalizing b with
  | nil =>
    rw [complete_nil, finish] at h
    split at h
    · cases h
    · obtain rfl := Except.error.inj h
      rfl
  | cons token tokens ih =>
    cases fed : b.feed token with
    | ok next => exact ih (by rwa [complete_cons fed] at h)
    | error fault' =>
      simp only [complete, feedAll, fed, Except.error.injEq] at h
      exact h ▸ kind_of_feed fed

end Builder

/-- Tokens that stand for no arguments have a fault of syntax. -/
theorem Node.kind_of_argsOfTokens {tokens : List Token} {fault : Fault}
    (h : argsOfTokens tokens = .error fault) : fault.cause.kind = "Syntax" := by
  cases checked : Balance.check tokens with
  | error fault' =>
    simp only [argsOfTokens, bind, Except.bind, checked, Except.error.injEq] at h
    exact h ▸ Balance.kind_of_checkFrom checked
  | ok _ =>
    have fails : Builder.complete {} tokens = .error fault := by
      simp only [argsOfTokens, bind, Except.bind, checked] at h
      rw [Builder.complete]
      cases fed : Builder.feedAll {} tokens <;> simpa [fed] using h
    exact Builder.kind_of_complete fails

end CallLang
