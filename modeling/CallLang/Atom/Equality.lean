import CallLang.Atom

/-!
# Equality of values

Two relations on values. `Atom.equals` is the equality that programs ask for: values of different
variants differ, objects are compared by type and field names, and a function equals nothing, not
even itself. `Atom.same` tells whether two values look the same, functions included.

Values that are one and the same look the same. The converse holds for values that show what they
are (`Atom.showsIdentity`), such as functions with a stamp; two lists that look the same can be one
list or two. Programs never see the difference, but it decides which bindings of a module are new.
-/

namespace CallLang

/-- Whether two lists of named things have the same names. -/
def sameNames {α β : Type} (xs : List (String × α)) (ys : List (String × β)) : Bool :=
  xs.all (fun x => (ys.lookup x.1).isSome) && ys.all (fun y => (xs.lookup y.1).isSome)

namespace Atom

mutual

/-- Equality as programs see it. -/
def equals : Atom → Atom → Bool
  | int m, int n => m == n
  | bool a, bool b => a == b
  | null, null => true
  | string s, string t => s == t
  | list xs, list ys => equalsAll xs ys
  | object t fields, object u others =>
    t == u && sameNames fields others && equalsFields fields others
  | _, _ => false

/-- Equality of lists, element by element. -/
def equalsAll : List Atom → List Atom → Bool
  | [], [] => true
  | x :: xs, y :: ys => equals x y && equalsAll xs ys
  | _, _ => false

/-- Whether each field has an equal value under the same name among `others`. -/
def equalsFields : List (String × Atom) → List (String × Atom) → Bool
  | [], _ => true
  | (name, value) :: fields, others =>
    (match others.lookup name with
      | some other => equals value other
      | none => false) &&
      equalsFields fields others

end

end Atom

mutual

/-- Whether two functions look the same: they are of one kind and have one stamp. Functions of the
language share their stamp and are told apart by what they do, unevaluated arguments that were
passed at one time by what they say and how many scopes they see. -/
def Callable.same : Callable → Callable → Bool
  | .builtin s b, .builtin t c => s == t && b == c
  | .closure s _ _ _, .closure t _ _ _ => s == t
  | .thunk s argument depth, .thunk t argument' depth' =>
    s == t && Node.same argument argument' && depth == depth'
  | .constructor s _ _ _ _, .constructor t _ _ _ _ => s == t
  | _, _ => false

/-- Whether two values look the same. -/
def Atom.same : Atom → Atom → Bool
  | .int m, .int n => m == n
  | .bool a, .bool b => a == b
  | .null, .null => true
  | .string s, .string t => s == t
  | .list xs, .list ys => Atom.sameAll xs ys
  | .object t fields, .object u others => t == u && Atom.sameFields fields others
  | .function f, .function g => Callable.same f g
  | _, _ => false

/-- Whether two lists have values that look the same. -/
def Atom.sameAll : List Atom → List Atom → Bool
  | [], [] => true
  | x :: xs, y :: ys => Atom.same x y && Atom.sameAll xs ys
  | _, _ => false

/-- Whether two lists of fields have the same names and values that look the same, in the same
order. -/
def Atom.sameFields : List (String × Atom) → List (String × Atom) → Bool
  | [], [] => true
  | (m, x) :: xs, (n, y) :: ys => m == n && Atom.same x y && Atom.sameFields xs ys
  | _, _ => false

/-- Whether two expressions say the same, wherever they are written. -/
def Node.same : Node → Node → Bool
  | .literal a _, .literal b _ => Atom.same a b
  | .var m _, .var n _ => m == n
  | .call m xs c _, .call n ys d _ => m == n && Node.sameAll xs ys && c == d
  | _, _ => false

/-- Whether two lists of expressions say the same. -/
def Node.sameAll : List Node → List Node → Bool
  | [], [] => true
  | x :: xs, y :: ys => Node.same x y && Node.sameAll xs ys
  | _, _ => false

end

mutual

theorem Callable.same_refl (f : Callable) : f.same f := by
  match f with
  | .builtin .. | .closure .. | .constructor .. => simp [Callable.same]
  | .thunk _ argument _ => simp [Callable.same, Node.same_refl argument]

/-- Every value looks the same as itself. -/
theorem Atom.same_refl (a : Atom) : a.same a := by
  match a with
  | .int _ | .bool _ | .null | .string _ => simp [Atom.same]
  | .list xs => simp [Atom.same, Atom.sameAll_refl xs]
  | .object _ fields => simp [Atom.same, Atom.sameFields_refl fields]
  | .function f => simp [Atom.same, Callable.same_refl f]

theorem Atom.sameAll_refl (xs : List Atom) : Atom.sameAll xs xs := by
  match xs with
  | [] => simp [Atom.sameAll]
  | x :: xs => simp [Atom.sameAll, Atom.same_refl x, Atom.sameAll_refl xs]

theorem Atom.sameFields_refl (fields : List (String × Atom)) : Atom.sameFields fields fields := by
  match fields with
  | [] => simp [Atom.sameFields]
  | (_, value) :: fields =>
    simp [Atom.sameFields, Atom.same_refl value, Atom.sameFields_refl fields]

theorem Node.same_refl (node : Node) : node.same node := by
  match node with
  | .literal value _ => simp [Node.same, Atom.same_refl value]
  | .var _ _ => simp [Node.same]
  | .call _ args _ _ => simp [Node.same, Node.sameAll_refl args]

theorem Node.sameAll_refl (nodes : List Node) : Node.sameAll nodes nodes := by
  match nodes with
  | [] => simp [Node.sameAll]
  | node :: nodes => simp [Node.sameAll, Node.same_refl node, Node.sameAll_refl nodes]

end

namespace Atom

/-- Whether a value is one and the same as every value that looks like it. There is one `null` and
one of each truth value, and a function has a stamp unless it is an unevaluated argument. -/
def showsIdentity : Atom → Bool
  | bool _ | null => true
  | function (.builtin ..) | function (.closure ..) | function (.constructor ..) => true
  | _ => false

/-- Whether two values are one and the same; `identical` tells it of values that look the same and
do not show it. -/
def isOne (identical : Bool) (a b : Atom) : Bool :=
  a.same b && (b.showsIdentity || identical)

end Atom

end CallLang
