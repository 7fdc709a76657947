import CallLang.Builtin.Doc

/-!
# Embedded modules

Modules that are part of the language and written in it. The prelude is imported into every program;
the others are imported by name. They run without the prelude, so they use builtins only.
-/

namespace CallLang.Embedded

/-- The name of the module that every program imports. -/
def preludeName : String := "prelude"

/-- Functions for every program. -/
def prelude : String :=
  lines [
    "# Evaluates both arguments and returns whether they are not equal.",
    "def(!=, lhs, rhs, !(==(lhs, rhs))),",
    "",
    "# Returns a list of the integers from start (inclusive) up to end (exclusive).",
    "def(range, start, end, _(",
    "    =(result, list()),",
    "    =(i, start),",
    "    while(<(i, end), _(",
    "        =(result, append(result, i)),",
    "        =(i, +(i, 1)),",
    "    )),",
    "    result,",
    ")),",
    "",
    "# Calls f with every element of seq and returns the list of the results.",
    "def(map, seq, f, _(",
    "    =(result, list()),",
    "    for_in(seq, element, =(result, append(result, f(element)))),",
    "    result,",
    ")),",
    "",
    "# Returns the list of the elements of seq for which f returns true.",
    "def(filter, seq, f, _(",
    "    =(result, list()),",
    "    for_in(seq, element, if(f(element), =(result, append(result, element)))),",
    "    result,",
    ")),",
    "",
    "# Returns the sum of all integers in seq.",
    "def(sum, seq, _(",
    "    =(total, 0),",
    "    for_in(seq, element, =(total, +(total, element))),",
    "    total,",
    ")),",
    ""]

/-- Functions on integers. -/
def math : String :=
  lines [
    "# Returns the absolute value of n.",
    "def(abs, n, ifelse(<(n, 0), -(0, n), n)),",
    "",
    "# Returns the smaller one of two integers.",
    "def(min, lhs, rhs, ifelse(<(rhs, lhs), rhs, lhs)),",
    "",
    "# Returns the greater one of two integers.",
    "def(max, lhs, rhs, ifelse(>(rhs, lhs), rhs, lhs)),",
    "",
    "# Raises base to the power of exp, which must not be negative.",
    "def(pow, base, exp, _(",
    "    if(<(exp, 0), error(\"Argument\", \"negative exponent passed to `pow`\")),",
    "    =(result, 1),",
    "    while(>(exp, 0), _(",
    "        =(result, *(result, base)),",
    "        =(exp, -(exp, 1)),",
    "    )),",
    "    result,",
    ")),",
    ""]

/-- Functions on strings. -/
def strings : String :=
  lines [
    "# Concatenates the strings in parts, putting sep between every two of them.",
    "def(join, parts, sep, _(",
    "    =(result, \"\"),",
    "    =(first, true),",
    "    for_in(parts, part, _(",
    "        if(!(first), =(result, strconcat(result, sep))),",
    "        =(result, strconcat(result, part)),",
    "        =(first, false),",
    "    )),",
    "    result,",
    ")),",
    "",
    "# Returns the string s repeated n times.",
    "def(repeat, s, n, _(",
    "    =(result, \"\"),",
    "    while(>(n, 0), _(",
    "        =(result, strconcat(result, s)),",
    "        =(n, -(n, 1)),",
    "    )),",
    "    result,",
    ")),",
    ""]

/-- The text of an embedded module. -/
def text? (name : String) : Option String :=
  if name = preludeName then some prelude
  else if name = "math" then some math
  else if name = "strings" then some strings
  else none

end CallLang.Embedded
