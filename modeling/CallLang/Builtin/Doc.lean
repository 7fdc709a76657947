import CallLang.Builtin

/-!
# Documentation of the builtins

The texts that a program reads with `doc`.
-/

namespace CallLang

/-- A text of several lines. -/
def lines (ls : List String) : String :=
  "\n".intercalate ls

/-- What the builtin does, as its users read it. -/
def Nullary.doc : Nullary → String
  | .input =>
    lines [
      "Takes no arguments and reads from stdin until a newline is entered.",
      "Returns the read input, excluding the newline, as a string."]
  | .now =>
    "Returns the current time in seconds (Unix epoch) as an integer."
  | .nowNanosPart =>
    "Returns the nanosecond part of the current time as an integer."

/-- What the builtin does, as its users read it. -/
def Unary.doc : Unary → String
  | .not =>
    lines [
      "Evaluates the argument as a boolean and performs NOT on it.",
      "",
      "This function has an alias: `not`."]
  | .toInt =>
    lines [
      "Converts the given integer, boolean or string into an integer.",
      "Booleans become 0 or 1. Strings must contain a decimal integer, otherwise an " ++
        "exception is raised."]
  | .toString =>
    lines [
      "Converts the given integer, boolean, null or string into a string.",
      "Unlike `printable`, lists, objects and functions cannot be converted and cause an " ++
        "exception."]
  | .toBool =>
    lines [
      "Converts the given boolean, integer or string into a boolean.",
      "Integers are true unless they are 0. Strings must be \"true\" or \"false\"."]
  | .printable =>
    lines [
      "Evaluates the given arg and returns a string representation of it.",
      "Unlike `string`, this works for every value. Note that the exact output format is not " ++
        "stable.",
      "",
      "This is identical to the output of `write`."]
  | .length =>
    "Returns the length of the given list or string argument."
  | .docOf =>
    "Returns the documentation string of a function."
  | .argcOf =>
    "Returns the argument count of a function, or `null` if it takes any number of arguments."
  | .typeIdOf =>
    lines [
      "Returns the type id corresponding to the given value.",
      "",
      "A type id is a non-negative integer. Primitive types are currently represented with " ++
        "these ids (note that this",
      "may change at any point):",
      "",
      "* Int: 0",
      "* Bool: 1",
      "* Null: 2",
      "* List: 3",
      "* String: 4",
      "* Function: 5",
      "* Object: 6+ (depending on the type of object)."]
  | .assert =>
    "Evaluates the argument as a boolean and raises an exception if it is false."
  | .recover =>
    lines [
      "Evaluates the given value and returns it.",
      "If an exception occurs while evaluating the argument, the exception is converted into " ++
        "a string and returned",
      "instead."]
  | .exit =>
    lines [
      "Evaluates the given argument and terminates the program directly.",
      "The program will return the given value as its final result.",
      "",
      "Even if the argument causes an exception, it is returned directly too.",
      "",
      "If `exit` is reached via an `import`-ed module, it will stop the main program too."]
  | .eval =>
    lines [
      "Evaluates the given argument as a string, then treats this string as regulus code and " ++
        "executes it.",
      "Returns the result of that program.",
      "",
      "Variables defined inside the evaluated code are not visible outside of the `eval` " ++
        "invocation, but assignments to",
      "globals are. Only modules of the standard library can be imported from it."]
  | .global =>
    lines [
      "Marks a variable identifier as global: it can be read and assigned from within every " ++
        "function afterwards.",
      "",
      "This does not require the identifier to be defined at this time."]
  | .importModule =>
    lines [
      "Imports a module and returns what it evaluated to.",
      "",
      "The argument is the bare module name. The module is looked up as `NAME.re` in the " ++
        "directory of the current file",
      "first and in the standard library second. All top-level definitions of the module " ++
        "become visible afterwards."]
  | .write =>
    lines [
      "Evaluates the given argument and prints it to stdout, without any additional spaces " ++
        "or newline."]
  | .printFault =>
    lines [
      "Evaluates the given argument, which must cause an exception, and prints that " ++
        "exception to stderr.",
      "Not meant to be used outside of tests."]

/-- What the builtin does, as its users read it. -/
def Arith.doc : Arith → String
  | .add =>
    lines [
      "Adds the two given integers and returns the result, causing an exception in case of " ++
        "overflow."]
  | .sub =>
    lines [
      "Subtracts the two given integers and returns the result, causing an exception in case " ++
        "of overflow."]
  | .mul =>
    lines [
      "Multiplies the two given integers and returns the result, causing an exception in " ++
        "case of overflow."]
  | .div =>
    lines [
      "Divides the two given integers, rounding toward zero, and returns the result.",
      "Causes an exception in case of division by zero or overflow."]
  | .rem =>
    lines [
      "Calculates the remainder of the two given integers and returns the result. The result " ++
        "has the sign of the",
      "first integer. Causes an exception in case of division by zero."]
  | .shl =>
    lines [
      "Shifts the first integer to the left by the second amount of bits. Bits shifted out " ++
        "are lost.",
      "Causes an exception if the shift amount is negative or not smaller than 64."]
  | .shr =>
    lines [
      "Shifts the first integer to the right by the second amount of bits, keeping its sign.",
      "Causes an exception if the shift amount is negative or not smaller than 64."]
  | .xor =>
    "Evaluates both arguments as integers and performs bitwise XOR."

/-- What the builtin does, as its users read it. -/
def Comparison.doc : Comparison → String
  | .lt =>
    "Evaluates both arguments as integers and checks if the left is less than the right."
  | .le =>
    lines [
      "Evaluates both arguments as integers and checks if the left is less than or equal to " ++
        "the right."]
  | .gt =>
    "Evaluates both arguments as integers and checks if the left is greater than the right."
  | .ge =>
    lines [
      "Evaluates both arguments as integers and checks if the left is greater than or equal " ++
        "to the right."]

/-- What the builtin does, as its users read it. -/
def Binary.doc : Binary → String
  | .arith op => op.doc
  | .compare op => op.doc
  | .or =>
    lines [
      "Evaluates both arguments as booleans and performs short-circuiting OR on them.",
      "",
      "This function has an alias: `or`."]
  | .and =>
    lines [
      "Evaluates both arguments as booleans and performs short-circuiting AND on them.",
      "",
      "This function has an alias: `and`."]
  | .equals =>
    lines [
      "Evaluates both arguments and returns whether they are equal.",
      "",
      "Values of different types are never equal, and functions are not even equal to " ++
        "themselves.",
      "",
      "This function has an alias: `equals`."]
  | .assertEq =>
    "Evaluates both arguments and raises an exception if they are not equal."
  | .assign =>
    lines [
      "Assigns the second argument to a variable named like the first argument.",
      "",
      "This function has an alias: `assign`."]
  | .when =>
    lines [
      "Evaluates the first argument as a boolean.",
      "If it evaluates to true, the second argument is evaluated and returned.",
      "If it evaluates to false, the second argument is ignored and `null` is returned."]
  | .loop =>
    lines [
      "Repeatedly evaluates the first argument as a boolean.",
      "If it evaluates to true, the second argument is evaluated and the same steps begin " ++
        "again.",
      "If it evaluates to false, the loop ends and `null` is returned."]
  | .raise =>
    lines [
      "Raises an exception.",
      "The first argument is a string that describes the error kind.",
      "The second argument is a string error message.",
      "",
      "The error kind should be a capitalized word.",
      "When displaying the error kind, `Error` will be appended implicitly, so the error " ++
        "kind given here should not end",
      "in `Error`, `Exception` or similar."]
  | .index =>
    lines [
      "Returns the value in the first list or string argument at the second integer argument.",
      "Raises an exception if the index is out of bounds."]
  | .append =>
    lines [
      "Appends the second argument at the back of the list given as first argument and " ++
        "returns the new list.",
      "Alternatively, if the first argument is a string and the second is too, a new " ++
        "concatenated string will be",
      "returned."]
  | .removeAt =>
    lines [
      "Removes the element at the given list index.",
      "The first argument is the list, the second the index.",
      "If the index is out of bounds, an exception is raised.",
      "If the first argument is a string instead, the single character at that position will " ++
        "be removed.",
      "",
      "Returns the updated sequence."]
  | .getField =>
    lines [
      "Gets the value of a field of an object.",
      "",
      "The first argument is the object, the second is the field name as a variable.",
      "If the field does not exist on the object, an exception is raised.",
      "",
      "This function has an alias: `getattr`."]

/-- What the builtin does, as its users read it. -/
def Ternary.doc : Ternary → String
  | .choose =>
    lines [
      "Evaluates the first argument as a boolean.",
      "If it evaluates to true, the second argument is evaluated and returned.",
      "If it evaluates to false, the third argument is evaluated and returned instead."]
  | .replaceAt =>
    lines [
      "Replaces an element at a list index with another.",
      "The first argument is the list, the second the index and the third the new value.",
      "If the index is out of bounds, an exception is raised.",
      "If the first argument is a string instead, the new value must be a single character, " ++
        "otherwise an exception will",
      "be raised."]
  | .forEach =>
    lines [
      "Iterates over the given list elements or string characters.",
      "The first argument is the sequence, the second the loop variable name for each " ++
        "element and the third is the",
      "body that will be run for each of these elements.",
      "Afterwards, `null` is returned."]
  | .setField =>
    lines [
      "Sets the value of a field of an object to a new value and returns the updated object. " ++
        "The original object is",
      "left unchanged.",
      "",
      "The first argument is the object, the second is the field name as a variable and the " ++
        "third is the new value.",
      "If the field does not exist on the object, an exception is raised.",
      "",
      "This function has an alias: `setattr`."]

/-- What the builtin does, as its users read it. -/
def Variadic.doc : Variadic → String
  | .sequence =>
    lines [
      "Evaluates all given arguments and returns the atom the last argument evaluated to.",
      "If no arguments are given, `null` is returned.",
      "",
      "Every program is implicitly wrapped in a call to this function.",
      "",
      "This function has an alias: `run`."]
  | .define =>
    lines [
      "Defines a new function.",
      "The first argument is the function identifier and the last argument is the function " ++
        "body.",
      "All arguments in between are the names of the function parameters that can be " ++
        "accessed in the function body.",
      "Values defined in the function are scoped and cannot be accessed outside of the " ++
        "function body.",
      "",
      "A parameter written as `$name` is lazy: it is bound to a function without arguments " ++
        "that evaluates the",
      "argument expression each time it is called. A parameter written as `[name]` must come " ++
        "last and collects all",
      "remaining arguments into a list.",
      "",
      "Comments directly before the `def` call become the doc string of the function."]
  | .lambda =>
    lines [
      "Creates a new function and returns it.",
      "",
      "The last argument is the function body.",
      "All arguments before are the names of the function parameters that can be accessed in " ++
        "the function body (see",
      "`def` for lazy and variadic parameters).",
      "Values defined in the function are scoped and cannot be accessed outside of the " ++
        "function body."]
  | .list =>
    "Evaluates all arguments and returns them as a list."
  | .concat =>
    lines [
      "Concatenates any number of strings into one and returns it.",
      "Other values are not implicitly cast and cause an exception."]
  | .print =>
    lines [
      "Evaluates all arguments and prints them to stdout, separated by spaces and followed " ++
        "by a newline."]
  | .newType =>
    lines [
      "Defines a new type.",
      "The first argument must be given and is the identifier of the type.",
      "All further arguments are its fields or its defaulted values.",
      "",
      "If the argument is just an identifier, it is a field.",
      "If it is a function call of the form `=(name, value)` (this must be `=` and not " ++
        "`assign`), this adds a field",
      "`name` which has the value `value` by default. Accordingly, this value can not be set " ++
        "in the constructor.",
      "",
      "Methods can be added by using the defaulted value syntax as `=(method_name, fn(self, " ++
        "arg1, function_body()))`.",
      "",
      "The identifier is bound to the constructor, which takes one argument per field " ++
        "without default."]
  | .callMethod =>
    lines [
      "Calls a method on an object with the given arguments.",
      "The object itself is implicitly added as the first argument to the method.",
      "",
      "The first argument is the object, the second the name of the method and all further " ++
        "arguments are the",
      "arguments to the method.",
      "",
      "This function has an alias: `call_method`."]

/-- The documentation of the builtin. -/
def Builtin.doc : Builtin → String
  | nullary op => op.doc
  | unary op => op.doc
  | binary op => op.doc
  | ternary op => op.doc
  | variadic op => op.doc

end CallLang
