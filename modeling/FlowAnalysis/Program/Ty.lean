/-!
# Declared types

A variable of a method body is declared with one of the built-in types or with a class.  The
analyses ask one question of a type: whether a variable declared with it holds a 32-bit integer.

## Main definitions

- `Ty` — the declared types
- `Ty.name` — how a type is written
- `Ty.holdsInt` — whether a variable of the type holds a 32-bit integer
-/

namespace FlowAnalysis

/-- A declared type: a built-in one, or a reference to an object of a named class.  A class that
happens to be called `int` is not the type `int`, although both are written alike. -/
inductive Ty where
  | byte
  | short
  | int
  | char
  | boolean
  | long
  | float
  | double
  | void
  | reference (className : String)
  deriving DecidableEq

namespace Ty

/-- How a type is written; a reference is written as its class. -/
def name : Ty → String
  | byte => "byte"
  | short => "short"
  | int => "int"
  | char => "char"
  | boolean => "boolean"
  | long => "long"
  | float => "float"
  | double => "double"
  | void => "void"
  | reference className => className

/-- Whether the type is `void`, the type of no value. -/
def isVoid : Ty → Bool
  | void => true
  | _ => false

def isReference : Ty → Bool
  | reference _ => true
  | _ => false

/-- The built-in types of values: neither `void` nor a reference. -/
def isPrimitive (t : Ty) : Bool := !t.isVoid && !t.isReference

/-- Whether a variable of this type holds a 32-bit integer: `int` itself and the four narrower
types, which are computed with as integers. -/
def holdsInt : Ty → Bool
  | byte | short | int | char | boolean => true
  | long | float | double | void | reference _ => false

end Ty

end FlowAnalysis
