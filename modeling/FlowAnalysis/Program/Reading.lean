import FlowAnalysis.Names
import FlowAnalysis.Program.Stmt

/-!
# Reading expressions and statements

Expressions and statements are read back from their text, as far as it tells what they are.  It does
not tell the type that a field is declared with, for which `void` is read, nor whether a call is an
assignment, for which a call statement is read.

## Main definitions

- `Ty.ofName`, `BinaryOp.ofSymbol?` — types and operators by the way they are written
- `Expr.read?`, `Stmt.read?` — the expression and the statement that a text stands for

## Design notes

What an expression is shows at its first character, or else at the first one behind the word that it
starts with.  A statement shows at the word that it starts with; if that is none of the words that
only statements start with, it is a definition, and a place stands in front of it if an equals sign
between blanks follows.
-/

namespace FlowAnalysis

namespace Ty

def builtIn : List Ty := [byte, short, int, char, boolean, long, float, double, void]

/-- The type that is written in a given way: a built-in one, or else a class. -/
def ofName (s : String) : Ty := (builtIn.find? (·.name = s)).getD (reference s)

end Ty

namespace BinaryOp

def all : List BinaryOp :=
  [arith .add, arith .sub, arith .mul, arith .div, arith .rem,
    cond .eq, cond .ne, cond .lt, cond .gt, cond .le, cond .ge,
    shift .left, shift .right, shift .rightZero, bit .or, bit .and, bit .xor,
    cmp .cmp, cmp .cmpl, cmp .cmpg]

/-- The operator that is written in a given way. -/
def ofSymbol? (s : String) : Option BinaryOp := all.find? (·.symbol = s)

end BinaryOp

def startsWithDigit (cs : List Char) : Bool := cs.head?.any Char.isDigit

namespace Expr

/-- A literal, which is wide if it ends in `L`. -/
def readLiteral (cs : List Char) : Expr String :=
  if cs.getLast? = some 'L' then long (Int64.ofInt (readInt cs.dropLast))
  else int (Int32.ofInt (readInt cs))

/-- A cast, behind the parenthesis that it starts with. -/
def readCast (cs : List Char) : Expr String :=
  cast (Ty.ofName (String.ofList (cs.takeWhile (· ≠ ')'))))
    (String.ofList ((cs.dropWhile (· ≠ ')')).drop 2))

/-- An expression that starts with a name, by what follows the name. -/
def readNamed? (name : String) : List Char → Option (Expr String)
  | [] => some (var name)
  | '.' :: cs => some (field ⟨name, String.ofList cs, .void⟩)
  | '(' :: cs => some (invoke ⟨name, pieces (cs.dropLast.filter (· ≠ ' '))⟩)
  | ' ' :: cs =>
    (BinaryOp.ofSymbol? (String.ofList (cs.takeWhile (· ≠ ' ')))).map fun op =>
      binary op name (String.ofList (cs.dropWhile (· ≠ ' ')).tail)
  | _ => none

/-- The expression that a text stands for. -/
def read? (cs : List Char) : Option (Expr String) :=
  if startsWithDigit cs then some (readLiteral cs) else
  match cs with
  | '(' :: ds => some (readCast ds)
  | '-' :: ds => some (if startsWithDigit ds then readLiteral cs else neg (String.ofList ds))
  | _ => readNamed? (word cs) (afterWord cs)

end Expr

namespace Stmt

/-- The target of a jump, which a question mark stands for while there is none. -/
def readTarget (cs : List Char) : Option StmtId :=
  if cs = ['?'] then none else some (Nat.ofDigitChars 10 cs 0)

/-- The place that a definition writes to, if it stands in front, and what follows it. -/
def readPlace (cs : List Char) : Option (Place String) × List Char :=
  match afterWord cs with
  | ' ' :: '=' :: ' ' :: ds => (some (.var (word cs)), ds)
  | '.' :: ds =>
    match afterWord ds with
    | ' ' :: '=' :: ' ' :: rest => (some (.field ⟨word cs, word ds, .void⟩), rest)
    | _ => (none, cs)
  | _ => (none, cs)

/-- The statement that makes a definition. -/
def ofDefinition? : Definition String → Option (Stmt String)
  | ⟨none, .invoke c⟩ => some (call none c)
  | ⟨none, e⟩ => some (assign none e)
  | ⟨some (.var v), .invoke c⟩ => some (call (some v) c)
  | ⟨some (.var v), e⟩ => some (assign (some v) e)
  | ⟨some (.field r), .var v⟩ => some (store r v)
  | ⟨some (.field _), _⟩ => none

def readDefinition? (cs : List Char) : Option (Stmt String) :=
  (Expr.read? (readPlace cs).2).bind fun e => ofDefinition? ⟨(readPlace cs).1, e⟩

/-- A branch, behind the parenthesis that its condition starts with. -/
def readBranch? (cs : List Char) : Option (Stmt String) :=
  match Expr.read? (cs.takeWhile (· ≠ ')')) with
  | some (.binary (.cond op) a b) =>
    some (branch ⟨op, a, b⟩ (readTarget ((cs.dropWhile (· ≠ ')')).drop ") goto ".length)))
  | _ => none

/-- The statement that a text stands for; the last character, a semicolon, is not looked at. -/
def read? (cs : List Char) : Option (Stmt String) :=
  let body := cs.dropLast
  let rest := afterWord body
  if word body = "nop" then some nop
  else if word body = "return" then some (ret (if rest = [] then none else String.ofList rest.tail))
  else if word body = "goto" then some (jump (readTarget rest.tail))
  else if word body = "if" then readBranch? (rest.drop 2)
  else readDefinition? body

end Stmt

end FlowAnalysis
