import Flipbook.Number.Single

/-!
# Expr/Environment — the names an expression may use

Variables are positional: the n-th declared name is variable n, and a name declared again keeps its
first position.  Of several constants with one name the last counts.
-/

namespace Flipbook.Expr

/-- The variables, in order of declaration, and the constants, the latest first. -/
structure Environment where
  vars : List String := []
  constants : List (String × Single) := []
deriving Repr

/-- The constants known by default. -/
def defaultConstants : List (String × Single) := [("PI", ⟨0x40490fdb⟩)]

namespace Environment

/-- The environment without names. -/
def empty : Environment := {}

/-- The environment with one more variable, unless its name is declared already. -/
def declare (env : Environment) (name : String) : Environment :=
  if name ∈ env.vars then env else { env with vars := env.vars ++ [name] }

/-- The environment with one more constant, which hides earlier ones of its name. -/
def constant (env : Environment) (name : String) (value : Single) : Environment :=
  { env with constants := (name, value) :: env.constants }

/-- The environment that declares some variables in order. -/
def ofVariables (names : List String) : Environment := names.foldl declare empty

/-- The environment with further constants, in order. -/
def withConstants (env : Environment) (constants : List (String × Single)) : Environment :=
  constants.foldl (fun env c => env.constant c.1 c.2) env

/-- The position of a variable. -/
def variableIndex? (env : Environment) (name : String) : Option Nat :=
  env.vars.idxOf? name

/-- The value of a constant. -/
def constantValue? (env : Environment) (name : String) : Option Single :=
  env.constants.lookup name

/-- The number of variables. -/
def variableCount (env : Environment) : Nat := env.vars.length

end Environment

end Flipbook.Expr
