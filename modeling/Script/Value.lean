/-
Values of running programs. A function is its declaration together with
the scope it was declared in; two functions are the same if both agree.
It is not enough that declarations are alike, they have to be one.

A function remembers whether it holds its scope weakly. One that is kept
in the very scope it captured does, so that the scope does not keep
itself; all others hold it strongly. No program can see the difference.
-/
import Script.Number.Text
import Script.Text.Quoted
import Script.Tree.Basic

namespace Script

/-- A scope, by its place in the order of creation. -/
abbrev ScopeId := Nat

/-- A function with the scope that it was declared in. -/
structure Closure where
  decl : FnDecl
  scope : ScopeId
  weak : Bool

namespace Closure

/-- The name that a function was declared with. -/
def name (c : Closure) : String := c.decl.name.name

/-- The number of arguments that a function takes. -/
def arity (c : Closure) : Nat := c.decl.params.length

/-- The same function, holding its scope weakly. -/
def downgrade (c : Closure) : Closure := { c with weak := true }

/-- The same function, holding its scope strongly. -/
def upgrade (c : Closure) : Closure := { c with weak := false }

/-- Whether two functions are the same: one declaration, one scope. -/
def same (a b : Closure) : Bool :=
  a.decl.same b.decl && a.scope == b.scope

/-- A function as a record of its name and arity. -/
def describe (c : Closure) : String :=
  "Closure \x7b name: " ++ Text.quoted c.name ++ ", arity: "
    ++ toString c.arity ++ " \x7d"

end Closure

/-- The types of values. -/
inductive ValueType where
  | number | string | bool | nil | function
deriving DecidableEq, Repr

/-- The word for a type. -/
def ValueType.text : ValueType → String
  | .number => "number"
  | .string => "string"
  | .bool => "bool"
  | .nil => "nil"
  | .function => "function"

/-- A value. -/
inductive Value where
  | number (x : Float)
  | string (s : String)
  | bool (b : Bool)
  | nil
  | function (c : Closure)

namespace Value

/-- The type of a value. -/
def type : Value → ValueType
  | .number _ => .number
  | .string _ => .string
  | .bool _ => .bool
  | .nil => .nil
  | .function _ => .function

/-- A value as programs print it. -/
def text : Value → String
  | .number x => Number.text x
  | .string s => s
  | .bool b => if b then "true" else "false"
  | .nil => "nil"
  | .function c => "<fn " ++ c.name ++ ">"

/-- Whether a value is nil. -/
def isNil : Value → Bool
  | .nil => true
  | _ => false

/-- Whether programs take two values for equal. Values of different
types never are. -/
def same : Value → Value → Bool
  | .number x, .number y => x == y
  | .string s, .string t => s == t
  | .bool a, .bool b => a == b
  | .nil, .nil => true
  | .function a, .function b => a.same b
  | _, _ => false

/-- A value as it is kept in a scope: a function that captured this
scope holds it weakly. -/
def keptIn (scope : ScopeId) : Value → Value
  | .function c =>
      if !c.weak && c.scope == scope then .function c.downgrade
      else .function c
  | v => v

/-- A value as it is handed out of a scope: functions hold their scope
strongly. -/
def handedOut : Value → Value
  | .function c => .function c.upgrade
  | v => v

/-- Whether a value is a function that holds its scope weakly. -/
def isWeak : Value → Bool
  | .function c => c.weak
  | _ => false

/-- A function that is not yet kept anywhere comes back as it was. -/
theorem handedOut_keptIn (scope : ScopeId) (v : Value) :
    (v.keptIn scope).handedOut = v.handedOut := by
  cases v with
  | function c =>
    simp only [keptIn]
    split <;> rfl
  | _ => rfl

/-- Being kept changes no comparison. -/
@[simp] theorem same_keptIn (scope : ScopeId) (v w : Value) :
    (v.keptIn scope).same w = v.same w := by
  cases v with
  | function c =>
    simp only [keptIn]
    split <;> cases w <;> rfl
  | _ => rfl

@[simp] theorem type_keptIn (scope : ScopeId) (v : Value) :
    (v.keptIn scope).type = v.type := by
  cases v with
  | function c =>
    simp only [keptIn]
    split <;> rfl
  | _ => rfl

end Value

end Script
