/-
From trees to code, in one pass. The code of an expression leaves its
value on the stack, the code of a statement leaves the stack as it was.
Code is put together from that of the parts, told where in its function
it starts, so that jumps know their targets when they are made.

The functions at the top of a program are bound before its first
statement, and their bodies come last, when all globals are known. The
body of any other function comes where it is declared, and knows the
names declared so far. The first error ends everything.
-/
import Script.Code.Basic
import Script.Code.Literal
import Script.Code.Symbols

namespace Script.Code

/-- What is collected while code is made. -/
structure Emission where
  symbols : Symbols
  constants : Array Constant
  functions : Array Function
  warnings : Array Diagnostic

/-- Making a piece of code. -/
abbrev Emit := EStateM Diagnostic Emission

-- =============================================================== pieces

/-- Ends with an error. -/
def refuse (f : Fault) (span : Span) : Emit α := throw (f.report.at span)

/-- Ends with an error if there is a fault. -/
def refuseAny (span : Span) : Option OperandFault → Emit Unit
  | some f => refuse (.operands f) span
  | none => pure ()

/-- Changes the symbol table. -/
def onSymbols (f : Symbols → Symbols) : Emit Unit :=
  modify fun s => { s with symbols := f s.symbols }

/-- Pushes a constant; equal constants share a place in the pool. -/
def push (c : Constant) : Emit (List Instr) :=
  modifyGet fun s =>
    match s.constants.idxOf? c with
    | some index => ([.pushConst index], s)
    | none =>
        ([.pushConst s.constants.size],
          { s with constants := s.constants.push c })

/-- Gives a name a slot. -/
def declare (name : String) : Emit Symbol :=
  modifyGet fun s =>
    let (symbol, symbols) := s.symbols.declare name
    (symbol, { s with symbols })

/-- What a name means. -/
def resolve (name : String) (span : Span) : Emit Symbol := do
  match (← get).symbols.resolve? name with
  | some .captured => refuse (.captured name) span
  | some symbol => return symbol
  | none => refuse (.undefined name) span

/-- Pushes the value of a variable. -/
def load : Symbol → List Instr
  | .global slot => [.loadGlobal slot]
  | .own slot => [.loadLocal slot]
  | .captured => []

/-- Pops a value into a variable. -/
def store : Symbol → List Instr
  | .global slot => [.storeGlobal slot]
  | .own slot => [.storeLocal slot]
  | .captured => []

/-- Reserves a place for a function whose body is still to come. -/
def reserve (d : FnDecl) : Emit Nat :=
  modifyGet fun s =>
    (s.functions.size,
      { s with functions :=
          s.functions.push ⟨d.name.name, d.params.length, [], []⟩ })

/-- Fills the place of a function. -/
def fill (index : Nat) (locals : List String) (code : List Instr) :
    Emit Unit :=
  modify fun s =>
    { s with functions :=
        s.functions.modify index fun f => { f with locals, code } }

/-- Warns of a statement behind a return. -/
def warnUnreachable (span : Span) : Emit Unit :=
  modify fun s =>
    { s with warnings := s.warnings.push (Fault.unreachable.report.at span) }

-- ========================================================== expressions

mutual

/-- The code of an expression that starts at a place. -/
def exprCode (start : Nat) : Expr → Emit (List Instr)
  | .number _ x => push (.number x)
  | .string _ s => push (.string s)
  | .bool _ b => push (.bool b)
  | .nil _ => push .nil
  | .ident span name => return load (← resolve name span)
  | .group _ inner => exprCode start inner
  | .unary span op operand => do
      refuseAny span (unaryFault? op operand)
      return (← exprCode start operand) ++ [.unary op]
  | .binary _ .and l r => do
      let left ← exprCode start l
      let behindBranch := start + left.length + 1
      let right ← exprCode behindBranch r
      let isFalse := behindBranch + right.length + 1
      let constant ← push (.bool false)
      return left ++ .jumpIfFalse isFalse :: right
        ++ .jump (isFalse + 1) :: constant
  | .binary _ .or l r => do
      let left ← exprCode start l
      let behindBranch := start + left.length + 1
      let constant ← push (.bool true)
      let isFalse := behindBranch + 2
      let right ← exprCode isFalse r
      return left ++ .jumpIfFalse isFalse :: constant
        ++ .jump (isFalse + right.length) :: right
  | .binary span op l r => do
      refuseAny span (binaryFault? op l r)
      let left ← exprCode start l
      let right ← exprCode (start + left.length) r
      return left ++ right ++ [.binary op]
  | .assign _ target value => do
      let code ← exprCode start value
      let symbol ← resolve target.name target.span
      return code ++ store symbol ++ load symbol
  | .call _ callee args => do
      if callee.isLiteral then refuse .literalCall callee.span
      let function ← exprCode start callee
      let arguments ← argumentCode (start + function.length) args
      return function ++ arguments ++ [.call args.length]

/-- The code of the arguments of a call. -/
def argumentCode (start : Nat) : List Expr → Emit (List Instr)
  | [] => return []
  | e :: es => do
      let code ← exprCode start e
      return code ++ (← argumentCode (start + code.length) es)

end

-- =========================================================== statements

/-- The code of an initial value or a result; nil if it is left out. -/
def optionalCode (start : Nat) : Option Expr → Emit (List Instr)
  | some e => exprCode start e
  | none => push .nil

/-- Binds a function to its name. -/
def bindFunction (symbol : Symbol) (index : Nat) : List Instr :=
  .makeFunction index :: store symbol

mutual

/-- The code of a statement that starts at a place. -/
def stmtCode (start : Nat) : Stmt → Emit (List Instr)
  | .declare _ name init => do
      let code ← optionalCode start init
      return code ++ store (← declare name.name)
  | .function d => do
      let symbol ← declare d.name.name
      let index ← reserve d
      functionCode index d
      return bindFunction symbol index
  | .expression _ e => return (← exprCode start e) ++ [.pop]
  | .block b => blockCode start b
  | .branch _ cond thenPart elsePart => do
      let test ← exprCode start cond
      let behindBranch := start + test.length + 1
      let yes ← blockCode behindBranch thenPart
      match elsePart with
      | none =>
          return test ++ .jumpIfFalse (behindBranch + yes.length) :: yes
      | some s =>
          let isFalse := behindBranch + yes.length + 1
          let no ← stmtCode isFalse s
          return test ++ .jumpIfFalse isFalse :: yes
            ++ .jump (isFalse + no.length) :: no
  | .loop _ cond body => do
      let test ← exprCode start cond
      let behindBranch := start + test.length + 1
      let code ← blockCode behindBranch body
      return test ++ .jumpIfFalse (behindBranch + code.length + 1) :: code
        ++ [.jump start]
  | .giveBack _ value => return (← optionalCode start value) ++ [.leave]
  | .print _ e => return (← exprCode start e) ++ [.print]
  | .empty _ => return []

/-- The code of a block. -/
def blockCode (start : Nat) : Block → Emit (List Instr)
  | ⟨statements, _⟩ => do
      onSymbols .openBlock
      let code ← statementCode start false false statements
      onSymbols .closeBlock
      return code

/-- Makes the code of a function and fills its place. -/
def functionCode (index : Nat) : FnDecl → Emit Unit
  | ⟨_, params, ⟨statements, _⟩, _⟩ => do
      onSymbols .openFrame
      params.forM fun p => discard (declare p.name)
      let code ← statementCode 0 false false statements
      let result ← push .nil
      let locals := (← get).symbols.closeFrame.1
      onSymbols fun s => s.closeFrame.2
      fill index locals (code ++ result ++ [.leave])

/-- The code of statements in order. Behind a return, the first
statement that is not empty gets a warning: `returned` says whether
there was a return, `warned` whether there was the warning. -/
def statementCode (start : Nat) (returned warned : Bool) :
    List Stmt → Emit (List Instr)
  | [] => return []
  | s :: ss => do
      let warn := returned && !warned && !s.isEmpty
      if warn then warnUnreachable s.span
      let code ← stmtCode start s
      return code ++ (← statementCode (start + code.length)
        (returned || s.isGiveBack) (warned || warn) ss)

end

-- ============================================================= programs

/-- Binds the functions at the top of a program, and yields the places
of their bodies. -/
def hoist : List FnDecl → Emit (List Instr × List (Nat × FnDecl))
  | [] => return ([], [])
  | d :: ds => do
      let symbol ← declare d.name.name
      let index ← reserve d
      let (code, bodies) ← hoist ds
      return (bindFunction symbol index ++ code, (index, d) :: bodies)

/-- The code of the statements at the top of a program, its result
included: the value of the last statement, if that is an expression, and
nil otherwise. -/
def topLevelCode (start : Nat) : List Stmt → Emit (List Instr)
  | [] => push .nil
  | [.expression _ e] => exprCode start e
  | .function _ :: ss => topLevelCode start ss
  | s :: ss => do
      let code ← stmtCode start s
      return code ++ (← topLevelCode (start + code.length) ss)

/-- Makes the code of a program. -/
def programCode (p : Program) : Emit Unit := do
  let (bound, bodies) ← hoist p.functions
  let code ← topLevelCode bound.length p.statements
  fill 0 [] (bound ++ code ++ [.leave])
  bodies.forM fun (index, d) => functionCode index d

/-- Before the first statement: nothing but an empty main function. -/
def Emission.start : Emission :=
  ⟨.empty, #[], #[⟨mainName, 0, [], []⟩], #[]⟩

/-- The code of a program, unless there is an error, and what is to be
said about the program: warnings, then the error. -/
def ofProgram (p : Program) : Option Code × List Diagnostic :=
  match programCode p .start with
  | .ok () s =>
      (some ⟨s.constants.toList, s.symbols.globals, s.functions.toList⟩,
        s.warnings.toList)
  | .error d s => (none, s.warnings.toList ++ [d])

end Script.Code
