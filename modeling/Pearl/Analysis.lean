import Pearl.Constant.Collect
import Pearl.Typing.Infer

/-! # Analysis of a unit -/

namespace Pearl

/-- The pool of a tree, after 0, 1 and -1 at the precision of the language. -/
def Pool.ofTree (table : SymbolTable) (tree : Tree) : Except Halt Pool :=
  Pool.ofProgram table tree.program

/-- The types of the expressions of a tree. -/
def TypingTable.ofTree (table : SymbolTable) (tree : Tree) : Except Halt TypingTable :=
  TypingTable.ofProgram table tree.exprs.size tree.program

/-- The constants of a unit and the types of its expressions. -/
structure Analysis where
  pool : Pool
  expressions : TypingTable
deriving Repr

namespace Analysis

def toJson (a : Analysis) : Json :=
  .object [("pool", a.pool.toJson), ("expressions", a.expressions.toJson)]

/-- A unit has one module at most. The second one is blamed, if the tree has it. -/
def checkModules (table : SymbolTable) (tree : Tree) : Except Halt Unit :=
  if table.modules.length ≤ 1 ∧ tree.modules.length ≤ 1 then .ok ()
  else
    let location := match tree.modules[1]? with
      | some m => m.location
      | none => .unknown
    .error (.reported (.notYetImplemented "multiple modules" location))

/-- Pool the constants of a unit, then type its expressions. -/
def ofTree (table : SymbolTable) (tree : Tree) : Except Halt Analysis := do
  checkModules table tree
  let pool ← Pool.ofTree table tree
  let expressions ← TypingTable.ofTree table tree
  pure ⟨pool, expressions⟩

end Analysis

end Pearl
