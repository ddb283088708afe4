/-! # Identities of the nodes, scopes and symbols of a unit

Expressions, statements, scopes and symbols are numbered from zero in the order in which they are
made. An id stands for a word of 32 bits. Numbers have no bound here, so that they agree with these
words as long as fewer than 2 ^ 32 of a kind are made.
-/

namespace Pearl

structure ExprId where
  index : Nat
deriving DecidableEq, Repr

structure StmtId where
  index : Nat
deriving DecidableEq, Repr

structure ScopeId where
  index : Nat
deriving DecidableEq, Repr

structure SymbolId where
  index : Nat
deriving DecidableEq, Repr

def ExprId.text (id : ExprId) : String := "e" ++ toString id.index

def StmtId.text (id : StmtId) : String := "s" ++ toString id.index

def ScopeId.text (id : ScopeId) : String := "scope#" ++ toString id.index

def SymbolId.text (id : SymbolId) : String := "sym#" ++ toString id.index

end Pearl
