import Pearl.Ident
import Pearl.Ty

/-! # Scopes -/

namespace Pearl

/-- One level of the static nesting. -/
structure Scope where
  id : ScopeId
  parent : Option ScopeId
  /-- `LENGTH FIXED`, in effect from this scope inward -/
  fixedLength : Option Precision := none
  /-- `LENGTH FLOAT`, in effect from this scope inward -/
  floatLength : Option Precision := none
  /-- the latest binding of a name first -/
  bindings : List (String × SymbolId) := []
  /-- the bound symbols, in the order in which their names were first bound -/
  declared : List SymbolId := []
deriving Repr

namespace Scope

/-- The symbol that a name is bound to in this scope alone. -/
def lookup (s : Scope) (name : String) : Option SymbolId := s.bindings.lookup name

/-- The declared symbols after `id` took the place of `previous`. -/
def replaceDeclared (declared : List SymbolId) (previous : Option SymbolId) (id : SymbolId) :
    List SymbolId :=
  match previous with
  | some old => if old ∈ declared then declared.replace old id else declared ++ [id]
  | none => declared ++ [id]

/-- Bind a name. A symbol bound before under that name gives up its place. -/
def bind (s : Scope) (name : String) (id : SymbolId) : Scope :=
  { s with
    bindings := (name, id) :: s.bindings
    declared := replaceDeclared s.declared (s.lookup name) id }

@[simp] theorem lookup_bind_self (s : Scope) (name : String) (id : SymbolId) :
    (s.bind name id).lookup name = some id := by
  simp [lookup, bind]

@[simp] theorem lookup_bind_of_ne (s : Scope) {name other : String} (id : SymbolId)
    (h : other ≠ name) : (s.bind name id).lookup other = s.lookup other := by
  have h' : (other == name) = false := by simpa using h
  simp [lookup, bind, List.lookup_cons, h']

/-- Set the lengths that are given and keep the others. -/
def setLengths (s : Scope) (fixed float : Option Precision) : Scope :=
  { s with fixedLength := fixed <|> s.fixedLength, floatLength := float <|> s.floatLength }

end Scope

end Pearl
