import Pearl.Ty

/-! # Tables of expression types -/

namespace Pearl

/-- What is known of each expression, by its id. -/
structure TypingTable where
  results : Array (Option Typing)
deriving DecidableEq, Repr

namespace TypingTable

/-- A table without entries, with room for `n` expressions. -/
def withRoom (n : Nat) : TypingTable := ⟨Array.replicate n none⟩

def empty : TypingTable := withRoom 0

/-- Enter what is known of an expression, in place of what was entered before. -/
def insert (t : TypingTable) (id : ExprId) (r : Typing) : TypingTable :=
  let grown := t.results ++ Array.replicate (id.index + 1 - t.results.size) none
  ⟨grown.setIfInBounds id.index (some r)⟩

def get? (t : TypingTable) (id : ExprId) : Option Typing := (t.results[id.index]?).join

@[simp] theorem get?_withRoom (n : Nat) (id : ExprId) : (withRoom n).get? id = none := by
  simp only [get?, withRoom, Array.getElem?_replicate]
  split <;> rfl

@[simp] theorem get?_insert_self (t : TypingTable) (id : ExprId) (r : Typing) :
    (t.insert id r).get? id = some r := by
  have h : id.index < t.results.size + (id.index + 1 - t.results.size) := by omega
  simp [get?, insert, h]

@[simp] theorem get?_insert_of_ne (t : TypingTable) {id other : ExprId} (r : Typing)
    (h : other ≠ id) : (t.insert id r).get? other = t.get? other := by
  have h' : id.index ≠ other.index := fun e => h (by cases id; cases other; simp_all)
  simp only [get?, insert, Array.getElem?_setIfInBounds_ne h', Array.getElem?_append,
    Array.getElem?_replicate]
  split
  · rfl
  · rw [Array.getElem?_eq_none (by omega)]
    split <;> rfl

def ty? (t : TypingTable) (id : ExprId) : Option Ty := (t.get? id).map Typing.ty

/-- The entries in the order of their ids. -/
def entries (t : TypingTable) : List (ExprId × Typing) :=
  t.results.toList.zipIdx.filterMap fun (r, i) => r.map fun r => (⟨i⟩, r)

/-- The number of entries. -/
def size (t : TypingTable) : Nat := t.entries.length

def isEmpty (t : TypingTable) : Bool := t.size == 0

def toJson (t : TypingTable) : Json :=
  .object (t.entries.map fun (id, r) => (toString id.index, r.toJson))

end TypingTable

end Pearl
