import Pearl.Constant

/-! # Pools of constants

A pool holds each constant once, in the order of first mention. Entries are never removed or
reordered, so that an index keeps its meaning.
-/

namespace Pearl

structure Pool where
  entries : List Constant
deriving Repr

namespace Pool

def empty : Pool := ⟨[]⟩

/-- The index of the first entry that denotes the same value. -/
def position? (p : Pool) (c : Constant) : Option Nat :=
  p.entries.findIdx? (·.same c)

def contains (p : Pool) (c : Constant) : Bool := (p.position? c).isSome

def bitStrings (p : Pool) : List Constant := p.entries.filter Constant.isBits

/-- Add a constant unless it is there already, and return its index. A new bit string is numbered
after those of the pool, from one. -/
def add (p : Pool) (c : Constant) : Nat × Pool :=
  match p.position? c with
  | some i => (i, p)
  | none => (p.entries.length, ⟨p.entries ++ [c.numbered (p.bitStrings.length + 1)]⟩)

/-- An entry keeps its index. -/
theorem entries_prefix_add (p : Pool) (c : Constant) : p.entries <+: (p.add c).2.entries := by
  unfold add
  split
  · exact List.prefix_refl _
  · exact List.prefix_append _ _

def addAll (p : Pool) (cs : List Constant) : Pool :=
  cs.foldl (fun p c => (p.add c).2) p

/-- The pool of 0, 1 and -1 at one precision. -/
def basic (precision : Precision) : Pool :=
  empty.addAll [.fixed 0 precision, .fixed 1 precision, .fixed (-1) precision]

def toJson (p : Pool) : Json := .array (p.entries.map Constant.toJson)

end Pool

end Pearl
