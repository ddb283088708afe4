/-! # Files and directories

Files are modelled as a tree under one directory, where every path begins. Around that directory are
others, in which there is nothing but what is put there.
-/

namespace Pearl

/-- Names one after the other. A single dot stays in a directory, double dots lead out of it. -/
abbrev Path := List String

namespace Path

/-- The names of a text between slashes. One that begins with a slash leads nowhere, and so begins
with an empty name. -/
def names (text : String) : Path :=
  (if text.startsWith "/" then [""] else []) ++ (text.splitOn "/").filter (· != "")

/-- The path of a text. A slash at the end stands for a dot, since only a directory is followed by
one. -/
def ofText (text : String) : Path :=
  names text ++ if text.endsWith "/" then ["."] else []

/-- The path without its single dots. -/
def plain (path : Path) : Path := path.filter (· != ".")

/-- A path and its beginnings, the longest first. -/
def beginnings (path : Path) : List Path :=
  (List.range (path.length + 1)).reverse.map path.take

/-- A path and those of the directories around it as its names say, from the inside out. -/
def ancestors (path : Path) : List Path :=
  if path.head? = some "" then [] else path.plain.beginnings

/-- The limit of the length of a name in bytes. -/
def nameLimit : Nat := 255

/-- The limit of the length of a path in bytes. -/
def lengthLimit : Nat := 4095

def isName (name : String) : Bool :=
  name != "" && name.utf8ByteSize ≤ nameLimit && !name.contains '\x00'

def isShort (path : Path) : Bool :=
  path.foldl (fun n name => n + (name.utf8ByteSize + 1)) 0 ≤ lengthLimit

end Path

/-- Names from the directory where paths begin down, after double dots for each directory up from
it. No other dots occur. -/
abbrev Place := List String

namespace Place

/-- The double dots in front. -/
def climb (place : Place) : Place := place.takeWhile (· == "..")

/-- Whether a place is where paths begin, or around it. -/
def isOuter (place : Place) : Bool := place.all (· == "..")

/-- The directory around a place. -/
def outward (place : Place) : Place :=
  if place.isOuter then place ++ [".."] else place.dropLast

/-- A place and those around it, up to the first that has double dots alone. -/
def enclosing (place : Place) : List Place :=
  (Path.beginnings place).filter fun p => place.climb.length ≤ p.length

end Place

inductive FileEntry where
  | directory
  | file (content : String)
deriving DecidableEq, Repr

/-- Directories and files by their places, the latest first. -/
structure FileTree where
  entries : List (Place × FileEntry) := []
deriving Repr

namespace FileTree

def entry? (t : FileTree) (place : Place) : Option FileEntry :=
  if place.isOuter then some .directory else t.entries.lookup place

def isDirectory (t : FileTree) (place : Place) : Bool := t.entry? place == some .directory

/-- Go on from a place by a name, which is possible only from a directory. -/
def step? (t : FileTree) (place : Place) (name : String) : Option Place :=
  if !t.isDirectory place || !Path.isName name then none
  else if name = "." then some place
  else if name = ".." then some place.outward
  else some (place ++ [name])

/-- The place that a path leads to, where there need not be anything yet. -/
def resolve? (t : FileTree) (path : Path) : Option Place :=
  if path.isShort then path.foldlM t.step? [] else none

/-- The content of a file. -/
def read? (t : FileTree) (path : Path) : Option String :=
  match (t.resolve? path).bind t.entry? with
  | some (.file content) => some content
  | _ => none

/-- Write a file, unless there is a directory in its place. -/
def write? (t : FileTree) (path : Path) (content : String) : Option FileTree := do
  let place ← t.resolve? path
  guard !(t.isDirectory place)
  pure ⟨(place, .file content) :: t.entries⟩

/-- Make a directory, unless it is there. -/
def makeSingle? (t : FileTree) (path : Path) : Option FileTree := do
  let place ← t.resolve? path
  match t.entry? place with
  | none => some ⟨(place, .directory) :: t.entries⟩
  | some .directory => some t
  | some (.file _) => none

/-- Make a directory after those around it. -/
def makeDirectory? (t : FileTree) (path : Path) : Option FileTree :=
  (path.ancestors.tail.reverse ++ [path]).foldlM makeSingle? t

end FileTree

end Pearl
