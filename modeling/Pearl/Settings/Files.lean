import Pearl.FileTree
import Pearl.Settings

/-! # Settings in files

Settings belong to a directory and to those inside it.
-/

namespace Pearl

namespace Settings

inductive FileError where
  /-- the file cannot be read or written -/
  | unreachable
  /-- the file holds no settings -/
  | malformed
  /-- the settings have no text -/
  | unwritable
deriving DecidableEq, Repr

/-- The name of the settings file of a directory. -/
def fileName : String := ".pearlsema.toml"

def load (t : FileTree) (path : Path) : Except FileError Settings :=
  match t.read? path with
  | none => .error .unreachable
  | some content => match parse? content with
    | some s => .ok s
    | none => .error .malformed

def save (s : Settings) (t : FileTree) (path : Path) : Except FileError FileTree :=
  match s.text? with
  | none => .error .unwritable
  | some text => match t.write? path text with
    | some t => .ok t
    | none => .error .unreachable

/-- The settings of the first directory whose file can be read and holds settings, else the
defaults. -/
def firstOf (t : FileTree) (directories : List Path) : Settings :=
  (directories.findSome? fun dir => (load t (dir ++ [fileName])).toOption).getD {}

/-- The settings for a path, from the innermost directory that its names lead through. -/
def discover (t : FileTree) (path : Path) : Settings := firstOf t path.ancestors

/-- The settings for a working directory, from the innermost directory around it. -/
def discoverFrom? (t : FileTree) (path : Path) : Option Settings := do
  let place ← t.resolve? path
  guard (t.isDirectory place)
  pure (firstOf t place.enclosing)

end Settings

end Pearl
