import ReactiveDoc.Config.Encoding

namespace ReactiveDoc

/-!
# Files that commands work on

* `Files` — how commands read and write files.
* `Folder` — files held in memory, for hosts without a disk.
* `Files.findConfig` — the nearest configuration file.
-/

/-- Why a file cannot be read or written. -/
inductive FileError where
  | notFound
  | notADirectory
  | isADirectory
  | other (message : String)
  deriving DecidableEq, Repr

/-- The wording of a failure. -/
def FileError.message : FileError → String
  | notFound => "No such file or directory (os error 2)"
  | notADirectory => "Not a directory (os error 20)"
  | isADirectory => "Is a directory (os error 21)"
  | other message => message

/-- How files are read and written.  Paths without a leading slash start in the current
    directory; `directories` are that one and those around it, from the inside out, by their paths
    from the root, which has the empty one. -/
structure Files (m : Type → Type) where
  read : String → m (Except FileError String)
  write : String → String → m (Except FileError Unit)
  isFile : String → m Bool
  isThere : String → m Bool
  directories : m (List String)

/-- The path of a file in a directory. -/
def joinPath (directory name : String) : String := directory ++ "/" ++ name

section

variable {m : Type → Type} [Monad m] (files : Files m)

/-- The nearest configuration file, in the current directory or around it. -/
def Files.findConfig : m (Option String) := do
  let paths := (← files.directories).map fun directory => joinPath directory Config.fileName
  paths.findM? files.isFile

/-- Read a configuration from a file. -/
def Files.readConfig (path : String) : m (Except ConfigError Config) := do
  match ← files.read path with
  | .error e => pure (.error (.unreadable path e.message))
  | .ok text =>
      match Config.parse? text with
      | some config => pure (.ok config)
      | none => pure (.error .malformed)

/-- The configuration from a file, by default the nearest one, or else the default settings. -/
def Files.config (path? : Option String) : m (Except ConfigError Config) := do
  match path?.or (← files.findConfig) with
  | some path => files.readConfig path
  | none => pure (.ok {})

end

/-! ### Files in memory -/

/-- Files by the names on their paths from the root, and the current directory. -/
structure Folder where
  files : List (List String × String) := []
  current : List String := []

namespace Folder

/-- The names on a path. -/
def names (path : String) : List String := path.splitOn "/"

/-- A folder with the given files and current directory. -/
def ofFiles (files : List (String × String)) (current : String) : Folder :=
  { files := files.map fun (path, text) => (names path, text)
    current := (names current).filter fun name => !name.isEmpty }

/-- The place is a directory: the root, the current directory, or one on the way to that or to a
    file. -/
def isDirectory (f : Folder) (place : List String) : Bool :=
  place.isPrefixOf f.current ||
    f.files.any fun (other, _) => place.isPrefixOf other && place.length < other.length

/-- The text of the file at a place. -/
def text? (f : Folder) (place : List String) : Option String := f.files.lookup place

/-- Follow names from a place. -/
def follow (f : Folder) : List String → List String → Except FileError (List String)
  | place, [] => .ok place
  | place, name :: rest =>
      if (f.text? place).isSome then .error .notADirectory
      else if !f.isDirectory place then .error .notFound
      else if name.isEmpty || name == "." then f.follow place rest
      else if name == ".." then f.follow place.dropLast rest
      else f.follow (place ++ [name]) rest

/-- The place of a path. -/
def locate (f : Folder) (path : String) : Except FileError (List String) :=
  f.follow (if path.startsWith "/" then [] else f.current) (names path)

/-- The text of the file with a path. -/
def read (f : Folder) (path : String) : Except FileError String := do
  let place ← f.locate path
  match f.text? place with
  | some text => pure text
  | none => throw (if f.isDirectory place then .isADirectory else .notFound)

/-- The folder with a file written. -/
def write (f : Folder) (path text : String) : Except FileError Folder := do
  let place ← f.locate path
  if f.isDirectory place then throw .isADirectory
  else pure { f with files := (place, text) :: f.files.filter fun (other, _) => other != place }

/-- There is a file or a directory with the path. -/
def isThere (f : Folder) (path : String) : Bool :=
  match f.locate path with
  | .ok place => (f.text? place).isSome || f.isDirectory place
  | .error _ => false

/-- The current directory and those around it, as paths from the root. -/
def directories (f : Folder) : List String :=
  (List.range (f.current.length + 1)).map fun n =>
    String.join ((f.current.take (f.current.length - n)).map fun name => "/" ++ name)

/-- Access to a folder as a state. -/
def access : Files (StateM Folder) where
  read path := return (← get).read path
  write path text := do
    match (← get).write path text with
    | .ok f =>
        set f
        pure (.ok ())
    | .error e => pure (.error e)
  isFile path := return ((← get).read path).isOk
  isThere path := return (← get).isThere path
  directories := return (← get).directories

end Folder

end ReactiveDoc
