import ShellSyntax.Text.Quoted

/-!
# Files

A `Storage` holds the files and directories that a run can reach, each under its path from the working
directory. `Storage.locate` finds the place that a name stands for; reading and writing go through it.
-/

namespace ShellSyntax

/-- Why a file cannot be read or written: the number and the wording of the system. -/
structure FileError where
  code : Nat
  reason : String
  deriving DecidableEq, Repr

namespace FileError

def missing : FileError := ⟨2, "No such file or directory"⟩

def notADirectory : FileError := ⟨20, "Not a directory"⟩

def isADirectory : FileError := ⟨21, "Is a directory"⟩

/-- The error with the name of the file that was asked for. -/
def message (e : FileError) (name : String) : String :=
  "[Errno " ++ toString e.code ++ "] " ++ e.reason ++ ": " ++ quoted name

end FileError

inductive Entry where
  | file (text : String)
  | directory
  deriving DecidableEq, Repr

structure Storage where
  entries : List (String × Entry) := []
  deriving DecidableEq, Repr

/-- What stands at the place that a name points to. -/
inductive Place where
  | directory
  | file (path text : String)
  /-- Nothing stands there, but its directory exists. -/
  | vacant (path : String)
  /-- Nothing stands there, and the name asks for a directory. -/
  | vacantDirectory
  deriving DecidableEq, Repr

namespace Storage

def get? (s : Storage) (path : String) : Option Entry := s.entries.lookup path

/-- Follows the parts of a name from a directory, which is given innermost first. -/
def locateFrom (s : Storage) (directory : List String) : List String → Except FileError Place
  | [] => .ok .directory
  | part :: rest =>
    if part = "" ∨ part = "." then locateFrom s directory rest
    else if part = ".." then
      match directory with
      | [] => .error .missing
      | _ :: outer => locateFrom s outer rest
    else
      let path := "/".intercalate (part :: directory).reverse
      match s.get? path with
      | some .directory => locateFrom s (part :: directory) rest
      | some (.file text) => if rest = [] then .ok (.file path text) else .error .notADirectory
      | none =>
        if rest = [] then .ok (.vacant path)
        else if rest.all (· = "") then .ok .vacantDirectory
        else .error .missing

/-- The place that a name stands for. Nothing is known outside the working directory. -/
def locate (s : Storage) (name : String) : Except FileError Place :=
  if name = "" ∨ name.toList.head? = some '/' then .error .missing
  else s.locateFrom [] (name.splitOn "/")

/-- A file or directory stands there. -/
def occupied (s : Storage) (name : String) : Bool :=
  match s.locate name with
  | .ok .directory | .ok (.file ..) => true
  | _ => false

def read (s : Storage) (name : String) : Except FileError String :=
  match s.locate name with
  | .ok (.file _ text) => .ok text
  | .ok .directory => .error .isADirectory
  | .ok (.vacant _) | .ok .vacantDirectory => .error .missing
  | .error e => .error e

/-- Sets the entry at a path, in its place if there is one and at the end otherwise. -/
def setIn (path : String) (entry : Entry) : List (String × Entry) → List (String × Entry)
  | [] => [(path, entry)]
  | (p, e) :: rest => if p = path then (p, entry) :: rest else (p, e) :: setIn path entry rest

def set (s : Storage) (path : String) (entry : Entry) : Storage where
  entries := setIn path entry s.entries

/-- Writes a file. One that exists gets the new text, and nothing else changes. -/
def write (s : Storage) (name text : String) : Except FileError Storage :=
  match s.locate name with
  | .ok (.file path _) | .ok (.vacant path) => .ok (s.set path (.file text))
  | .ok .directory | .ok .vacantDirectory => .error .isADirectory
  | .error e => .error e

/-- The files, with their text. -/
def files (s : Storage) : List (String × String) :=
  s.entries.filterMap fun (path, entry) =>
    match entry with
    | .file text => some (path, text)
    | .directory => none

theorem get?_set (s : Storage) (path other : String) (entry : Entry) :
    (s.set path entry).get? other = if other = path then some entry else s.get? other := by
  obtain ⟨entries⟩ := s
  simp only [set, get?]
  induction entries with
  | nil => grind [setIn]
  | cons head rest ih => grind [setIn]

end Storage

end ShellSyntax
