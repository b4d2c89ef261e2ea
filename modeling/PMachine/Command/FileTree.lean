import PMachine.Files.Source

/-!
# A tree of files

Files, folders and devices by the names on the way to them from the root, and a working folder from
which relative paths start. In a path `.` stays in place and `..` goes up, every step starts in a
folder, and both a path and each name in it have a greatest length.

* `FileTree.resolve`: the place that a path leads to.
* `FileTree.find`: what there is at a path, to read.
* `FileTree.create`: the file at a path, emptied, to write.
-/

namespace PMachine

/-- A place in a tree: the names on the way to it from the root. -/
abbrev FileTree.Place := List String

/-- What can be read or written like a file and keeps nothing. -/
inductive FileTree.Device where
  /-- Takes everything and delivers nothing. -/
  | void
  /-- Has no room for a single byte. -/
  | full
  /-- The standard input. -/
  | input
  /-- The standard output. -/
  | output
  /-- The standard error. -/
  | messages
  /-- A terminal that is not there. -/
  | absent
deriving DecidableEq, Repr

/-- What there is at a place. -/
inductive FileTree.Node where
  | file (bytes : List UInt8)
  | folder
  | device (d : FileTree.Device)
deriving DecidableEq, Repr

/-- The reasons for which a path or a device is refused. -/
inductive FileTree.Refusal where
  | missing
  | noDevice
  | notFolder
  | isFolder
  | noSpace
  | nameTooLong
deriving DecidableEq, Repr

/-- A refusal in words. -/
def FileTree.Refusal.text : FileTree.Refusal → String
  | missing => "No such file or directory (os error 2)"
  | noDevice => "No such device or address (os error 6)"
  | notFolder => "Not a directory (os error 20)"
  | isFolder => "Is a directory (os error 21)"
  | noSpace => "No space left on device (os error 28)"
  | nameTooLong => "File name too long (os error 36)"

/-- A tree of files with a working folder. -/
structure FileTree where
  nodes : List (FileTree.Place × FileTree.Node)
  /-- The working folder. -/
  here : FileTree.Place
deriving DecidableEq, Repr

namespace FileTree

/-! ### A new tree -/

/-- The working folder of a new tree. -/
def home : Place := ["tmp", "work"]

/-- The folders of a new tree. -/
def folders : List Place :=
  [[], home, ["dev", "fd"], ["dev", "pts"], ["dev", "shm"], ["proc", "self"],
   ["proc", "self", "fd"]] ++
  ["bin", "boot", "dev", "etc", "home", "lib", "media", "mnt", "opt", "proc", "root", "run", "sbin",
   "srv", "sys", "tmp", "usr", "var"].map ([·])

/-- The devices of a new tree. -/
def devices : List (Place × Device) :=
  [(["dev", "null"], .void), (["dev", "zero"], .void), (["dev", "random"], .void),
   (["dev", "urandom"], .void), (["dev", "full"], .full), (["dev", "tty"], .absent)] ++
  [(["dev", "stdin"], .input), (["dev", "fd", "0"], .input), (["proc", "self", "fd", "0"], .input),
   (["dev", "stdout"], .output), (["dev", "fd", "1"], .output),
   (["proc", "self", "fd", "1"], .output), (["dev", "stderr"], .messages),
   (["dev", "fd", "2"], .messages), (["proc", "self", "fd", "2"], .messages)]

/-- A tree with the given files in its working folder. -/
def new (files : List (String × List UInt8)) : FileTree where
  nodes := files.map (fun (name, bytes) => (home ++ [name], .file bytes)) ++
    folders.map (·, .folder) ++ devices.map (fun (p, d) => (p, .device d))
  here := home

/-! ### Nodes -/

/-- What there is at a place. -/
def node? (t : FileTree) (p : Place) : Option Node := t.nodes.lookup p

/-- Changes what there is at a place. -/
def put (t : FileTree) (p : Place) (n : Node) : FileTree :=
  { t with nodes := (p, n) :: t.nodes.filter (·.1 ≠ p) }

/-- Replaces the contents of the file at a place; a device keeps nothing. -/
def write (t : FileTree) (p : Place) (bytes : List UInt8) : FileTree :=
  match t.node? p with
  | some (.device _) => t
  | _ => t.put p (.file bytes)

/-- The files in the working folder, with their names. -/
def files (t : FileTree) : List (String × List UInt8) :=
  t.nodes.filterMap fun
    | (p, .file bytes) => if p.dropLast = t.here then p.getLast?.map (·, bytes) else none
    | _ => none

/-! ### Paths -/

/-- The number of bytes in the longest path. -/
def longestPath : Nat := 4095

/-- The number of bytes in the longest name. -/
def longestName : Nat := 255

/-- The names in a path. -/
def names (path : String) : List String := (path.splitOn "/").filter (· ≠ "")

/-- Whether a path says by its last character that it means a folder. -/
def meansFolder (path : String) : Bool := path.endsWith "/"

/-- The place one step of a path away, which must start in a folder. -/
def step (t : FileTree) (p : Place) (name : String) : Except Refusal Place :=
  match t.node? p with
  | none => .error .missing
  | some .folder =>
    if name = "." then .ok p
    else if name = ".." then .ok p.dropLast
    else if longestName < name.utf8ByteSize then .error .nameTooLong
    else .ok (p ++ [name])
  | some _ => .error .notFolder

/-- The place that is reached by the given steps from where a path starts. There need be nothing at
it. -/
def resolve (t : FileTree) (path : String) (steps : List String) : Except Refusal Place :=
  if longestPath < path.utf8ByteSize then .error .nameTooLong
  else steps.foldlM t.step (if path.startsWith "/" then [] else t.here)

/-- What there is at a path, and its place. A path that means a folder goes a step further, as only
a folder lets it. -/
def find (t : FileTree) (path : String) : Except Refusal (Place × Node) := do
  let p ← t.resolve path (names path ++ if meansFolder path then ["."] else [])
  match t.node? p with
  | none => throw .missing
  | some (.device .absent) => throw .noDevice
  | some n => return (p, n)

/-- The place of the file at a path, to write, and the tree with that file empty. A path that means
a folder is refused before its last name is looked at. -/
def create (t : FileTree) (path : String) : Except Refusal (Place × FileTree) := do
  if meansFolder path then
    let _ ← t.resolve path ((names path).dropLast ++ ["."])
    throw .isFolder
  let p ← t.resolve path (names path)
  match t.node? p with
  | some .folder => throw .isFolder
  | some (.device .absent) => throw .noDevice
  | _ => return (p, t.write p [])

end FileTree

end PMachine
