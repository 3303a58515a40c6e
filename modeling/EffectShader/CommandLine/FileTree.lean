import EffectShader.Text.Basic

/-!
# File trees

The files and directories that a command sees, as a value: what can be read,
and what becomes of the tree when a directory is made or a file is written.
-/

namespace EffectShader

/-!
# Paths

Names of files and directories are joined by slashes.  A clean path has no
empty names, no `.` and no name that a following `..` takes back.
-/

namespace Path

def dot : Text := "."
def parent : Text := ".."

def isAbsolute (path : Text) : Bool :=
  path.head? == some Byte.slash

def push (absolute : Bool) (names : List Text) (name : Text) : List Text :=
  if name.isEmpty || name == dot then names
  else if name == parent then
    match names with
    | [] => if absolute then [] else [parent]
    | last :: rest => if last == parent then parent :: names else rest
  else name :: names

def names (path : Text) : List Text :=
  ((Text.splitByte Byte.slash path).foldl (push (isAbsolute path)) []).reverse

/-- The shortest path with the same meaning. -/
def clean (path : Text) : Text :=
  let joined := Text.joinWith [Byte.slash] (names path)
  if isAbsolute path then Byte.slash :: joined
  else if joined.isEmpty then dot
  else joined

def join (directory path : Text) : Text :=
  if directory.isEmpty then
    if path.isEmpty then [] else clean path
  else clean (directory ++ [Byte.slash] ++ path)

/-- The path and the directories that lead to it, outermost first; `done` is what stands before
the rest, last byte first.  A directory ends with the slashes before the next name. -/
def ancestorsFrom (done : Text) : Text -> List Text
  | [] => [done.reverse]
  | b :: rest =>
      let later := ancestorsFrom (b :: done) rest
      if b == Byte.slash && rest.head?.any (· != Byte.slash) then (b :: done).reverse :: later
      else later

def ancestors (path : Text) : List Text :=
  ancestorsFrom [] path

structure ForeignHome where
  path : Text
  deriving DecidableEq, Repr

def ForeignHome.message (_ : ForeignHome) : Text :=
  "cannot expand user-specific home dir"

def expandHome (home : Text) (path : Text) : Except ForeignHome Text :=
  match path with
  | Byte.tilde :: rest =>
      if rest.head?.any fun b => b != Byte.slash && b != Byte.backslash then .error ⟨path⟩
      else .ok (join home rest)
  | path => .ok path

/-- A tilde at the start stands for the home directory; other users' paths stay as they are. -/
def expandOwnHome (home path : Text) : Text :=
  (expandHome home path).toOption.getD path

end Path

/-!
# Faults and places
-/

inductive FileFault where
  | missing
  | notDirectory
  | isDirectory
  | exists
  | nameTooLong
  /-- A zero byte, which no name has. -/
  | invalidName
  | other (message : Text)
  deriving DecidableEq, Repr

def FileFault.message : FileFault -> Text
  | .missing => "no such file or directory"
  | .notDirectory => "not a directory"
  | .isDirectory => "is a directory"
  | .exists => "file exists"
  | .nameTooLong => "file name too long"
  | .invalidName => "invalid argument"
  | .other message => message

/-- The names that lead to a file or a directory from the working directory.  Absolute places start
with a slash as a name, and places outside of the working directory with double dots. -/
abbrev Place := List Text

namespace Place

def root : Place := [[Byte.slash]]

def le : Place -> Place -> Bool
  | [], _ => true
  | _ :: _, [] => false
  | a :: p, b :: q => if a == b then le p q else Text.le a b

def isOutside (p : Place) : Bool :=
  p.head?.any fun name => name == [Byte.slash] || name == Path.parent

/-- The working directory, or one that it is in. -/
def isAround (p : Place) : Bool :=
  p.all (· == Path.parent)

def path (p : Place) : Text :=
  Text.joinWith [Byte.slash] p

end Place

structure FileTree where
  directories : List Place
  files : List (Place × Text)
  deriving DecidableEq, Repr

namespace FileTree

def empty : FileTree := ⟨[Place.root], []⟩

def file? (t : FileTree) (p : Place) : Option Text :=
  t.files.lookup p

/-- The place is a directory; the working directory has no names. -/
def isDirectory (t : FileTree) (p : Place) : Bool :=
  p.isAround || t.directories.contains p

def addDirectory (t : FileTree) (p : Place) : FileTree :=
  if t.isDirectory p then t else { t with directories := t.directories ++ [p] }

def addFile (t : FileTree) (p : Place) (content : Text) : FileTree :=
  { t with files := t.files.filter (fun f => f.1 != p) ++ [(p, content)] }

def longestName : Nat := 255

def longestPath : Nat := 4095

def enter (t : FileTree) (p : Place) (name : Text) : Except FileFault Place :=
  if (t.file? p).isSome then .error .notDirectory
  else if !t.isDirectory p then .error .missing
  else if name.isEmpty || name == Path.dot then .ok p
  else if name == Path.parent then
    if p.isAround then .ok (p ++ [name])
    else if p == Place.root then .ok p
    else .ok p.dropLast
  else if longestName < name.length then .error .nameTooLong
  else .ok (p ++ [name])

/-- The place that a path leads to; all names but the last lead to directories. -/
def locate (t : FileTree) (path : Text) : Except FileFault Place :=
  if path.isEmpty then .error .missing
  else if path.contains 0 then .error .invalidName
  else if longestPath < path.length then .error .nameTooLong
  else
    (Text.splitByte Byte.slash path).foldlM t.enter
      (if Path.isAbsolute path then Place.root else [])

def read (t : FileTree) (path : Text) : Except FileFault Text := do
  let p <- t.locate path
  match t.file? p with
  | some content => return content
  | none => throw (if t.isDirectory p then .isDirectory else .missing)

def filesBelow (t : FileTree) (path : Text) : Except FileFault (List Place) := do
  let p <- t.locate path
  if (t.file? p).isSome then return [[]]
  else if !t.isDirectory p then throw .missing
  else
    let below := (t.files.map Prod.fst).filter fun f =>
      p.isPrefixOf f && (!p.isEmpty || !Place.isOutside f)
    return (below.map fun f => f.drop p.length).mergeSort Place.le

def hasDirectory (t : FileTree) (path : Text) : Bool :=
  match t.locate path with
  | .ok p => t.isDirectory p
  | .error _ => false

/-- Makes a directory, unless there is one.  The slashes at the end of a path only say that a
directory is meant. -/
def makeDirectory (t : FileTree) (path : Text) : Except FileFault FileTree := do
  if t.hasDirectory path then return t
  else
    let name := Text.dropEndWhile (· == Byte.slash) path
    let p <- t.locate name
    if (t.file? p).isSome then throw (if name == path then .notDirectory else .exists)
    else return t.addDirectory p

def write (t : FileTree) (path content : Text) : Except FileFault FileTree := do
  let p <- t.locate path
  if t.isDirectory p then throw .isDirectory
  else if !t.isDirectory p.dropLast then throw .missing
  else return t.addFile p content

def withFile (t : FileTree) (path content : Text) : FileTree :=
  let p := Path.names path
  let t := (List.range p.length).foldl (fun t n => t.addDirectory (p.take n)) t
  t.addFile p content

def paths (t : FileTree) : List (Text × Text) :=
  (t.files.filter fun f => !Place.isOutside f.1).map fun f => (Place.path f.1, f.2)

end FileTree

/-!
# Hosts

What a command needs of the system that it runs on: files to read and write,
a stream for outputs and one for reports.  A workspace is a host that is a
value, so that the whole of a run can be stated about.
-/

structure Host (m : Type -> Type) where
  home : Text
  read : Text -> m (Except FileFault Text)
  /-- The files below a directory, by the names that lead to them from there. -/
  filesBelow : Text -> m (Except FileFault (List Place))
  makeDirectory : Text -> m (Except FileFault Unit)
  write : Text -> Text -> m (Except FileFault Unit)
  /-- Appends to the output stream. -/
  output : Text -> m Unit
  /-- Appends to the stream of reports. -/
  report : Text -> m Unit

structure Workspace where
  tree : FileTree
  output : Text
  report : Text
  deriving DecidableEq, Repr

namespace Workspace

def ofTree (t : FileTree) : Workspace := ⟨t, [], []⟩

def query {α : Type} (f : FileTree -> Except FileFault α) : StateM Workspace (Except FileFault α) :=
  return f (← get).tree

def change (f : FileTree -> Except FileFault FileTree) : StateM Workspace (Except FileFault Unit) :=
  do
    let w <- get
    match f w.tree with
    | .error e => return .error e
    | .ok t =>
        set { w with tree := t }
        return .ok ()

def host (home : Text) : Host (StateM Workspace) where
  home := home
  read path := query fun t => t.read path
  filesBelow path := query fun t => t.filesBelow path
  makeDirectory path := change fun t => t.makeDirectory path
  write path content := change fun t => t.write path content
  output text := modify fun w => { w with output := w.output ++ text }
  report text := modify fun w => { w with report := w.report ++ text }

end Workspace

end EffectShader
