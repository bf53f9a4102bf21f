import FlatSol.FileTree.Walk
import FlatSol.Glob.Pattern

/-!
# Searching a file tree by a pattern

A pattern of several components is followed one component at a time. A component without special
characters names one entry; any other one is matched with the names in the directory reached so far;
a double star stays in that directory and goes on in all directories below it.
-/

namespace FlatSol.Glob

variable (t : FileTree)

def nameLe (a b : Text × Entry) : Bool :=
  (List.compareLex (fun c d => Ord.compare c d) a.1 b.1).isLE

def namesIn (dir : Path) : List Text :=
  match t.resolve .follow dir with
  | .ok l => ((t.children l).mergeSort nameLe).map Prod.fst
  | .error _ => []

/-- Whether the search stands in the current directory, whose entries are written without it. -/
def isCurrent (dir : Path) : Bool :=
  dir.same ⟨['.']⟩

def childOf (dir : Path) (name : Text) : Path :=
  if isCurrent dir then ⟨name⟩ else dir.join ⟨name⟩

/-- Whether a component without special characters names something in a directory. -/
def accepts (dir : Path) (name : Text) : Bool :=
  if name == ['.'] || name == ['.', '.'] then t.isDir dir
  else t.pathExists (childOf dir name) || t.linkExists (childOf dir name)

/-- The directory entries `..` and `.` that a component matches: only one that starts with a dot
does. -/
def dotNames (p : Pattern) : List Text :=
  if p.head? == some (.char '.') then [['.', '.'], ['.']].filter (isMatch p) else []

/-- Everything below a directory, each entry before what is below it. Links to directories are
followed, so the paths may grow until the file tree refuses them; they get longer with every level,
and `room` levels are enough when no path of that many bytes is accepted. -/
def below : (room : Nat) → Path → List Path
  | 0, _ => []
  | room + 1, dir =>
    if t.isDir dir then
      (namesIn t dir).flatMap fun n => childOf dir n :: below room (childOf dir n)
    else []

/-- Whether the last component of a path is a name that the pattern matches. -/
def matchesName (p : Pattern) (path : Path) : Bool :=
  match path.fileName? with
  | some n => isMatch p n
  | none => false

/-- The paths that one component, other than a double star, leads to from a directory. -/
def oneLevel (p : Pattern) (dir : Path) : List Path :=
  match literal? p with
  | some name => if accepts t dir name then [childOf dir name] else []
  | none =>
    if t.isDir dir then
      (dotNames p).map (fun n => dir.join ⟨n⟩) ++
        ((namesIn t dir).filter (isMatch p)).map (childOf dir)
    else []

/-- The paths that the components of a pattern lead to from a directory. A double star at the end
stands for the directories below; several in a row mean the same as one. -/
def follow : List Pattern → Path → List Path
  | [], dir => [dir]
  | [p], dir =>
    if isRecursive p then (below t maxPathSize dir).filter t.isDir else oneLevel t p dir
  | p :: q :: ps, dir =>
    if !isRecursive p then (oneLevel t p dir).flatMap (follow (q :: ps))
    else if isRecursive q then follow (q :: ps) dir
    else ((below t maxPathSize dir).filter (matchesName q)).flatMap (follow ps)

/-- The components of a pattern text; a slash at its end starts no further one. -/
def componentTexts (text : Text) : List Text :=
  let ps := Text.pieces '/' (if Text.startsWith ['/'] text then text.tail else text)
  if ps.getLast? == some [] then ps.dropLast else ps

def search? (text : Text) : Option (List Path) := do
  let _ ← pattern? text
  let patterns ← (componentTexts text).mapM pattern?
  let start : Path := if Text.startsWith ['/'] text then ⟨['/']⟩ else ⟨['.']⟩
  let found := follow t patterns start
  return if text.getLast? == some '/' then found.filter t.isDir else found

structure PatternError where
  pattern : Text
deriving DecidableEq, Repr

def PatternError.message (e : PatternError) : Text :=
  "invalid glob pattern: ".toList ++ e.pattern

/-- The pattern for the names in a directory that end in a dot and the extension. The extension is a
pattern itself. -/
def extensionPattern (dir : Path) (extension : Text) : Text :=
  escape dir.text ++ ['/', '*', '.'] ++ extension

/-- The regular files in a directory whose names end in a dot and the extension, in the order of
paths; none without such a directory. -/
def filesWithExtension (dir : Path) (extension : Text) : Except PatternError (List Path) :=
  if !t.isDir dir then .ok []
  else
    match search? t (extensionPattern dir extension) with
    | some found => .ok ((found.filter t.isFile).mergeSort Path.le)
    | none => .error ⟨extensionPattern dir extension⟩

end FlatSol.Glob
