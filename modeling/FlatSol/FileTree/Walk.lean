import FlatSol.FileTree.Basic
import FlatSol.FileTree.Fault

/-!
# Finding what a path denotes

A path is followed piece by piece, from the root or from the current directory. Each piece needs
the place reached so far to be a directory; `..` leads to the directory around it, and a link is
replaced by the pieces of its target. At most 40 links are followed, so the walk ends: each step
either uses up a link or shortens the pieces that are left.
-/

namespace FlatSol

inductive Step
  /-- An empty piece or `.`: the place reached must be a directory. -/
  | stay
  | up
  | into (name : Text)
deriving DecidableEq, Repr

def Step.ofPiece (piece : Text) : Step :=
  if Path.isIdle piece then .stay
  else if piece == ['.', '.'] then .up
  else .into piece

def Path.steps (p : Path) : List Step :=
  p.pieces.map Step.ofPiece

/-- What a walk does with the last name of a path. -/
inductive LastName
  /-- A link there is followed. -/
  | follow
  /-- A link there is what the path denotes. -/
  | keep
  /-- A link there is followed, and an entry that does not exist may still be made. -/
  | create
deriving DecidableEq, Repr

def maxLinks : Nat := 40

/-- The longest name, in bytes. -/
def maxNameSize : Nat := 255

/-- The longest path, in bytes. -/
def maxPathSize : Nat := 4095

namespace FileTree

/-- Where the steps lead from the location `here`, with so many links to follow. -/
def walk (t : FileTree) (last : LastName) (links : Nat) (here : Location) :
    List Step → Except Fault Location
  | [] => .ok here
  | step :: rest =>
    if t.get? here ≠ some .dir then .error .notDirectory
    else
      match step with
      | .stay => walk t last links here rest
      | .up => walk t last links here.dropLast rest
      | .into name =>
        if maxNameSize < Text.byteSize name then .error .nameTooLong
        else
          match t.get? (here ++ [name]) with
          | none =>
            if last = .create ∧ rest = [] then .ok (here ++ [name]) else .error .notFound
          | some (.link target) =>
            if last = .keep ∧ rest = [] then .ok (here ++ [name])
            else
              match links with
              | 0 => .error .tooManyLinks
              | links + 1 =>
                walk t last links (if Path.isAbsolute ⟨target⟩ then [] else here)
                  (Path.steps ⟨target⟩ ++ rest)
          | some _ => walk t last links (here ++ [name]) rest
termination_by steps => (links, steps.length)

/-- Where a path starts: at the root or in the current directory. -/
def origin (t : FileTree) (p : Path) : Except Fault Location :=
  if p.isAbsolute then .ok []
  else
    match t.workDir with
    | some l => .ok l
    | none => .error .notFound

/-- Refuses what no path may be: a text with a NUL character, the empty text, one that is too
long. -/
def checkPath (p : Path) : Except Fault Unit :=
  if '\x00' ∈ p.text then .error .nulInPath
  else if p.text = [] then .error .notFound
  else if maxPathSize < Text.byteSize p.text then .error .nameTooLong
  else .ok ()

def resolve (t : FileTree) (last : LastName) (p : Path) : Except Fault Location := do
  checkPath p
  walk t last maxLinks (← t.origin p) p.steps

/-- The entry that a path denotes, with links followed. -/
def status? (t : FileTree) (p : Path) : Option Entry :=
  match t.resolve .follow p with
  | .ok l => t.get? l
  | .error _ => none

def pathExists (t : FileTree) (p : Path) : Bool :=
  (t.status? p).isSome

def isDir (t : FileTree) (p : Path) : Bool :=
  t.status? p == some .dir

def isFile (t : FileTree) (p : Path) : Bool :=
  match t.status? p with
  | some (.file _) => true
  | _ => false

/-- Whether a path leads to an entry, be it a link that leads nowhere. -/
def linkExists (t : FileTree) (p : Path) : Bool :=
  match t.resolve .keep p with
  | .ok l => (t.get? l).isSome
  | .error _ => false

/-! ### Canonical and absolute paths -/

/-- The location of what a path denotes, if it denotes anything. The names are looked up one by one
here, so the path as a whole may have any length. -/
def canonical? (t : FileTree) (p : Path) : Option Location :=
  if '\x00' ∈ p.text ∨ p.text = [] then none
  else
    match t.origin p with
    | .ok start => (walk t .follow maxLinks start p.steps).toOption
    | .error _ => none

/-- The canonical path of what a path denotes, or the path itself if it denotes nothing. -/
def normalize (t : FileTree) (p : Path) : Path :=
  ((t.canonical? p).map Location.path).getD p

/-- A path with the current directory in front of it, without `.` pieces and repeated slashes. It
keeps `..` pieces, one slash at its end, and two slashes at its front. The empty path has no such
form. -/
def anchored? (t : FileTree) (p : Path) : Option Path :=
  if p.text.isEmpty then none
  else
    let front : Option Path :=
      if p.isAbsolute then
        let doubled := Text.startsWith ['/', '/'] p.text && !Text.startsWith ['/', '/', '/'] p.text
        some ⟨if doubled then ['/', '/'] else ['/']⟩
      else t.workDir.map Location.path
    let body := p.components.filter fun c => c != .root && c != .here
    front.map fun f =>
      let anchored := f.extend body
      if p.text.getLast? == some '/' then anchored.join ⟨[]⟩ else anchored

/-- An absolute path for any path: canonical if it denotes something, and otherwise counted from the
current directory. -/
def absolute (t : FileTree) (p : Path) : Path :=
  match t.canonical? p with
  | some l => l.path
  | none => (t.anchored? p).getD p

end FileTree

end FlatSol
