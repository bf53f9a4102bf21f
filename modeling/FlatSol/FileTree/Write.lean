import FlatSol.FileTree.Walk

/-!
# Writing files

Making directories, and writing a file in one step: its contents go to a new file in the directory
of the destination, which then takes the destination's name. Until then nothing but directories on
the way is made, so a failed write leaves all files and links as they were.
-/

namespace FlatSol.FileTree

/-- The pieces of a path before its last one, and the last one; slashes at its end do not count. -/
def splitLast (p : Path) : List Text × Option Text :=
  let named := p.pieces.reverse.dropWhile List.isEmpty
  (named.tail.reverse, named.head?)

def isName (piece : Text) : Bool :=
  piece != [] && piece != ['.'] && piece != ['.', '.']

def parentLocation (t : FileTree) (p : Path) : Except Fault Location := do
  checkPath p
  let l ← walk t .follow maxLinks (← t.origin p) ((splitLast p).1.map Step.ofPiece)
  if t.get? l = some .dir then .ok l else .error .notDirectory

/-- The location that a path gives to a new entry; `unnamed` is the fault of a path that does not end
in a name. -/
def place (t : FileTree) (unnamed : Fault) (p : Path) : Except Fault Location := do
  let parent ← t.parentLocation p
  match (splitLast p).2 with
  | none => .error unnamed
  | some name =>
    if !isName name then .error unnamed
    else if maxNameSize < Text.byteSize name then .error .nameTooLong
    else .ok (parent ++ [name])

/-! ### Directories -/

def makeDir (t : FileTree) (p : Path) : Except Fault FileTree := do
  let l ← t.place .alreadyExists p
  if (t.get? l).isSome then .error .alreadyExists else .ok (t.set l .dir)

/-- The tree with a directory and all that is missing on the way to it. What was made before a fault
stays. -/
def makeDirs (t : FileTree) (p : Path) : FileTree × Except Fault Unit :=
  if p.text = [] then (t, .ok ())
  else
    match t.makeDir p with
    | .ok made => (made, .ok ())
    | .error .notFound =>
      match _h : p.parent? with
      | none => (t, .error .notFound)
      | some parent =>
        match makeDirs t parent with
        | (made, .error fault) => (made, .error fault)
        | (made, .ok ()) =>
          match made.makeDir p with
          | .ok final => (final, .ok ())
          | .error fault => (made, if made.isDir p then .ok () else .error fault)
    | .error fault => (t, if t.isDir p then .ok () else .error fault)
termination_by p.text.length
decreasing_by exact Path.length_parent? _h

/-- Makes a directory unless the path denotes something already. -/
def ensureDir (t : FileTree) (p : Path) : FileTree × Except IoError Unit :=
  if t.pathExists p then (t, .ok ())
  else
    match t.makeDirs p with
    | (made, .ok ()) => (made, .ok ())
    | (made, .error fault) => (made, .error ⟨.createDirectory, p, fault⟩)

/-! ### Files -/

/-- Whether new files can be made in the directory that a path denotes. -/
def checkDir (t : FileTree) (p : Path) : Except Fault Unit := do
  let l ← t.resolve .follow p
  if t.get? l = some .dir then .ok () else .error .notDirectory

/-- The tree with a regular file in place of whatever bears the name that the path gives; a link
there is replaced itself, a directory is not. -/
def replaceFile (t : FileTree) (p : Path) (bytes : ByteArray) : Except Fault FileTree := do
  let l ← t.place .busy p
  if p.text.getLast? == some '/' then .error .notDirectory
  else if t.get? l = some .dir then .error .isDirectory
  else .ok (t.set l (.file bytes))

/-- The directory that a path is written in, as a path. -/
def writeDir (p : Path) : Path :=
  match p.parent? with
  | some parent => if parent.text.isEmpty then ⟨['.']⟩ else parent
  | none => ⟨['.']⟩

/-- Writes a text to a path in one step. -/
def writeAtomic (t : FileTree) (p : Path) (text : Text) : FileTree × Except IoError Unit :=
  match t.ensureDir (writeDir p) with
  | (made, .error e) => (made, .error e)
  | (made, .ok ()) =>
    match made.checkDir (writeDir p) with
    | .error fault => (made, .error ⟨.createTemporary, writeDir p, fault⟩)
    | .ok () =>
      match made.replaceFile p (Text.toBytes text) with
      | .ok written => (written, .ok ())
      | .error fault => (made, .error ⟨.writeFile, p, fault⟩)

/-! ### Plain changes -/

/-- The tree with a file written in place: links to it are followed. -/
def putFile (t : FileTree) (p : Path) (bytes : ByteArray) : Except Fault FileTree := do
  let l ← t.resolve .create p
  match t.get? l with
  | some .dir => .error .isDirectory
  | _ => .ok (t.set l (.file bytes))

def putLink (t : FileTree) (p : Path) (target : Text) : Except Fault FileTree := do
  let l ← t.place .alreadyExists p
  if (t.get? l).isSome then .error .alreadyExists else .ok (t.set l (.link target))

/-- The tree without the file, the link or the whole directory that a path leads to. -/
def delete (t : FileTree) (p : Path) : Except Fault FileTree := do
  let l ← t.resolve .keep p
  .ok (t.remove l)

end FlatSol.FileTree
