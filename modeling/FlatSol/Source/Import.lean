import FlatSol.Source.Mask
import FlatSol.Text.Line
import FlatSol.Text.Search
import FlatSol.Text.Word

/-!
# Import statements

An import statement starts a line of the masked text, carries one quoted path and ends at the next
semicolon, so that a statement written over several lines is one statement. Whatever else stands
between the keyword, the path and the semicolon is not looked at.
-/

namespace FlatSol

inductive ImportKind
  /-- It starts with `./` or `../` and counts from the directory of the importing file. -/
  | relative
  | absolute
  /-- Anything else: it counts from the project root, or names a package. -/
  | bare
deriving DecidableEq, Repr

def ImportKind.of (path : Text) : ImportKind :=
  if Text.startsWith ['.', '/'] path || Text.startsWith ['.', '.', '/'] path then .relative
  else if Text.startsWith ['/'] path then .absolute
  else .bare

structure ImportDirective where
  path : Text
  /-- The bytes of the statement, with the margin before it and the rest of its last line. -/
  span : Span
deriving DecidableEq, Repr

namespace ImportDirective

def kind (d : ImportDirective) : ImportKind :=
  .of d.path

/-- The statement as it stands in the text, without the white space around it. -/
def statement (d : ImportDirective) (t : Text) : Text :=
  Text.trim (Text.slice d.span t)

end ImportDirective

namespace Source

def importKeyword : Text := ['i', 'm', 'p', 'o', 'r', 't']

/-- Matches an import statement with its margin, and gives the quoted path. -/
def importStatement : Pattern Text := fun before cs => do
  if !startsLine before then none
  let afterKeyword ← importKeyword.isPrefixOf? (cs.dropWhile isMargin)
  if afterKeyword.head?.any isWord then none
  match afterKeyword.dropWhile fun c => !(isQuote c || c == ';') with
  | [] => none
  | opening :: inside =>
    if !isQuote opening then none
    let path := inside.takeWhile fun c => !isQuote c
    if path.isEmpty then none
    match inside.drop path.length with
    | [] => none
    | _ :: outside =>
      let behind ← [';'].isPrefixOf? (outside.dropWhile (· ≠ ';'))
      some ⟨cs.length - behind.length, path⟩

/-- The import statements of a source text, in order. They are looked for in the masked text, whose
offsets are those of the text itself. -/
def imports (t : Text) : List ImportDirective :=
  (importStatement.findAll (mask t)).map fun f =>
    ⟨f.value, f.span.start, Text.lineRestEnd t f.span.stop⟩

end Source

end FlatSol
