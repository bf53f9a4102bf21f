/-!
# Texts and byte offsets

A text is the list of its characters. Positions in a text count the bytes of its UTF-8 form, so a
character takes one to four of them, and a span is a half-open interval of such positions.
Main statements: cutting a text at a byte offset loses nothing, and an offset that closes a prefix
of the text is a character boundary.
-/

namespace FlatSol

abbrev Text := List Char

instance : LawfulBEq Text := inferInstance

/-- A half-open interval of byte offsets. -/
structure Span where
  start : Nat
  stop : Nat
deriving DecidableEq, Repr

namespace Text

/-! ### Byte offsets -/

/-- The number of bytes of the UTF-8 form of a text. -/
def byteSize : Text → Nat
  | [] => 0
  | c :: cs => c.utf8Size + byteSize cs

@[simp] theorem byteSize_nil : byteSize [] = 0 := rfl

@[simp] theorem byteSize_cons (c : Char) (cs : Text) :
    byteSize (c :: cs) = c.utf8Size + byteSize cs := rfl

@[simp] theorem byteSize_append (s t : Text) : byteSize (s ++ t) = byteSize s + byteSize t := by
  induction s with
  | nil => simp
  | cons c cs ih => simp [ih, Nat.add_assoc]

/-- The text from the first character that starts at offset `n` or later. -/
def dropBytes : Nat → Text → Text
  | _, [] => []
  | 0, cs => cs
  | n + 1, c :: cs => dropBytes (n + 1 - c.utf8Size) cs

/-- The characters that start before offset `n`. -/
def takeBytes : Nat → Text → Text
  | _, [] => []
  | 0, _ => []
  | n + 1, c :: cs => c :: takeBytes (n + 1 - c.utf8Size) cs

@[simp] theorem dropBytes_zero (t : Text) : dropBytes 0 t = t := by
  cases t <;> rfl

@[simp] theorem takeBytes_zero (t : Text) : takeBytes 0 t = [] := by
  cases t <;> rfl

theorem takeBytes_append_dropBytes (n : Nat) (t : Text) : takeBytes n t ++ dropBytes n t = t := by
  induction t generalizing n with
  | nil => cases n <;> rfl
  | cons c cs ih =>
    cases n with
    | zero => simp
    | succ n => simp [takeBytes, dropBytes, ih]

@[simp] theorem dropBytes_byteSize_append (s t : Text) : dropBytes (byteSize s) (s ++ t) = t := by
  induction s with
  | nil => simp
  | cons c cs ih =>
    have hc : 0 < c.utf8Size := Char.utf8Size_pos c
    obtain ⟨k, hk⟩ : ∃ k, byteSize (c :: cs) = k + 1 := ⟨c.utf8Size + byteSize cs - 1, by simp; omega⟩
    have hr : k + 1 - c.utf8Size = byteSize cs := by simp at hk; omega
    rw [hk, List.cons_append, dropBytes, hr, ih]

def slice (s : Span) (t : Text) : Text :=
  takeBytes (s.stop - s.start) (dropBytes s.start t)

/-- Whether an offset lies between two characters of the text, or at one of its ends. -/
def isBoundary : Nat → Text → Bool
  | 0, _ => true
  | _ + 1, [] => false
  | n + 1, c :: cs => decide (c.utf8Size ≤ n + 1) && isBoundary (n + 1 - c.utf8Size) cs

theorem isBoundary_byteSize_append (s t : Text) : isBoundary (byteSize s) (s ++ t) = true := by
  induction s with
  | nil => cases t <;> rfl
  | cons c cs ih =>
    have hc : 0 < c.utf8Size := Char.utf8Size_pos c
    obtain ⟨k, hk⟩ : ∃ k, byteSize (c :: cs) = k + 1 := ⟨c.utf8Size + byteSize cs - 1, by simp; omega⟩
    have hr : k + 1 - c.utf8Size = byteSize cs := by simp at hk; omega
    have hle : c.utf8Size ≤ k + 1 := by simp at hk; omega
    rw [hk, List.cons_append, isBoundary, hr, ih]
    simp [hle]

/-! ### Pieces -/

/-- The pieces between the occurrences of `sep`; a text without it is one piece. -/
def pieces (sep : Char) : Text → List Text
  | [] => [[]]
  | c :: cs =>
    if c = sep then [] :: pieces sep cs
    else
      match pieces sep cs with
      | [] => [[c]]
      | p :: ps => (c :: p) :: ps

/-- Texts written one after the other with `sep` between them. -/
def joinWith (sep : Text) : List Text → Text
  | [] => []
  | [t] => t
  | t :: u :: ts => t ++ sep ++ joinWith sep (u :: ts)

theorem pieces_ne_nil (sep : Char) (t : Text) : pieces sep t ≠ [] := by
  cases t with
  | nil => simp [pieces]
  | cons c cs =>
    rw [pieces]
    split
    · simp
    · split <;> simp

theorem joinWith_pieces (sep : Char) (t : Text) : joinWith [sep] (pieces sep t) = t := by
  induction t with
  | nil => rfl
  | cons c cs ih =>
    rw [pieces]
    split
    · next h =>
      cases hp : pieces sep cs with
      | nil => exact absurd hp (pieces_ne_nil sep cs)
      | cons p ps => rw [hp] at ih; simp [joinWith, ih, h]
    · cases hp : pieces sep cs with
      | nil => exact absurd hp (pieces_ne_nil sep cs)
      | cons p ps =>
        rw [hp] at ih
        cases ps with
        | nil => simpa [joinWith] using ih
        | cons q qs => simpa [joinWith] using ih

def startsWith (front t : Text) : Bool :=
  front.isPrefixOf t

end Text

end FlatSol
