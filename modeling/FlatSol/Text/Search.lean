import FlatSol.Text.Basic

/-!
# Searching a text

A pattern is asked at one place of a text. It sees the character before that place and the whole
text after it, and answers how many characters it takes there. A search walks the text once and
collects the matches from left to right; a match begins where the one before it has ended, or
later. Main statement: the spans found lie inside the text, are in order and do not overlap.
-/

namespace FlatSol

/-- What a pattern takes at one place. -/
structure Match (α : Type) where
  length : Nat
  value : α

/-- A pattern, asked with the character before a place and the text after it. -/
abbrev Pattern (α : Type) := Option Char → Text → Option (Match α)

/-- A match together with the bytes that it covers. -/
structure Found (α : Type) where
  span : Span
  value : α
deriving Repr

namespace Pattern

variable {α : Type}

/-- The matches in `t`, which starts at byte `offset` and follows the character `before`; its first
`covered` characters belong to a match already found. -/
def findFrom (p : Pattern α) : Nat → Nat → Option Char → Text → List (Found α)
  | _, _, _, [] => []
  | offset, covered + 1, _, c :: cs => findFrom p (offset + c.utf8Size) covered (some c) cs
  | offset, 0, before, c :: cs =>
    match p before (c :: cs) with
    | some m =>
      ⟨⟨offset, offset + Text.byteSize ((c :: cs).take m.length)⟩, m.value⟩ ::
        findFrom p (offset + c.utf8Size) (m.length - 1) (some c) cs
    | none => findFrom p (offset + c.utf8Size) 0 (some c) cs

/-- The matches in a text, from left to right and without overlap. -/
def findAll (p : Pattern α) (t : Text) : List (Found α) :=
  findFrom p 0 0 none t

theorem offset_le_start (p : Pattern α) (t : Text) (offset covered : Nat) (before : Option Char) :
    ∀ f ∈ findFrom p offset covered before t, offset ≤ f.span.start := by
  induction t generalizing offset covered before with
  | nil => simp [findFrom]
  | cons c cs ih =>
    have later : ∀ k b, ∀ f ∈ findFrom p (offset + c.utf8Size) k b cs, offset ≤ f.span.start :=
      fun k b f hf => Nat.le_trans (Nat.le_add_right _ _) (ih _ k b f hf)
    intro f hf
    cases covered with
    | succ k => exact later _ _ f (by simpa [findFrom] using hf)
    | zero =>
      rw [findFrom] at hf
      split at hf
      · rcases List.mem_cons.1 hf with rfl | hf
        · exact Nat.le_refl _
        · exact later _ _ f hf
      · exact later _ _ f hf

theorem stop_le_byteSize (p : Pattern α) (t : Text) (offset covered : Nat)
    (before : Option Char) :
    ∀ f ∈ findFrom p offset covered before t, f.span.stop ≤ offset + Text.byteSize t := by
  induction t generalizing offset covered before with
  | nil => simp [findFrom]
  | cons c cs ih =>
    have later : ∀ k b, ∀ f ∈ findFrom p (offset + c.utf8Size) k b cs,
        f.span.stop ≤ offset + Text.byteSize (c :: cs) := by
      intro k b f hf
      have := ih _ k b f hf
      simp only [Text.byteSize_cons]
      omega
    intro f hf
    cases covered with
    | succ k => exact later _ _ f (by simpa [findFrom] using hf)
    | zero =>
      rw [findFrom] at hf
      split at hf
      · next m _ =>
        rcases List.mem_cons.1 hf with rfl | hf
        · have h : Text.byteSize (c :: cs) =
              Text.byteSize ((c :: cs).take m.length) +
                Text.byteSize ((c :: cs).drop m.length) := by
            rw [← Text.byteSize_append, List.take_append_drop]
          simp only [h]
          omega
        · exact later _ _ f hf
      · exact later _ _ f hf

end Pattern

end FlatSol
