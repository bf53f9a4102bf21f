import FlatSol.Flatten.Render
import FlatSol.Proofs.Graph.Closure
import FlatSol.Proofs.Source.Spans

/-!
# Which imports are cut out of which file

The listing of a flattened text: its files in their order, each with the spans of the imports that
are not kept.
-/

namespace FlatSol

open Text

namespace Render

/-- The files, each with the spans of its imports to be cut out, and with the unresolved statements
seen so far. -/
def listing (dedupe : Bool) : List Text → List SourceFile → List (SourceFile × List Span)
  | _, [] => []
  | seen, f :: fs =>
    (f, (strips dedupe f.text seen f.imports).1) ::
      listing dedupe (strips dedupe f.text seen f.imports).2 fs

theorem map_fst_listing (dedupe : Bool) (seen : List Text) (files : List SourceFile) :
    (listing dedupe seen files).map Prod.fst = files := by
  induction files generalizing seen with
  | nil => rfl
  | cons f fs ih => exact congrArg _ (ih _)

theorem portions_eq (dedupe : Bool) (seen : List Text) (files : List SourceFile) :
    portions dedupe seen files =
      (listing dedupe seen files).map fun l => ⟨l.1.path, Source.split l.1.text l.2⟩ := by
  induction files generalizing seen with
  | nil => rfl
  | cons f fs ih => exact congrArg _ (ih _)

theorem exists_split_of_mem_portions {dedupe : Bool} {seen : List Text} {files : List SourceFile} :
    ∀ p ∈ portions dedupe seen files, ∃ t strip, p.parts = Source.split t strip := by
  rw [portions_eq]
  intro p hp
  obtain ⟨l, -, rfl⟩ := List.mem_map.1 hp
  exact ⟨_, _, rfl⟩

def unresolved (text : Text) (imports : List (ImportDirective × Resolution)) : List Text :=
  imports.filterMap fun i =>
    match i.2 with
    | .resolved _ => none
    | .unresolved _ => some (i.1.statement text)

/-- The statements seen behind some imports are those seen before and the unresolved ones. -/
theorem mem_strips_seen {dedupe : Bool} {text : Text} {seen : List Text}
    {imports : List (ImportDirective × Resolution)} {st : Text} :
    st ∈ (strips dedupe text seen imports).2 ↔ st ∈ seen ∨ st ∈ unresolved text imports := by
  induction imports generalizing seen with
  | nil => simp [strips, unresolved]
  | cons i is ih =>
    obtain ⟨d, r⟩ := i
    cases r with
    | resolved l => simpa [strips, unresolved] using ih
    | unresolved why =>
      simp only [strips, unresolved, List.filterMap_cons, List.mem_cons]
      split
      · next hseen =>
        rw [ih]
        constructor
        · rintro (h | h)
          · exact .inl h
          · exact .inr (.inr h)
        · rintro (h | rfl | h)
          · exact .inl h
          · exact .inl hseen
          · exact .inr h
      · rw [ih, List.mem_cons]
        constructor
        · rintro ((rfl | h) | h)
          · exact .inr (.inl rfl)
          · exact .inl h
          · exact .inr (.inr h)
        · rintro (h | rfl | h)
          · exact .inl (.inr h)
          · exact .inl (.inl rfl)
          · exact .inr h

theorem exists_append_cons_iff {α : Type} {x : α} {xs : List α} {p : List α → α → Prop} :
    (∃ before a after, x :: xs = before ++ a :: after ∧ p before a) ↔
      p [] x ∨ ∃ before a after, xs = before ++ a :: after ∧ p (x :: before) a := by
  constructor
  · rintro ⟨before, a, after, h, hp⟩
    cases before with
    | nil =>
      obtain ⟨rfl, -⟩ := List.cons.inj h
      exact .inl hp
    | cons b bs =>
      obtain ⟨rfl, rfl⟩ := List.cons.inj h
      exact .inr ⟨bs, a, after, rfl, hp⟩
  · rintro (hp | ⟨before, a, after, rfl, hp⟩)
    · exact ⟨[], x, xs, rfl, hp⟩
    · exact ⟨x :: before, a, after, rfl, hp⟩

/-- Whether an import does not stay, behind the unresolved statements `earlier`: a resolved one
never does, and an unresolved one does not stay twice if statements are written only once. -/
def leaves (dedupe : Bool) (text : Text) (earlier : List Text) :
    ImportDirective × Resolution → Bool
  | (_, .resolved _) => true
  | (d, .unresolved _) => dedupe && decide (d.statement text ∈ earlier)

theorem leaves_congr {dedupe : Bool} {text : Text} {a b : List Text}
    (h : ∀ st, st ∈ a ↔ st ∈ b) (i : ImportDirective × Resolution) :
    leaves dedupe text a i = leaves dedupe text b i := by
  obtain ⟨d, r⟩ := i
  cases r with
  | resolved l => rfl
  | unresolved why => simp only [leaves, h]

theorem mem_strips_iff {dedupe : Bool} {text : Text} {seen : List Text}
    {imports : List (ImportDirective × Resolution)} {s : Span} :
    s ∈ (strips dedupe text seen imports).1 ↔
      ∃ before i after, imports = before ++ i :: after ∧
        (leaves dedupe text (seen ++ unresolved text before) i = true ∧ i.1.span = s) := by
  induction imports generalizing seen with
  | nil => simp [strips]
  | cons i is ih =>
    rw [exists_append_cons_iff]
    obtain ⟨d, r⟩ := i
    have hnil : unresolved text [] = [] := rfl
    rw [hnil, List.append_nil]
    cases r with
    | resolved l =>
      have hcons : ∀ before, unresolved text ((d, .resolved l) :: before) =
          unresolved text before := fun _ => rfl
      have hleaves : leaves dedupe text seen (d, .resolved l) = true := rfl
      simp only [strips, List.mem_cons, ih, hcons, hleaves, true_and, eq_comm]
    | unresolved why =>
      have hcons : ∀ before, unresolved text ((d, .unresolved why) :: before) =
          d.statement text :: unresolved text before := fun _ => rfl
      by_cases hseen : d.statement text ∈ seen
      · have hrest : ∀ before i, leaves dedupe text (seen ++ d.statement text ::
            unresolved text before) i = leaves dedupe text (seen ++ unresolved text before) i := by
          refine fun before i => leaves_congr (fun st => ?_) i
          simp only [List.mem_append, List.mem_cons]
          constructor
          · rintro (h | rfl | h)
            · exact .inl h
            · exact .inl hseen
            · exact .inr h
          · rintro (h | h)
            · exact .inl h
            · exact .inr (.inr h)
        have hleaves : leaves dedupe text seen (d, .unresolved why) = dedupe := by
          simp [leaves, hseen]
        simp only [strips, if_pos hseen, hcons, hrest, hleaves]
        cases dedupe with
        | true => simp only [if_true, List.mem_cons, ih, true_and, eq_comm]
        | false => simp [ih]
      · have hrest : ∀ before i, leaves dedupe text (seen ++ d.statement text ::
            unresolved text before) i =
              leaves dedupe text (d.statement text :: seen ++ unresolved text before) i := by
          refine fun before i => leaves_congr (fun st => ?_) i
          simp only [List.mem_append, List.mem_cons]
          constructor
          · rintro (h | h | h)
            · exact .inl (.inr h)
            · exact .inl (.inl h)
            · exact .inr h
          · rintro ((h | h) | h)
            · exact .inr (.inl h)
            · exact .inl h
            · exact .inr (.inr h)
        have hleaves : leaves dedupe text seen (d, .unresolved why) = false := by
          simp [leaves, hseen]
        simp only [strips, if_neg hseen, hcons, hrest, hleaves, ih]
        simp

/-- The spans cut out of a file are those of its imports that do not stay behind the files before
it. -/
theorem mem_listing {dedupe : Bool} {seen : List Text} {files : List SourceFile}
    {l : SourceFile × List Span} (h : l ∈ listing dedupe seen files) :
    ∃ before after, files = before ++ l.1 :: after ∧
      ∀ s, s ∈ l.2 ↔ ∃ former i latter, l.1.imports = former ++ i :: latter ∧
        (leaves dedupe l.1.text (seen ++ (before.flatMap fun f => unresolved f.text f.imports) ++
          unresolved l.1.text former) i = true ∧ i.1.span = s) := by
  induction files generalizing seen with
  | nil => simp [listing] at h
  | cons f fs ih =>
    rcases List.mem_cons.1 h with rfl | h
    · refine ⟨[], fs, rfl, fun s => ?_⟩
      rw [mem_strips_iff, List.flatMap_nil, List.append_nil]
    · obtain ⟨before, after, rfl, hspans⟩ := ih h
      refine ⟨f :: before, after, rfl, fun s => ?_⟩
      rw [hspans]
      have hleaves : ∀ former i,
          leaves dedupe l.1.text ((strips dedupe f.text seen f.imports).2 ++
              (before.flatMap fun f => unresolved f.text f.imports) ++
              unresolved l.1.text former) i =
            leaves dedupe l.1.text (seen ++
              ((f :: before).flatMap fun f => unresolved f.text f.imports) ++
              unresolved l.1.text former) i := by
        refine fun former i => leaves_congr (fun st => ?_) i
        simp only [List.mem_append, mem_strips_seen, List.flatMap_cons, or_assoc]
      simp only [hleaves]

end Render

end FlatSol
