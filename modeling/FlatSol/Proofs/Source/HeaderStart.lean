import FlatSol.Proofs.Source.PragmaLine
import FlatSol.Proofs.Text.Place

/-!
# Where header lines begin

A licence line begins at its mark, the opening of a line comment with the tag behind it, if only a
margin stands before that on the line. A pragma begins at its keyword, if that starts a word and white
space and a word stand behind it. At the end of a text the word may be missing, as another text may
give it; so a text where no pragma begins can be continued on a new line by any other such text.
-/

namespace FlatSol

open Text

namespace Source

/-! ### Licence lines -/

/-- Whether a licence mark stands at the front of a text. -/
def startsMark (t : Text) : Bool :=
  match ['/', '/'].isPrefixOf? t with
  | none => false
  | some r => (licenseMark.isPrefixOf? (r.dropWhile isMargin)).isSome

/-- Whether a licence line has its mark at the front of a text, with `line` before it. -/
def beginsLicense (line t : Text) : Bool :=
  line.all isMargin && startsMark t

theorem lineFeed_notMem_of_isMargin {margin : Text} (h : ∀ c ∈ margin, isMargin c = true) :
    '\n' ∉ margin :=
  fun hmem => absurd (h '\n' hmem) (by decide)

theorem exists_licenseMark : (∃ u, licenseMark = 'S' :: u) ∧ ∃ u, licenseMark = u ++ [':'] :=
  ⟨⟨licenseMark.tail, by decide⟩, licenseMark.dropLast, by decide⟩

theorem startsMark_eq_true_iff {t : Text} : startsMark t = true ↔
    ∃ margin r, (∀ c ∈ margin, isMargin c = true) ∧
      t = '/' :: '/' :: margin ++ licenseMark ++ r := by
  unfold startsMark
  constructor
  · intro h
    cases hk : ['/', '/'].isPrefixOf? t with
    | none => simp [hk] at h
    | some r =>
      rw [isPrefixOf?_eq_some_iff] at hk
      obtain ⟨margin, u, rfl, hmargin, -, hdrop, -⟩ := exists_takeWhile_append (p := isMargin) (t := r)
      rw [isPrefixOf?_eq_some_iff.2 hk] at h
      simp only [hdrop] at h
      obtain ⟨v, hv⟩ := Option.isSome_iff_exists.1 h
      rw [isPrefixOf?_eq_some_iff] at hv
      exact ⟨margin, v, hmargin, by rw [hk, hv]; simp⟩
  · rintro ⟨margin, r, hmargin, rfl⟩
    have hslashes : ['/', '/'].isPrefixOf? ('/' :: '/' :: margin ++ licenseMark ++ r) =
        some (margin ++ (licenseMark ++ r)) := isPrefixOf?_eq_some_iff.2 (by simp)
    have hdrop : (licenseMark ++ r).dropWhile isMargin = licenseMark ++ r := by
      obtain ⟨⟨u, hu⟩, -⟩ := exists_licenseMark
      rw [hu, List.cons_append, List.dropWhile_cons_of_neg (by decide)]
    have hmark : licenseMark.isPrefixOf? (licenseMark ++ r) = some r :=
      isPrefixOf?_eq_some_iff.2 rfl
    rw [hslashes]
    simp only [List.dropWhile_append_of_pos hmargin, hdrop, hmark, Option.isSome_some]

/-- A mark stands on one line and ends in a character of its own. -/
theorem exists_of_startsMark {t : Text} (h : startsMark t = true) :
    ∃ k r, '\n' ∉ '/' :: k ∧ t = '/' :: k ++ ':' :: r ∧
      ∀ r', startsMark ('/' :: k ++ ':' :: r') = true := by
  obtain ⟨margin, r, hmargin, rfl⟩ := startsMark_eq_true_iff.1 h
  obtain ⟨-, u, hu⟩ := exists_licenseMark
  have hmark : '\n' ∉ licenseMark := by decide
  refine ⟨'/' :: margin ++ u, r, ?_, by simp [hu], fun r' => ?_⟩
  · intro hmem
    simp only [List.cons_append, List.mem_cons, List.mem_append] at hmem
    rcases hmem with hmem | hmem | hmem | hmem
    · exact absurd hmem (by decide)
    · exact absurd hmem (by decide)
    · exact lineFeed_notMem_of_isMargin hmargin hmem
    · exact hmark (by rw [hu]; exact List.mem_append_left _ hmem)
  · exact startsMark_eq_true_iff.2 ⟨margin, r', hmargin, by simp [hu]⟩

theorem beginning_license : Beginning beginsLicense where
  head h := by
    obtain ⟨k, r, -, rfl, -⟩ := exists_of_startsMark (Bool.and_eq_true_iff.1 h).2
    exact ⟨'/', _, rfl, rfl⟩
  of_append_lineFeed {l t u} h := by
    obtain ⟨hline, hmark⟩ := Bool.and_eq_true_iff.1 h
    obtain ⟨k, r, hk, hr, hmark'⟩ := exists_of_startsMark hmark
    have hplain : '\n' ∉ '/' :: k ++ [':'] := by simpa using hk
    have happend : '/' :: k ++ [':'] ++ r = t ++ '\n' :: u := by rw [hr]; simp
    obtain ⟨z, rfl, -⟩ := exists_of_append_eq_append_cons happend hplain
    refine Bool.and_eq_true_iff.2 ⟨hline, ?_⟩
    simpa using hmark' z
  append_lineFeed h := by
    obtain ⟨hline, hmark⟩ := Bool.and_eq_true_iff.1 h
    obtain ⟨k, r, -, rfl, hmark'⟩ := exists_of_startsMark hmark
    refine Bool.and_eq_true_iff.2 ⟨hline, ?_⟩
    simpa using hmark' (r ++ ['\n'])
  of_padded hpad h := by
    obtain ⟨hline, hmark⟩ := Bool.and_eq_true_iff.1 h
    obtain ⟨k, r, hk, rfl, hmark'⟩ := exists_of_startsMark hmark
    obtain ⟨r', rfl, -⟩ := hpad.exists_of_line hk rfl
    exact Bool.and_eq_true_iff.2 ⟨hline, hmark' r'⟩

/-- What the pattern for licence lines takes of a text: its first line with the line feed. -/
def firstLine (t : Text) : Match Text :=
  let line := t.takeWhile (· ≠ '\n')
  ⟨line.length + ((t.drop line.length).take 1).length, trim line⟩

theorem firstLine_append {u v : Text} (hu : '\n' ∉ u) (hv : ∀ c ∈ v.head?, c = '\n') :
    firstLine (u ++ v) = ⟨(u ++ v.take 1).length, trim u⟩ := by
  have hplain : ∀ c ∈ u, decide (c ≠ '\n') = true := by
    intro c hc
    rw [decide_eq_true_eq]
    rintro rfl
    exact hu hc
  have htake : (u ++ v).takeWhile (fun c => decide (c ≠ '\n')) = u := by
    rw [List.takeWhile_append_of_pos hplain]
    cases v with
    | nil => simp
    | cons c cs =>
      obtain rfl : c = '\n' := hv c rfl
      simp
  simp only [firstLine, htake, List.drop_left, List.length_append]

theorem firstLine_pos {t : Text} (h : t ≠ []) : 0 < (firstLine t).length := by
  cases t with
  | nil => exact absurd rfl h
  | cons c cs =>
    by_cases hc : c = '\n'
    · simp [firstLine, hc]
    · simp [firstLine, hc]

theorem licenseLine_eq_some_iff {before : Option Char} {t : Text} {m : Match Text} :
    licenseLine before t = some m ↔ startsLine before = true ∧
      startsMark (t.dropWhile isMargin) = true ∧ firstLine t = m := by
  unfold licenseLine startsMark
  cases startsLine before with
  | false => simp
  | true =>
    cases hslashes : ['/', '/'].isPrefixOf? (t.dropWhile isMargin) with
    | none => simp
    | some r =>
      cases hmark : licenseMark.isPrefixOf? (r.dropWhile isMargin) with
      | none => simp only [hmark, Option.bind_eq_bind, Option.bind_some, Option.bind_none]; simp
      | some v =>
        simp only [hmark, Option.bind_eq_bind, Option.bind_some]
        exact ⟨fun h => ⟨trivial, rfl, Option.some.inj h⟩, fun h => congrArg some h.2.2⟩

/-- Where the pattern takes a licence line, a licence line begins behind the margin. -/
theorem exists_of_licenseLine_eq_some {a b : Text} {m : Match Text}
    (h : licenseLine a.getLast? b = some m) : startsLine a.getLast? = true ∧
      ∃ margin u, b = margin ++ u ∧ beginsLicense (lastLine (a ++ margin)) u = true := by
  obtain ⟨hline, hmark, -⟩ := licenseLine_eq_some_iff.1 h
  obtain ⟨margin, u, rfl, hmargin, -, hdrop, -⟩ := exists_takeWhile_append (p := isMargin) (t := b)
  rw [hdrop] at hmark
  refine ⟨hline, margin, u, rfl, ?_⟩
  rw [lastLine_append_of_startsLine hline,
    lastLine_of_notMem (lineFeed_notMem_of_isMargin hmargin)]
  exact Bool.and_eq_true_iff.2 ⟨List.all_eq_true.2 hmargin, hmark⟩

theorem findFrom_license_of_lacks {a t : Text} (ha : startsLine a.getLast? = true)
    (h : Lacks beginsLicense t) : licenseLine.findFrom (byteSize a) 0 a.getLast? t = [] := by
  refine Pattern.findFrom_eq_nil fun x y hxy => ?_
  cases hm : licenseLine (a ++ x).getLast? y with
  | none => rfl
  | some m =>
    obtain ⟨-, margin, u, rfl, hu⟩ := exists_of_licenseLine_eq_some hm
    have hplace := h (x ++ margin) u (by rw [hxy, List.append_assoc])
    rw [List.append_assoc, lastLine_append_of_startsLine ha, hplace] at hu
    exact Bool.noConfusion hu

theorem licenses_of_lacks {t : Text} (h : Lacks beginsLicense t) : licenses t = [] :=
  findFrom_license_of_lacks (a := []) rfl h

theorem trimEnd_mark (gap t : Text) : trimEnd ('/' :: '/' :: gap ++ licenseMark ++ t) =
    '/' :: '/' :: gap ++ licenseMark ++ trimEnd t := by
  obtain ⟨-, tag, htag⟩ := exists_licenseMark
  have hcolon : ∀ u : Text, trimEnd (':' :: u) = ':' :: trimEnd u := fun u =>
    trimEnd_cons_of_not fun hblank => absurd hblank.1 (by decide)
  have htext : ∀ u : Text, '/' :: '/' :: gap ++ licenseMark ++ u =
      ('/' :: '/' :: gap ++ tag) ++ ':' :: u := fun u => by simp [htag]
  rw [htext, trimEnd_append_of_ne (by rw [hcolon]; exact List.cons_ne_nil _ _), hcolon, htext]

/-- A licence line is given from its mark on, without the white space at its end. -/
theorem exists_license_value {t : Text} {f : Found Text} (h : f ∈ licenses t) :
    ∃ gap line, (∀ c ∈ gap, isMargin c = true) ∧ '\n' ∉ line ∧
      f.value = '/' :: '/' :: gap ++ licenseMark ++ trimEnd line := by
  obtain ⟨a, b, m, -, hm, rfl⟩ := Pattern.exists_of_mem_findAll h
  obtain ⟨-, hmark, rfl⟩ := licenseLine_eq_some_iff.1 hm
  obtain ⟨margin, u, rfl, hmargin, -, hdrop, -⟩ := exists_takeWhile_append (p := isMargin) (t := b)
  rw [hdrop] at hmark
  obtain ⟨gap, r, hgap, rfl⟩ := startsMark_eq_true_iff.1 hmark
  obtain ⟨line, rest, rfl, hplain, -, -, hrest⟩ :=
    exists_takeWhile_append (p := fun c => decide (c ≠ '\n')) (t := r)
  have hline : '\n' ∉ line := fun hmem => by simpa using hplain '\n' hmem
  have htag : '\n' ∉ licenseMark := by decide
  have hfirst : '\n' ∉ margin ++ ('/' :: '/' :: gap ++ licenseMark ++ line) := by
    have hm' := lineFeed_notMem_of_isMargin hmargin
    have hg' := lineFeed_notMem_of_isMargin hgap
    simp [hm', hg', htag, hline]
  have htext : margin ++ ('/' :: '/' :: gap ++ licenseMark ++ (line ++ rest)) =
      margin ++ ('/' :: '/' :: gap ++ licenseMark ++ line) ++ rest := by simp
  have hblank : ∀ c ∈ margin, isBlank c = true := fun c hc => isBlank_of_isMargin (hmargin c hc)
  refine ⟨gap, line, hgap, hline, ?_⟩
  rw [htext, firstLine_append hfirst fun c hc => by simpa using hrest c hc]
  show trim (margin ++ _) = _
  rw [trim, trimStart, List.dropWhile_append_of_pos hblank, ← trimEnd_mark]
  rfl

/-- A licence line that is given is one as it stands. -/
theorem license_value {t : Text} {f : Found Text} (h : f ∈ licenses t) :
    startsMark f.value = true ∧ trim f.value = f.value ∧ '\n' ∉ f.value := by
  obtain ⟨gap, line, hgap, hline, hvalue⟩ := exists_license_value h
  have htag : '\n' ∉ licenseMark := by decide
  have hend := notMem_trimEnd hline
  have hg' := lineFeed_notMem_of_isMargin hgap
  rw [hvalue]
  refine ⟨startsMark_eq_true_iff.2 ⟨gap, trimEnd line, hgap, rfl⟩, ?_, ?_⟩
  · show trimEnd ('/' :: '/' :: gap ++ licenseMark ++ trimEnd line) = _
    rw [trimEnd_mark, trimEnd_trimEnd]
  · simp [hg', htag, hend]

/-- A licence line ends behind its line feed, or at the end of the text. -/
theorem exists_of_mem_licenses {t : Text} {f : Found Text} (h : f ∈ licenses t) :
    ∃ a line b, t = a ++ line ++ b ∧ startsLine a.getLast? = true ∧
      f.span = ⟨byteSize a, byteSize (a ++ line)⟩ ∧
        ((b = [] ∧ '\n' ∉ line) ∨ ∃ u, line = u ++ ['\n'] ∧ '\n' ∉ u) := by
  obtain ⟨a, b, m, rfl, hm, rfl⟩ := Pattern.exists_of_mem_findAll h
  obtain ⟨hline, -, rfl⟩ := licenseLine_eq_some_iff.1 hm
  obtain ⟨u, v, rfl, hu, -, -, hv⟩ :=
    exists_takeWhile_append (p := fun c => decide (c ≠ '\n')) (t := b)
  have hplain : '\n' ∉ u := fun hmem => by simpa using hu '\n' hmem
  have hfirst := firstLine_append hplain fun c hc => by simpa using hv c hc
  have hsplit : u ++ v = u ++ v.take 1 ++ v.drop 1 := by
    rw [List.append_assoc, List.take_append_drop]
  have htake : (u ++ v).take (firstLine (u ++ v)).length = u ++ v.take 1 := by
    rw [hfirst, hsplit]
    exact List.take_left ..
  simp only [htake, byteSize_append]
  cases v with
  | nil => exact ⟨a, u, [], by simp, hline, by simp, .inl ⟨rfl, hplain⟩⟩
  | cons c cs =>
    obtain rfl : c = '\n' := by simpa using hv c rfl
    exact ⟨a, u ++ ['\n'], cs, by simp, hline, by simp, .inr ⟨u, rfl, hplain⟩⟩

theorem byteSize_lastLine_le (t : Text) : byteSize (lastLine t) ≤ byteSize t := by
  rcases eq_lastLine_or_exists t with h | ⟨u, h⟩
  · exact Nat.le_of_eq (congrArg byteSize h.symm)
  · rw [congrArg byteSize h, byteSize_append, byteSize_cons]
    omega

/-- Every licence line of a text is found. -/
theorem covers_of_beginsLicense {a b : Text} (h : beginsLicense (lastLine a) b = true) :
    covers ((licenses (a ++ b)).map Found.span) (byteSize a) = true := by
  obtain ⟨hline, hmark⟩ := Bool.and_eq_true_iff.1 h
  have hmargin : ∀ c ∈ lastLine a, isMargin c = true := List.all_eq_true.1 hline
  obtain ⟨c, u, rfl, hc⟩ := beginning_license.head h
  obtain ⟨z, hz, hstart⟩ : ∃ z, a = z ++ lastLine a ∧ startsLine z.getLast? = true := by
    rcases eq_lastLine_or_exists a with ha | ⟨z, ha⟩
    · exact ⟨[], ha, rfl⟩
    · exact ⟨z ++ ['\n'], by simpa using ha, by simp [startsLine]⟩
  have hne : lastLine a ++ c :: u ≠ [] := by simp
  have hdrop : (lastLine a ++ c :: u).dropWhile isMargin = c :: u := by
    have hcm : isMargin c = false := by
      rw [Bool.eq_false_iff]
      intro hm
      rw [isBlank_of_isMargin hm] at hc
      exact Bool.noConfusion hc
    rw [List.dropWhile_append_of_pos hmargin, List.dropWhile_cons_of_neg (by simp [hcm])]
  have hmatch : licenseLine z.getLast? (lastLine a ++ c :: u) =
      some (firstLine (lastLine a ++ c :: u)) :=
    licenseLine_eq_some_iff.2 ⟨hstart, by rw [hdrop, hmark], rfl⟩
  obtain ⟨f, hf, hle, hlt⟩ := Pattern.exists_covering hmatch (firstLine_pos hne) hne
  rw [← List.append_assoc, ← hz] at hf
  have hsize : byteSize a = byteSize z + byteSize (lastLine a) := by
    rw [congrArg byteSize hz, byteSize_append]
  refine covers_eq_true_iff.2 ⟨f.span, List.mem_map_of_mem hf, by omega, ?_⟩
  obtain ⟨x, line, y, htext, -, hspan, hend⟩ := exists_of_mem_licenses hf
  rw [hspan] at hlt ⊢
  -- a line that ended before the place would end before the margin
  by_contra hstop
  obtain ⟨w, rfl, hw⟩ := exists_append_of_byteSize_le htext.symm (Nat.le_of_not_lt hstop)
  rcases hend with ⟨rfl, -⟩ | ⟨v, rfl, -⟩
  · simp at hw
  · have hlast : lastLine (x ++ (v ++ ['\n']) ++ w) = lastLine w := by
      have happend : x ++ (v ++ ['\n']) ++ w = (x ++ v) ++ '\n' :: w := by simp
      rw [happend, lastLine_append_lineFeed]
    have hle' := byteSize_lastLine_le w
    rw [hlast, byteSize_append _ w] at hsize
    simp only at hlt
    omega

theorem lacks_of_licenses_eq_nil {t : Text} (h : licenses t = []) : Lacks beginsLicense t := by
  rintro a b rfl
  rw [Bool.eq_false_iff]
  intro hbegins
  have hcover := covers_of_beginsLicense hbegins
  rw [h] at hcover
  exact Bool.noConfusion hcover

/-- A licence line in front of a text without one is found, with its line feed. -/
theorem licenses_append_lineFeed {k t : Text} (hmark : startsMark k = true) (htrim : trim k = k)
    (hk : '\n' ∉ k) (ht : Lacks beginsLicense t) :
    licenses (k ++ '\n' :: t) = [⟨⟨0, byteSize (k ++ ['\n'])⟩, k⟩] := by
  have hfirst : firstLine (k ++ '\n' :: t) = ⟨(k ++ ['\n']).length, k⟩ := by
    rw [firstLine_append hk (by simp), htrim]
    rfl
  have hstart : startsMark ((k ++ '\n' :: t).dropWhile isMargin) = true := by
    obtain ⟨gap, r, hgap, rfl⟩ := startsMark_eq_true_iff.1 hmark
    rw [List.append_assoc, List.append_assoc, List.cons_append,
      List.dropWhile_cons_of_neg (by decide)]
    exact startsMark_eq_true_iff.2 ⟨gap, r ++ '\n' :: t, hgap, by simp⟩
  have hmatch : licenseLine none (k ++ ['\n'] ++ t) = some ⟨(k ++ ['\n']).length, k⟩ := by
    rw [List.append_assoc]
    exact licenseLine_eq_some_iff.2 ⟨rfl, hstart, hfirst⟩
  have hfound := Pattern.findFrom_append_of_eq_some (a := []) hmatch rfl (by simp)
  rw [List.nil_append, findFrom_license_of_lacks (by simp [startsLine]) ht, List.append_assoc]
    at hfound
  exact hfound

/-! ### Pragmas -/

/-- Whether white space and a word stand at the front of a text, as far as it goes. -/
def followsKeyword (t : Text) : Bool :=
  t.isEmpty || (t.head?.any isBlank && (t.dropWhile isBlank).head?.all isWord)

/-- Whether a pragma has its keyword at the front of a text, with `line` before it. -/
def beginsPragma (line t : Text) : Bool :=
  startsWord line.getLast? &&
    match pragmaKeyword.isPrefixOf? t with
    | none => false
    | some r => followsKeyword r

theorem beginsPragma_eq_true_iff {line t : Text} : beginsPragma line t = true ↔
    startsWord line.getLast? = true ∧ ∃ r, t = pragmaKeyword ++ r ∧ followsKeyword r = true := by
  have hany : beginsPragma line t =
      (startsWord line.getLast? && (pragmaKeyword.isPrefixOf? t).any followsKeyword) := by
    unfold beginsPragma
    cases pragmaKeyword.isPrefixOf? t <;> rfl
  rw [hany, Bool.and_eq_true, any_isPrefixOf?_eq_true_iff]

theorem followsKeyword_eq_true_iff {t : Text} : followsKeyword t = true ↔
    t = [] ∨ ∃ gap v, t = gap ++ v ∧ gap ≠ [] ∧ (∀ c ∈ gap, isBlank c = true) ∧
      ∀ c ∈ v.head?, isWord c = true := by
  constructor
  · intro h
    cases t with
    | nil => exact .inl rfl
    | cons c cs =>
      have hc : isBlank c = true ∧ ((c :: cs).dropWhile isBlank).head?.all isWord = true := by
        simpa [followsKeyword] using h
      obtain ⟨gap, v, hv, hgap, htake, hdrop, -⟩ :=
        exists_takeWhile_append (p := isBlank) (t := c :: cs)
      rw [hdrop] at hc
      refine .inr ⟨gap, v, hv, ?_, hgap, fun d hd => ?_⟩
      · rw [← htake, List.takeWhile_cons_of_pos hc.1]
        exact List.cons_ne_nil _ _
      · rw [Option.mem_def.1 hd] at hc
        exact hc.2
  · rintro (rfl | ⟨gap, v, rfl, hne, hgap, hv⟩)
    · rfl
    · obtain ⟨c, cs, rfl⟩ := List.exists_cons_of_ne_nil hne
      have hdrop : (c :: cs ++ v).dropWhile isBlank = v := by
        rw [List.dropWhile_append_of_pos hgap]
        cases v with
        | nil => rfl
        | cons d ds => rw [List.dropWhile_cons_of_neg (by simp [isBlank_of_isWord (hv d rfl)])]
      have hc : isBlank c = true := hgap c (List.mem_cons_self ..)
      have hword : v.head?.all isWord = true := by
        cases v with
        | nil => rfl
        | cons d ds => simpa using hv d rfl
      rw [followsKeyword, hdrop, hword]
      simp [hc]

theorem followsKeyword_of_append_lineFeed {t u : Text} (h : followsKeyword (t ++ '\n' :: u) = true) :
    followsKeyword t = true := by
  rw [followsKeyword_eq_true_iff] at h ⊢
  rcases h with h | ⟨gap, v, htext, hne, hgap, hv⟩
  · simp at h
  · rcases List.append_eq_append_iff.1 htext with ⟨z, rfl, -⟩ | ⟨z, rfl, hz⟩
    · cases t with
      | nil => exact .inl rfl
      | cons c cs =>
        exact .inr ⟨c :: cs, [], by simp, List.cons_ne_nil c cs,
          fun d hd => hgap d (List.mem_append_left z hd), by simp⟩
    · refine .inr ⟨gap, z, rfl, hne, hgap, fun c hc => hv c ?_⟩
      cases z with
      | nil => simp at hc
      | cons d ds =>
        rw [hz]
        exact hc

theorem followsKeyword_append_lineFeed {t : Text} (h : followsKeyword t = true) :
    followsKeyword (t ++ ['\n']) = true := by
  rw [followsKeyword_eq_true_iff] at h ⊢
  rcases h with rfl | ⟨gap, v, rfl, hne, hgap, hv⟩
  · exact .inr ⟨['\n'], [], rfl, List.cons_ne_nil _ _, by simp [isBlank], by simp⟩
  · cases v with
    | nil =>
      refine .inr ⟨gap ++ ['\n'], [], by simp, by simp, fun c hc => ?_, by simp⟩
      rcases List.mem_append.1 hc with hc | hc
      · exact hgap c hc
      · rw [List.mem_singleton.1 hc]
        rfl
    | cons c cs => exact .inr ⟨gap, c :: cs ++ ['\n'], by simp, hne, hgap, hv⟩

theorem followsKeyword_of_padded {t u : Text} (hpad : Padded t u) (h : followsKeyword t = true) :
    followsKeyword u = true := by
  rw [followsKeyword_eq_true_iff] at h ⊢
  rcases h with rfl | ⟨gap, v, rfl, hne, hgap, hv⟩
  · have hnil : ([] : Text) = [] ++ [] := rfl
    obtain ⟨gap, v, rfl, hgap, -, hhead⟩ := hpad.exists_gap hnil (by simp)
    obtain rfl : v = [] := List.head?_eq_none_iff.1 hhead
    rw [List.append_nil]
    cases gap with
    | nil => exact .inl rfl
    | cons c cs => exact .inr ⟨c :: cs, [], by simp, List.cons_ne_nil c cs, hgap, by simp⟩
  · obtain ⟨gap', v', rfl, hgap', hne', hhead⟩ := hpad.exists_gap rfl hgap
    exact .inr ⟨gap', v', rfl, hne' hne, hgap', by rw [hhead]; exact hv⟩

theorem beginning_pragma : Beginning beginsPragma where
  head {l t} h := by
    obtain ⟨-, r, rfl, -⟩ := beginsPragma_eq_true_iff.1 h
    exact ⟨'p', _, rfl, rfl⟩
  of_append_lineFeed {l t u} h := by
    obtain ⟨hword, r, hr, hfollows⟩ := beginsPragma_eq_true_iff.1 h
    obtain ⟨z, rfl, rfl⟩ := exists_of_append_eq_append_cons hr.symm (by decide)
    exact beginsPragma_eq_true_iff.2 ⟨hword, z, rfl, followsKeyword_of_append_lineFeed hfollows⟩
  append_lineFeed {l t} h := by
    obtain ⟨hword, r, rfl, hfollows⟩ := beginsPragma_eq_true_iff.1 h
    exact beginsPragma_eq_true_iff.2
      ⟨hword, r ++ ['\n'], by simp, followsKeyword_append_lineFeed hfollows⟩
  of_padded {l t u} hpad h := by
    obtain ⟨hword, r, rfl, hfollows⟩ := beginsPragma_eq_true_iff.1 h
    have hkeyword : ∀ c ∈ pragmaKeyword, isBlank c = false := by simp [pragmaKeyword, isBlank]
    obtain ⟨r', rfl, hr'⟩ := Padded.exists_of_append hpad hkeyword
    exact beginsPragma_eq_true_iff.2 ⟨hword, r', rfl, followsKeyword_of_padded hr' hfollows⟩

theorem startsWord_lastLine (t : Text) : startsWord (lastLine t).getLast? = startsWord t.getLast? := by
  rcases getLast?_lastLine t with h | ⟨hline, h⟩
  · rw [h]
  · rw [hline, h]
    rfl

/-- Where the pattern takes a pragma statement, a pragma begins. -/
theorem beginsPragma_of_pragmaStatement {a b : Text} {m : Match Pragma}
    (h : pragmaStatement a.getLast? b = some m) : beginsPragma (lastLine a) b = true := by
  obtain ⟨hword, s, behind, rfl, -⟩ := pragmaStatement_eq_some_iff.1 h
  rw [← startsWord_lastLine] at hword
  refine beginsPragma_eq_true_iff.2
    ⟨hword, s.gap ++ (s.name ++ (s.rest ++ ';' :: behind)), by simp [PragmaForm.text], ?_⟩
  obtain ⟨c, cs, hc⟩ := List.exists_cons_of_ne_nil s.name_ne_nil
  refine followsKeyword_eq_true_iff.2 (.inr ⟨s.gap, _, rfl, s.gap_ne_nil, s.gap_blank, fun d hd => ?_⟩)
  obtain rfl : c = d := by simpa [hc] using hd
  exact s.name_word c (by rw [hc]; exact List.mem_cons_self ..)

/-- Every place where the pattern takes a pragma statement lies in a statement that is found. -/
theorem covers_of_pragmaStatement {t a b : Text} {m : Match Pragma} (ht : mask t = a ++ b)
    (h : pragmaStatement a.getLast? b = some m) :
    covers ((pragmas t).map Found.span) (byteSize a) = true := by
  obtain ⟨-, s, behind, rfl, rfl⟩ := pragmaStatement_eq_some_iff.1 h
  have hpos : 0 < s.text.length := by simp [PragmaForm.text]
  have hne : s.text ++ behind ≠ [] := by simp [PragmaForm.text]
  obtain ⟨f, hf, hle, hlt⟩ := Pattern.exists_covering h hpos hne
  rw [← ht] at hf
  refine covers_eq_true_iff.2 ⟨_, List.mem_map_of_mem (List.mem_map_of_mem hf), hle, ?_⟩
  exact Nat.lt_of_lt_of_le hlt (le_lineRestEnd t f.span.stop)

end Source

end FlatSol
